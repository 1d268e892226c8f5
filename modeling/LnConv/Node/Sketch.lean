import LnConv.Diff
import LnConv.Node.Base

/-!
# Sketch nodes

A ticker for each peer sends it one sketch of every kind. The receiver reads the
sender's state, computes the symmetric difference and, if it fits the sketch's
capacity, replies with what the sender is strictly missing; with full
reconciliation it also asks for what it is missing itself. Nothing is forwarded.
-/

namespace LnConv

structure SketchCfg (V : Type) extends NodeCfg V where
  stagger : Nat
  perPeerOffsets : List Nat
  capChanUpdates : Nat
  capNodeAnns : Nat
  capChanAnns : Nat
  floodOnOriginate : Bool
  fullReconciliation : Bool
  reservoirCap : Nat
  rngs : SketchKind → Nat → Draws
  offsets_length : perPeerOffsets.length = peers.outputs.length

namespace SketchNode

variable {V : Type} (c : SketchCfg V)

/-! ## Receiving -/

def absorb (kind : GossipKind) (gs : List Gossip) (now : Nat) : Handler V := fun n => do
  let (n, fresh) ← n.absorbKind kind gs now
  if fresh.isEmpty then some (n, {})
  else some (n, { schedules := n.maybeForceFlush, firstSeen := stampSeen fresh now })

def absorbChanUpdates (gs : List Gossip) (now : Nat) : Handler V := absorb .channelUpdate gs now

def absorbNodeAnns (gs : List Gossip) (now : Nat) : Handler V := absorb .nodeAnnouncement gs now

def absorbChanAnns (gs : List Gossip) (now : Nat) : Handler V := absorb .channelAnnouncement gs now

def absorbOne (g : Gossip) (now : Nat) : Handler V :=
  match g.kind with
  | .channelUpdate => absorbChanUpdates [g] now
  | .nodeAnnouncement => absorbNodeAnns [g] now
  | .channelAnnouncement => absorbChanAnns [g] now

/-- The inbound counters of a message. -/
def countIn (wire : WireMessage) (n : Node) : Node :=
  let m := n.metricsLocal
  match wire with
  | .single _ | .batch _ => n.addBytesInGossip wire.wireSize
  | .sketch _ => { n with metricsLocal := { m with bytesInSketch := m.bytesInSketch + wire.wireSize } }
  | .inventory _ => { n with metricsLocal := { m with
      bytesInInventory := m.bytesInInventory + wire.wireSize
      inventoriesReceived := m.inventoriesReceived + 1 } }

/-- Sketches and inventories are handled one millisecond later. -/
def recv (wire : WireMessage) (now : Nat) : Handler V := fun n =>
  let n := countIn wire n
  match wire with
  | .single g => absorbOne g now n
  | .batch b =>
    (absorbChanUpdates b.chanUpdates now).seq
      ((absorbNodeAnns b.nodeAnns now).seq (absorbChanAnns b.chanAnns now)) n
  | .sketch s => some (n, { schedules := [(10 ^ 6, .handleSketch s)] })
  | .inventory i => some (n, { schedules := [(10 ^ 6, .handleInventory i)] })

/-! ## Sending -/

def originate [MsgHash] (msg : Gossip) (now : Nat) : Handler V := fun n => do
  let (n, stamped) ← n.stampOriginated c.toNodeCfg msg now
  match stamped with
  | none => some (n, {})
  | some msg =>
    if c.floodOnOriginate && !c.peers.outputs.isEmpty then
      let wire := WireMessage.single msg
      let n := n.addBytesOutGossip (wire.wireSize * c.peers.outputs.length)
      some (n, { sends := c.broadcast wire, firstSeen := stampSeen [msg] now })
    else some (n, { firstSeen := stampSeen [msg] now })

/-- One turn of the loop of `tick_for_peer`. The size is cut to 16 bits. -/
def sendSketch (peerLocal : Nat) (kind : SketchKind) (capacity : Nat) : Handler V := fun n =>
  let id := (n.nextSketchId + 1) % 2 ^ 32
  let sketch : Sketch :=
    { id := id, fromId := c.id, kind := kind, capacity := capacity,
      sizeBytes := capacity * 8 % 2 ^ 16 }
  let m := { n.metricsLocal with
    sketchesSent := n.metricsLocal.sketchesSent + 1
    bytesOutSketch := n.metricsLocal.bytesOutSketch + sketch.sizeBytes }
  some ({ n with nextSketchId := id, metricsLocal := m },
    { sends := (c.peers.outputs[peerLocal]?).toList.map fun v => (v, .sketch sketch) })

def tickForPeer (peerLocal : Nat) : Handler V :=
  (sendSketch c peerLocal .chanUpdates c.capChanUpdates).seq
    ((sendSketch c peerLocal .nodeAnns c.capNodeAnns).seq
      (sendSketch c peerLocal .chanAnns c.capChanAnns))

/-- Sends the gossips of one kind as a batch, unless there are none. -/
def sendGossips (out : V) (kind : GossipKind) (gs : List Gossip) (h : ∀ g ∈ gs, g.kind = kind)
    (n : Node) : Node × List (V × WireMessage) :=
  if gs.isEmpty then (n, [])
  else (n.addBytesOutGossip (sizeSum gs), [(out, .batch (GossipBatch.fromMixedForKind gs kind h))])

/-- The full-reconciliation follow-up: asks for the keys of `gs`. -/
def sendInventory (out : V) (kind : GossipKind) (gs : List Gossip) (n : Node) :
    Node × List (V × WireMessage) :=
  if c.fullReconciliation && !gs.isEmpty then
    let inv := InventoryMsg.new c.id kind (gs.map Gossip.stateKey)
    let m := { n.metricsLocal with
      bytesOutInventory := n.metricsLocal.bytesOutInventory + inv.sizeBytes
      inventoriesSent := n.metricsLocal.inventoriesSent + 1 }
    ({ n with metricsLocal := m }, [(out, .inventory inv)])
  else (n, [])

def countOverflow (kind : SketchKind) (m : PerNodeMetrics) : PerNodeMetrics :=
  match kind with
  | .chanUpdates => { m with overflowedChanUpdates := m.overflowedChanUpdates + 1 }
  | .nodeAnns => { m with overflowedNodeAnns := m.overflowedNodeAnns + 1 }
  | .chanAnns => { m with overflowedChanAnns := m.overflowedChanAnns + 1 }

/-- The counters of a handled sketch, overflow or not. -/
def countRound (kind : SketchKind) (diff : DiffResult) (n : Node) : Node :=
  let m := { n.metricsLocal with sketchesReceived := n.metricsLocal.sketchesReceived + 1 }
  let stats := (m.statsOf kind).observeRound diff.intersection diff.aOnlyCount diff.bOnlyCount
  { n with metricsLocal := m.setStats kind stats }

def recordOverflow (sketch : Sketch) (totalDiff now : Nat) (n : Node) : Node :=
  let m := countOverflow sketch.kind n.metricsLocal
  let event : OverflowEvent :=
    { timeNs := nsSinceEpoch now, receiverIdx := c.idx, peerId := sketch.fromId, kind := sketch.kind,
      amount := (totalDiff - sketch.capacity) % 2 ^ 32, totalDiff := totalDiff % 2 ^ 32 }
  { n with metricsLocal := { m with overflowEvents := m.overflowEvents ++ [event] } }

def diffSide : WhichSide := if c.fullReconciliation then .both else .b

theorem wantB_diffSide : (diffSide c).wantB = true := by
  unfold diffSide; split <;> rfl

/-- `peerState v` is the shared state of the node behind mailbox `v`. -/
def handleSketch [MsgHash] (peerState : V → NodeState) (sketch : Sketch) (now : Nat) : Handler V :=
  fun n =>
    match c.peers.peerIdToLocal.lookup sketch.fromId with
    | none => some (n, {})
    | some loc => do
      let out ← c.peers.outputs[loc]?
      let diff := computeDiff (peerState out) n.state sketch.kind (diffSide c)
      let totalDiff := diff.aOnlyCount + diff.bOnlyCount
      let n := countRound sketch.kind diff n
      if totalDiff > sketch.capacity then some (recordOverflow c sketch totalDiff now n, {})
      else
        let kind := sketch.kind.toGossip
        let (n, reply) := sendGossips out kind diff.bNewer
          (fun _ => kind_of_mem_bNewer (wantB_diffSide c)) n
        let (n, request) := sendInventory c out kind diff.aNewer n
        some (n, { sends := reply ++ request })

/-- The gossips held for the requested keys. -/
def lookupKeys [MsgHash] (s : NodeState) (kind : GossipKind) (keys : List Nat) : List Gossip :=
  match kind with
  | .channelUpdate => keys.filterMap fun k => (s.chanUpdates.lookup k).map (synthCu k)
  | .nodeAnnouncement => keys.filterMap fun k => (s.nodeAnns.lookup k).map (synthNa k)
  | .channelAnnouncement => keys.filterMap fun k => (s.chanAnns.lookup k).map (synthChanAnn k)

theorem kind_of_mem_lookupKeys [MsgHash] {s : NodeState} {kind : GossipKind} {keys : List Nat}
    {g : Gossip} (h : g ∈ lookupKeys s kind keys) : g.kind = kind := by
  cases kind <;> simp only [lookupKeys, List.mem_filterMap, Option.map_eq_some_iff] at h <;>
    obtain ⟨k, -, v, -, rfl⟩ := h <;> rfl

def handleInventory [MsgHash] (inv : InventoryMsg) : Handler V := fun n =>
  match c.peers.peerIdToLocal.lookup inv.fromId with
  | none => some (n, {})
  | some loc => do
    let out ← c.peers.outputs[loc]?
    let (n, sends) := sendGossips out inv.kind (lookupKeys n.state inv.kind inv.keys)
      (fun _ => kind_of_mem_lookupKeys) n
    some (n, { sends := sends })

/-- At the end of the run the reservoirs are shipped as well. -/
def flushSummary (now : Nat) : Handler V := fun n =>
  let (n, events) := n.drain c.toNodeCfg now
  if nsSinceEpoch now ≥ c.runDuration % 2 ^ 64 then
    let (m, cu, na, ca) := n.metricsLocal.takeReservoirs
    some ({ n with metricsLocal := m },
      { events := events ++ [.nodeReservoirDump c.idx cu na ca] })
  else some (n, { events := events })

/-- The events armed at the start: delay, event, period. -/
def armPerPeerTickers : List (Nat × Ev × Option Nat) :=
  (c.perPeerOffsets.mapIdx fun i offset => (offset, .tickForPeer i, some c.stagger)) ++
    (if c.flushInterval > 0 then [(c.flushPhase, .flushSummary, some c.flushInterval)] else []) ++
    [(c.runDuration, .flushSummary, none)]

/-! ## What receiving does -/

variable {c} {now : Nat} {n n' : Node} {e : Effects V}

theorem absorb_absorbs {kind : GossipKind} {gs : List Gossip} (hg : ∀ g ∈ gs, g.kind = kind)
    (h : absorb kind gs now n = some (n', e)) : Absorbs .nowhere gs now n n' e := by
  simp only [absorb, Option.bind_eq_bind, Option.bind_eq_some_iff] at h
  obtain ⟨⟨n₁, fresh⟩, hk, h⟩ := h
  dsimp only at h
  split at h
  · next hnil =>
    cases h
    rw [List.isEmpty_iff.1 hnil] at hk
    obtain ⟨dups, sp⟩ := absorbKind_spec (e := ({} : Effects V)) hg hk rfl rfl rfl
    exact ⟨[], dups, sp, rfl, by simp⟩
  · cases h
    obtain ⟨dups, sp⟩ := absorbKind_spec (e := ⟨[], _, [], _⟩) hg hk rfl rfl rfl
    exact ⟨fresh, dups, sp, Node.gossips_maybeForceFlush _,
      Node.spawned_maybeForceFlush _⟩

theorem absorb_total {kind : GossipKind} {gs : List Gossip}
    (hg : ∀ g ∈ gs, g.kind = kind ∧ g.key?.isSome) : (absorb kind gs now : Handler V).Total := by
  intro n
  obtain ⟨⟨n₁, fresh⟩, h⟩ := absorbKind_isSome (n := n) now hg
  simp only [absorb, h, Option.bind_eq_bind, Option.bind_some]
  split <;> exact ⟨_, rfl⟩

theorem recv_absorbs {wire : WireMessage} (h : recv wire now n = some (n', e)) :
    Absorbs .nowhere wire.gossips now (countIn wire n) n' e := by
  cases wire with
  | single g =>
    simp only [recv] at h
    cases hk : g.kind <;> simp only [absorbOne, hk] at h <;>
      exact absorb_absorbs (by simp [WireMessage.gossips, hk]) h
  | batch b =>
    obtain ⟨n₁, e₁, e', h₁, h', rfl⟩ := Handler.seq_eq_some h
    obtain ⟨n₂, e₂, e₃, h₂, h₃, rfl⟩ := Handler.seq_eq_some h'
    have a := (absorb_absorbs b.kind_chanUpdates h₁).append
      ((absorb_absorbs b.kind_nodeAnns h₂).append (absorb_absorbs b.kind_chanAnns h₃))
    simpa [WireMessage.gossips, GossipBatch.gossips] using a
  | sketch _ => cases h; exact .nil _ _ _ rfl (by simp [Ev.spawned])
  | inventory _ => cases h; exact .nil _ _ _ rfl (by simp [Ev.spawned])

theorem recv_total {wire : WireMessage} (hg : ∀ g ∈ wire.gossips, g.key?.isSome) :
    (recv wire now : Handler V).Total := by
  intro n
  cases wire with
  | single g =>
    have hs : g.key?.isSome := hg g (List.mem_singleton.2 rfl)
    simp only [recv]
    cases hk : g.kind <;> simp only [absorbOne, hk] <;>
      exact absorb_total (by simp [hk, hs]) _
  | batch b =>
    obtain ⟨hcu, hna, hca⟩ := b.forall_gossips.1 hg
    exact (absorb_total hcu).seq ((absorb_total hna).seq (absorb_total hca)) _
  | sketch _ => exact ⟨_, rfl⟩
  | inventory _ => exact ⟨_, rfl⟩

/-! ## What reconciling does -/

/-- Only counters changed. -/
structure Keeps (n n' : Node) : Prop where
  state : n'.state = n.state
  pending : n'.pending = n.pending
  duplicates : n'.metricsLocal.duplicates = n.metricsLocal.duplicates
  firstSeenPending : n'.metricsLocal.firstSeenPending = n.metricsLocal.firstSeenPending

theorem Keeps.refl (n : Node) : Keeps n n := ⟨rfl, rfl, rfl, rfl⟩

theorem Keeps.trans {n'' : Node} (h : Keeps n n') (h' : Keeps n' n'') : Keeps n n'' :=
  ⟨h'.state.trans h.state, h'.pending.trans h.pending, h'.duplicates.trans h.duplicates,
    h'.firstSeenPending.trans h.firstSeenPending⟩

theorem sendSketch_keeps {loc : Nat} {kind : SketchKind} {cap : Nat}
    (h : sendSketch c loc kind cap n = some (n', e)) :
    Keeps n n' ∧ e.schedules = [] ∧ e.firstSeen = [] ∧ e.events = [] := by
  cases h; exact ⟨⟨rfl, rfl, rfl, rfl⟩, rfl, rfl, rfl⟩

theorem tickForPeer_keeps {loc : Nat} (h : tickForPeer c loc n = some (n', e)) :
    Keeps n n' ∧ e.schedules = [] ∧ e.firstSeen = [] ∧ e.events = [] := by
  obtain ⟨n₁, e₁, e', h₁, h', rfl⟩ := Handler.seq_eq_some h
  obtain ⟨n₂, e₂, e₃, h₂, h₃, rfl⟩ := Handler.seq_eq_some h'
  obtain ⟨k₁, s₁, f₁, v₁⟩ := sendSketch_keeps h₁
  obtain ⟨k₂, s₂, f₂, v₂⟩ := sendSketch_keeps h₂
  obtain ⟨k₃, s₃, f₃, v₃⟩ := sendSketch_keeps h₃
  exact ⟨(k₁.trans k₂).trans k₃, by simp [s₁, s₂, s₃], by simp [f₁, f₂, f₃], by simp [v₁, v₂, v₃]⟩

/-- A ticker sends its peer a sketch of every kind. -/
theorem tickForPeer_sends {loc : Nat} {v : V} (h : tickForPeer c loc n = some (n', e))
    (ho : c.peers.outputs[loc]? = some v) (kind : SketchKind) :
    ∃ sk, (v, .sketch sk) ∈ e.sends ∧ sk.fromId = c.id ∧ sk.kind = kind := by
  obtain ⟨n₁, e₁, e', h₁, h', rfl⟩ := Handler.seq_eq_some h
  obtain ⟨n₂, e₂, e₃, h₂, h₃, rfl⟩ := Handler.seq_eq_some h'
  cases h₁; cases h₂; cases h₃
  cases kind <;> simp [ho]

theorem sendGossips_keeps {out : V} {kind : GossipKind} {gs : List Gossip}
    (h : ∀ g ∈ gs, g.kind = kind) (n : Node) : Keeps n (sendGossips out kind gs h n).1 := by
  unfold sendGossips
  split <;> exact ⟨rfl, rfl, rfl, rfl⟩

theorem sendGossips_snd {out : V} {kind : GossipKind} {gs : List Gossip}
    (h : ∀ g ∈ gs, g.kind = kind) (n : Node) : (sendGossips out kind gs h n).2 =
      if gs.isEmpty then [] else [(out, .batch (GossipBatch.fromMixedForKind gs kind h))] := by
  unfold sendGossips
  split <;> rfl

theorem mem_sentTo_sendGossips [DecidableEq V] {out : V} {kind : GossipKind} {gs : List Gossip}
    {h : ∀ g ∈ gs, g.kind = kind} {rest : List (V × WireMessage)}
    (he : e.sends = (sendGossips out kind gs h n).2 ++ rest) : gs ⊆ e.sentTo out := by
  intro g hg
  have hne : gs.isEmpty = false := List.isEmpty_eq_false_iff_exists_mem.2 ⟨g, hg⟩
  refine Effects.mem_sentTo.2 ⟨.batch (.fromMixedForKind gs kind h), ?_, ?_⟩
  · rw [he, sendGossips_snd, hne]
    simp
  · simpa [WireMessage.gossips] using hg

theorem sendInventory_keeps (out : V) (kind : GossipKind) (gs : List Gossip) (n : Node) :
    Keeps n (sendInventory c out kind gs n).1 := by
  unfold sendInventory
  split <;> exact ⟨rfl, rfl, rfl, rfl⟩

theorem sendInventory_snd (out : V) (kind : GossipKind) (gs : List Gossip) (n : Node) :
    (sendInventory c out kind gs n).2 = if c.fullReconciliation && !gs.isEmpty then
      [(out, .inventory (InventoryMsg.new c.id kind (gs.map Gossip.stateKey)))] else [] := by
  unfold sendInventory
  split <;> rfl

theorem countRound_keeps (kind : SketchKind) (diff : DiffResult) (n : Node) :
    Keeps n (countRound kind diff n) := by
  cases kind <;> exact ⟨rfl, rfl, rfl, rfl⟩

theorem recordOverflow_keeps (sketch : Sketch) (totalDiff now : Nat) (n : Node) :
    Keeps n (recordOverflow c sketch totalDiff now n) := by
  have hk : ∀ (kind : SketchKind) (m : PerNodeMetrics), (countOverflow kind m).duplicates =
      m.duplicates ∧ (countOverflow kind m).firstSeenPending = m.firstSeenPending :=
    fun kind _ => by cases kind <;> exact ⟨rfl, rfl⟩
  exact ⟨rfl, rfl, (hk _ _).1, (hk _ _).2⟩

section Protocol

variable [MsgHash]

theorem handleSketch_keeps {peerState : V → NodeState} {sk : Sketch}
    (h : handleSketch c peerState sk now n = some (n', e)) :
    Keeps n n' ∧ e.schedules = [] ∧ e.firstSeen = [] ∧ e.events = [] := by
  simp only [handleSketch] at h
  split at h
  · cases h; exact ⟨.refl n, rfl, rfl, rfl⟩
  simp only [Option.bind_eq_bind, Option.bind_eq_some_iff] at h
  obtain ⟨out, -, h⟩ := h
  split at h
  · cases h
    exact ⟨(countRound_keeps _ _ _).trans (recordOverflow_keeps _ _ _ _), rfl, rfl, rfl⟩
  · cases h
    exact ⟨((countRound_keeps _ _ _).trans (sendGossips_keeps _ _)).trans
      (sendInventory_keeps _ _ _ _), rfl, rfl, rfl⟩

/-- The answer to a sketch that does not overflow: what the peer misses, and a
request for what is missed. -/
theorem handleSketch_answers {peerState : V → NodeState} {sk : Sketch} {loc : Nat} {out : V}
    {diff : DiffResult} (hdiff : diff = computeDiff (peerState out) n.state sk.kind (diffSide c))
    (hl : c.peers.peerIdToLocal.lookup sk.fromId = some loc)
    (ho : c.peers.outputs[loc]? = some out) (hcap : diff.aOnlyCount + diff.bOnlyCount ≤ sk.capacity)
    (now : Nat) : ∃ n' e, handleSketch c peerState sk now n = some (n', e) ∧
      e.sends = (sendGossips out sk.kind.toGossip diff.bNewer
          (fun _ hg => kind_of_mem_bNewer (wantB_diffSide c) (hdiff ▸ hg)) n).2 ++
        (sendInventory c out sk.kind.toGossip diff.aNewer n).2 := by
  subst hdiff
  simp only [handleSketch, hl, ho, Option.bind_eq_bind, Option.bind_some, not_lt.2 hcap, gt_iff_lt,
    if_false]
  refine ⟨_, _, rfl, ?_⟩
  simp only [sendGossips_snd, sendInventory_snd]

theorem handleInventory_keeps {inv : InventoryMsg} (h : handleInventory c inv n = some (n', e)) :
    Keeps n n' ∧ e.schedules = [] ∧ e.firstSeen = [] ∧ e.events = [] := by
  simp only [handleInventory] at h
  split at h
  · cases h; exact ⟨.refl n, rfl, rfl, rfl⟩
  simp only [Option.bind_eq_bind, Option.bind_eq_some_iff] at h
  obtain ⟨out, -, h⟩ := h
  cases h
  exact ⟨sendGossips_keeps _ _, rfl, rfl, rfl⟩

/-- The answer to an inventory: what is held for its keys. -/
theorem handleInventory_answers (inv : InventoryMsg) {loc : Nat} {out : V}
    (hl : c.peers.peerIdToLocal.lookup inv.fromId = some loc)
    (ho : c.peers.outputs[loc]? = some out) : ∃ n' e, handleInventory c inv n = some (n', e) ∧
      e.sends = (sendGossips out inv.kind (lookupKeys n.state inv.kind inv.keys)
        (fun _ => kind_of_mem_lookupKeys) n).2 := by
  simp only [handleInventory, hl, ho, Option.bind_eq_bind, Option.bind_some]
  exact ⟨_, _, rfl, rfl⟩

/-- The gossips looked up for `keys` join to the entries held for them. -/
structure Supplies (s : NodeState) (K : GossipKind) (keys : List Nat) (gs : List Gossip) :
    Prop where
  kind : ∀ g ∈ gs, g.kind = K
  keyed : ∀ g ∈ gs, g.key?.isSome
  stateKey : ∀ g ∈ gs, g.stateKey ∈ keys
  held : ∀ g ∈ gs, s.view K g.stateKey = WithBot.some g.stamp
  le_view : joinOf gs ≤ s.view
  view_le : ∀ k ∈ keys, s.view K k ≤ joinOf gs K k
  nodup : keys.Nodup → (gs.map Gossip.stateKey).Nodup

omit [MsgHash] in
theorem supplies_filterMap {W : Type} {kind : GossipKind} {stamp : W → Nat} {synth : Nat → W → Gossip}
    {m : IntMap W} {s : NodeState} (hs : Rebuilds kind stamp synth m)
    (hv : s.view kind = stampView stamp m) (keys : List Nat) :
    Supplies s kind keys (keys.filterMap fun k => (m.lookup k).map (synth k)) := by
  have hmem : ∀ g, (g ∈ keys.filterMap fun k => (m.lookup k).map (synth k)) ↔
      ∃ k ∈ keys, ∃ v, m.lookup k = some v ∧ synth k v = g := by
    simp [List.mem_filterMap]
  have hget : ∀ g ∈ keys.filterMap fun k => (m.lookup k).map (synth k),
      g.kind = kind ∧ g.key?.isSome ∧ g.stateKey ∈ keys ∧
        s.view kind g.stateKey = WithBot.some g.stamp := by
    intro g hg
    obtain ⟨k, hk, v, hl, rfl⟩ := (hmem g).1 hg
    obtain ⟨hkind, hkey, hst⟩ := hs k v hl
    exact ⟨hkind, by simp [hkey], by rwa [stateKey_of_key? hkey],
      by rw [hv, stateKey_of_key? hkey, hst, stampView_of_lookup hl]⟩
  refine ⟨fun g hg => (hget g hg).1, fun g hg => (hget g hg).2.1, fun g hg => (hget g hg).2.2.1,
    fun g hg => (hget g hg).2.2.2, ?_, fun k hk => ?_, fun hn => ?_⟩
  · refine supOf_le_iff.2 fun g hg => atom_le_iff.2 ?_
    rw [(hget g hg).1, (hget g hg).2.2.2]
  · rw [hv]
    cases hl : m.lookup k with
    | none => rw [stampView_eq_bot.2 hl]; exact bot_le
    | some v =>
      obtain ⟨hkind, hkey, hst⟩ := hs k v hl
      have hle : (synth k v).atom ≤ joinOf (keys.filterMap fun k => (m.lookup k).map (synth k)) :=
        le_supOf ((hmem _).2 ⟨k, hk, v, hl, rfl⟩)
      rw [atom_le_iff, hkind, stateKey_of_key? hkey, hst] at hle
      rwa [stampView_of_lookup hl]
  · rw [List.Nodup, List.pairwise_map, List.pairwise_filterMap]
    apply hn.imp
    intro k k' hne g hg g' hg'
    obtain ⟨v, hv, rfl⟩ := Option.map_eq_some_iff.1 hg
    obtain ⟨v', hv', rfl⟩ := Option.map_eq_some_iff.1 hg'
    rwa [stateKey_of_key? (hs k v hv).2.1, stateKey_of_key? (hs k' v' hv').2.1]

theorem supplies_lookupKeys (s : NodeState) (kind : GossipKind) (keys : List Nat) :
    Supplies s kind keys (lookupKeys s kind keys) := by
  cases kind with
  | channelUpdate => exact supplies_filterMap (rebuilds_synthCu s) rfl keys
  | nodeAnnouncement => exact supplies_filterMap (rebuilds_synthNa _) rfl keys
  | channelAnnouncement => exact supplies_filterMap (rebuilds_synthChanAnn _) rfl keys

end Protocol

end SketchNode

end LnConv
