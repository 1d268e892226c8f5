import LnConv.DiffSpec
import LnConv.Flush
import LnConv.Mixed
import LnConv.Rounds
import LnConv.Tables
import LnConv.Node.Run

/-!
# Reported overflows

A sketch that is too small for what its receiver and its sender do not share is an
overflow. The receiver counts it and buffers an event, and a flush ships the buffer with
a snapshot of the counters. So the overflow table lists exactly the overflows of a run,
and the counters of a node always agree with its part of the table.
-/

namespace LnConv

/-! ## Overflows -/

/-- How many entries of either node the other does not share. -/
def NodeState.difference (a b : NodeState) (kind : SketchKind) : Nat :=
  ((a.entries kind).countP fun e => ¬e.SharedBy b kind) +
    (b.entries kind).countP fun e => ¬e.SharedBy a kind

/-- The overflow of a sketch, if it is too small for a difference. -/
def Sketch.overflow (sk : Sketch) (idx : NodeIdx) (now total : Nat) : List OverflowEvent :=
  if sk.capacity < total then
    [{ timeNs := nsSinceEpoch now, receiverIdx := idx, peerId := sk.fromId, kind := sk.kind,
       amount := (total - sk.capacity) % 2 ^ 32, totalDiff := total % 2 ^ 32 }]
  else []

theorem Sketch.of_mem_overflow {sk : Sketch} {idx : NodeIdx} {now total : Nat} {o : OverflowEvent}
    (h : o ∈ sk.overflow idx now total) : o.receiverIdx = idx := by
  unfold overflow at h
  split at h
  · rw [List.mem_singleton.1 h]
  · cases h

def PerNodeMetrics.overflowed (m : PerNodeMetrics) : SketchKind → Nat
  | .chanUpdates => m.overflowedChanUpdates
  | .nodeAnns => m.overflowedNodeAnns
  | .chanAnns => m.overflowedChanAnns

def NodeCounters.overflowed (c : NodeCounters) : SketchKind → Nat
  | .chanUpdates => c.overflowedChanUpdates
  | .nodeAnns => c.overflowedNodeAnns
  | .chanAnns => c.overflowedChanAnns

def NodeCountersRow.overflowed (r : NodeCountersRow) : SketchKind → Nat
  | .chanUpdates => r.overflowedChanUpdates
  | .nodeAnns => r.overflowedNodeAnns
  | .chanAnns => r.overflowedChanAnns

@[simp] theorem overflowed_snapshotCounters (m : PerNodeMetrics) (kind : SketchKind) :
    m.snapshotCounters.overflowed kind = m.overflowed kind := by cases kind <;> rfl

@[simp] theorem overflowed_fromCounters (idx : NodeIdx) (timeNs : Nat) (c : NodeCounters)
    (kind : SketchKind) :
    (NodeCountersRow.fromCounters idx timeNs c).overflowed kind = c.overflowed kind := by
  cases kind <;> rfl

/-! ## Handlers -/

/-- A handler that ships nothing and leaves the overflows alone. -/
structure Unreported {V : Type} (n n' : Node) (e : Effects V) : Prop where
  events : e.events = []
  buffer : n'.metricsLocal.overflowEvents = n.metricsLocal.overflowEvents
  counters : n'.metricsLocal.overflowed = n.metricsLocal.overflowed

/-- A handler that buffers and counts the overflows it meets. -/
structure Meets {V : Type} (met : List OverflowEvent) (n n' : Node) (e : Effects V) : Prop where
  events : e.events = []
  buffer : n'.metricsLocal.overflowEvents = n.metricsLocal.overflowEvents ++ met
  counters : ∀ kind, n'.metricsLocal.overflowed kind =
    n.metricsLocal.overflowed kind + met.countP fun o => o.kind = kind

/-- A flush ships the buffer with the counters, once. -/
structure Drains {V : Type} (c : NodeCfg V) (now : Nat) (n n' : Node) (e : Effects V) : Prop where
  events : ∃ before after, e.events = before ++ .nodeCountersDelta c.idx (nsSinceEpoch now)
      n.metricsLocal.snapshotCounters n.metricsLocal.overflowEvents :: after ∧
    ∀ ev ∈ before ++ after, ev.counterRow? = none ∧ ev.drained = []
  buffer : n'.metricsLocal.overflowEvents = []
  counters : n'.metricsLocal.overflowed = n.metricsLocal.overflowed

section Handlers

variable {V : Type} {n n' n'' : Node} {e e' : Effects V} {now : Nat}

theorem Unreported.refl (n : Node) : Unreported n n ({} : Effects V) := ⟨rfl, rfl, rfl⟩

theorem Unreported.append (h : Unreported n n' e) (h' : Unreported n' n'' e') :
    Unreported n n'' (e ++ e') :=
  ⟨by simp [h.events, h'.events], h'.buffer.trans h.buffer, h'.counters.trans h.counters⟩

theorem Unreported.meets (h : Unreported n n' e) : Meets [] n n' e :=
  ⟨h.events, by rw [h.buffer, List.append_nil], fun kind => by rw [h.counters]; rfl⟩

theorem Absorbs.unreported {f : Forward} {gs : List Gossip} {n₀ : Node}
    (h : Absorbs f gs now n₀ n' e)
    (hb : n₀.metricsLocal.overflowEvents = n.metricsLocal.overflowEvents)
    (hc : n₀.metricsLocal.overflowed = n.metricsLocal.overflowed) : Unreported n n' e := by
  obtain ⟨fresh, dups, a, -⟩ := h
  refine ⟨a.events, by rw [a.metrics, ← hb], ?_⟩
  rw [a.metrics, ← hc]
  funext kind
  cases kind <;> rfl

theorem ModelCfg.recv_unreported {mc : ModelCfg V} {wire : WireMessage}
    (h : mc.recv wire now n = some (n', e)) : Unreported n n' e := by
  refine (ModelCfg.recv_absorbs h).unreported ?_ ?_
  · cases mc <;> cases wire <;> rfl
  · funext kind
    cases mc <;> cases wire <;> cases kind <;> rfl

theorem drain_drains {c : NodeCfg V} (rest : List MetricsEvent)
    (he : e.events = (n.drain c now).2 ++ rest)
    (hr : ∀ ev ∈ rest, ev.counterRow? = none ∧ ev.drained = [])
    (hb : n'.metricsLocal.overflowEvents = [])
    (hc : n'.metricsLocal.overflowed = n.metricsLocal.overflowed) : Drains c now n n' e := by
  refine ⟨⟨sendFirstSeenBatch c.idx n.metricsLocal.firstSeenPending, rest, ?_, ?_⟩, hb, hc⟩
  · rw [he, Node.drain, List.append_assoc]
    rfl
  · intro ev hev
    rcases List.mem_append.1 hev with hev | hev
    · unfold sendFirstSeenBatch at hev
      split at hev
      · cases hev
      · rw [List.mem_singleton.1 hev]
        exact ⟨rfl, rfl⟩
    · exact hr ev hev

theorem ModelCfg.fire_drains [MsgHash] {mc : ModelCfg V} {peerState : V → NodeState}
    (h : mc.fire peerState .flushSummary now n = some (n', e)) : Drains mc.base now n n' e := by
  have hplain : ∀ {c : NodeCfg V}, e.events = (n.drain c now).2 → n' = (n.drain c now).1 →
      Drains c now n n' e := by
    rintro c he rfl
    refine drain_drains [] (by rw [he, List.append_nil]) (by simp) rfl ?_
    funext kind
    cases kind <;> rfl
  cases mc with
  | sketch c =>
    simp only [ModelCfg.fire, SketchNode.flushSummary] at h
    split at h
    · cases h
      refine drain_drains [.nodeReservoirDump _ _ _ _] rfl ?_ rfl ?_
      · intro ev hev
        rw [List.mem_singleton.1 hev]
        exact ⟨rfl, rfl⟩
      · funext kind
        cases kind <;> rfl
    · cases h
      exact hplain rfl rfl
  | _ =>
    cases h
    exact hplain rfl rfl

/-- Counters other than the overflows do not show. -/
theorem Unreported.of_metrics {m : PerNodeMetrics} (hm : n'.metricsLocal = m)
    (he : e.events = []) (hb : m.overflowEvents = n.metricsLocal.overflowEvents)
    (hc : ∀ kind, m.overflowed kind = n.metricsLocal.overflowed kind) : Unreported n n' e :=
  ⟨he, by rw [hm, hb], by rw [hm]; exact funext hc⟩

section Fire

variable [MsgHash]

theorem stampOriginated_unreported {c : NodeCfg V} {msg : Gossip} {n₀ : Node} {r : Option Gossip}
    (h : n.stampOriginated c msg now = some (n₀, r)) : Unreported n n₀ ({} : Effects V) := by
  obtain ⟨m, b, -, -, -, ⟨-, -, hm⟩ | ⟨-, -, hm⟩⟩ := stampOriginated_spec h
  · exact .of_metrics hm rfl rfl fun kind => by cases kind <;> rfl
  · exact .of_metrics hm rfl rfl fun kind => by cases kind <;> rfl

omit [MsgHash] in
theorem Unreported.addBytesOutGossip (h : Unreported n n' e) (bytes : Nat)
    (he : e'.events = []) : Unreported n (n'.addBytesOutGossip bytes) e' := by
  refine ⟨he, h.buffer, ?_⟩
  rw [← h.counters]
  funext kind
  cases kind <;> rfl

namespace SketchNode

variable {c : SketchCfg V}

omit [MsgHash] in
theorem sendSketch_unreported {loc : Nat} {kind : SketchKind} {cap : Nat}
    (h : sendSketch c loc kind cap n = some (n', e)) : Unreported n n' e := by
  cases h
  exact .of_metrics rfl rfl rfl fun kind => by cases kind <;> rfl

omit [MsgHash] in
theorem tickForPeer_unreported {loc : Nat} (h : tickForPeer c loc n = some (n', e)) :
    Unreported n n' e := by
  obtain ⟨n₁, e₁, e', h₁, h', rfl⟩ := Handler.seq_eq_some h
  obtain ⟨n₂, e₂, e₃, h₂, h₃, rfl⟩ := Handler.seq_eq_some h'
  exact (sendSketch_unreported h₁).append
    ((sendSketch_unreported h₂).append (sendSketch_unreported h₃))

omit [MsgHash] in
theorem sendGossips_unreported (out : V) {kind : GossipKind} {gs : List Gossip}
    (h : ∀ g ∈ gs, g.kind = kind) (n : Node) :
    Unreported n (sendGossips out kind gs h n).1 ({} : Effects V) := by
  unfold sendGossips
  split
  · exact .refl n
  · exact (Unreported.refl n).addBytesOutGossip _ rfl

omit [MsgHash] in
theorem sendInventory_unreported (out : V) (kind : GossipKind) (gs : List Gossip) (n : Node) :
    Unreported n (sendInventory c out kind gs n).1 ({} : Effects V) := by
  unfold sendInventory
  split
  · exact .of_metrics rfl rfl rfl fun kind => by cases kind <;> rfl
  · exact .refl n

omit [MsgHash] in
theorem countRound_unreported (kind : SketchKind) (diff : DiffResult) (n : Node) :
    Unreported n (countRound kind diff n) ({} : Effects V) := by
  refine .of_metrics rfl rfl ?_ fun k => ?_
  · cases kind <;> rfl
  · cases kind <;> cases k <;> rfl

/-- What an id is looked up as. -/
def peer? (c : SketchCfg V) (id : NodeId) : Option V :=
  (c.peers.peerIdToLocal.lookup id).bind fun loc => c.peers.outputs[loc]?

omit [MsgHash] in
theorem recordOverflow_meets (sk : Sketch) (total now : Nat) (n : Node)
    (hlt : sk.capacity < total) :
    Meets (sk.overflow c.idx now total) n (recordOverflow c sk total now n) ({} : Effects V) := by
  unfold Sketch.overflow recordOverflow
  rw [if_pos hlt]
  refine ⟨rfl, ?_, fun kind => ?_⟩
  · cases hk : sk.kind <;> rfl
  · cases hk : sk.kind <;> cases kind <;> rfl

/-- Handling a sketch meets its overflow. -/
theorem handleSketch_meets {peerState : V → NodeState} {sk : Sketch}
    (h : handleSketch c peerState sk now n = some (n', e)) :
    Meets ((peer? c sk.fromId).elim [] fun out =>
      sk.overflow c.idx now ((peerState out).difference n.state sk.kind)) n n' e := by
  simp only [handleSketch] at h
  split at h
  · next hl =>
    cases h
    rw [peer?, hl]
    exact (Unreported.refl n).meets
  · next loc hl =>
    simp only [Option.bind_eq_bind, Option.bind_eq_some_iff] at h
    obtain ⟨out, ho, h⟩ := h
    set diff := computeDiff (peerState out) n.state sk.kind (diffSide c)
    have hdiff : IsDiff (peerState out) n.state sk.kind (diffSide c) diff :=
      isDiff_computeDiff ..
    have htotal : (peerState out).difference n.state sk.kind =
        diff.aOnlyCount + diff.bOnlyCount := by
      rw [hdiff.aOnlyCount, hdiff.bOnlyCount, NodeState.difference]
    have hround := countRound_unreported (V := V) sk.kind diff n
    rw [peer?, hl, Option.bind_some, ho, Option.elim_some, htotal]
    split at h
    · next hlt =>
      cases h
      have hmeets := recordOverflow_meets (c := c) sk _ now (countRound sk.kind diff n) hlt
      exact ⟨rfl, by rw [hmeets.buffer, hround.buffer],
        fun kind => by rw [hmeets.counters, hround.counters]⟩
    · next hle =>
      cases h
      rw [Sketch.overflow, if_neg hle]
      have hkind : ∀ g ∈ diff.bNewer, g.kind = sk.kind.toGossip :=
        fun _ => kind_of_mem_bNewer (wantB_diffSide c)
      have hreply := sendGossips_unreported out hkind (countRound sk.kind diff n)
      have hrequest := sendInventory_unreported (c := c) out sk.kind.toGossip diff.aNewer
        (sendGossips out sk.kind.toGossip diff.bNewer hkind (countRound sk.kind diff n)).1
      have hall := (hround.append hreply).append hrequest
      exact Unreported.meets ⟨rfl, hall.buffer, hall.counters⟩

theorem handleInventory_unreported {inv : InventoryMsg}
    (h : handleInventory c inv n = some (n', e)) : Unreported n n' e := by
  simp only [handleInventory] at h
  split at h
  · cases h
    exact .refl n
  · simp only [Option.bind_eq_bind, Option.bind_eq_some_iff] at h
    obtain ⟨out, -, h⟩ := h
    cases h
    have hkind : ∀ g ∈ lookupKeys n.state inv.kind inv.keys, g.kind = inv.kind :=
      fun _ => kind_of_mem_lookupKeys
    have hsent := sendGossips_unreported out hkind n
    exact ⟨rfl, hsent.buffer, hsent.counters⟩

end SketchNode

/-- An event that handles no sketch and flushes nothing reports nothing. -/
theorem ModelCfg.fire_unreported {mc : ModelCfg V} {peerState : V → NodeState} {ev : Ev}
    (h : mc.fire peerState ev now n = some (n', e)) (hs : ev.sketch? = none)
    (hf : ev.isFlush = false) : Unreported n n' e := by
  cases ev with
  | flushSummary => cases hf
  | handleSketch sk => cases hs
  | originate msg =>
    cases mc with
    | sketch c =>
      obtain ⟨⟨n₀, r⟩, hst, h⟩ := Option.bind_eq_some_iff.1 h
      have hstamp := stampOriginated_unreported (V := V) hst
      cases r with
      | none => cases h; exact ⟨rfl, hstamp.buffer, hstamp.counters⟩
      | some m =>
        dsimp only at h
        split at h <;> cases h
        · exact hstamp.addBytesOutGossip _ rfl
        · exact ⟨rfl, hstamp.buffer, hstamp.counters⟩
    | _ =>
      obtain ⟨⟨n₀, r⟩, hst, h⟩ := Option.bind_eq_some_iff.1 h
      have hstamp := stampOriginated_unreported (V := V) hst
      cases r <;> cases h
      · exact ⟨rfl, hstamp.buffer, hstamp.counters⟩
      · first
        | exact hstamp.addBytesOutGossip _ rfl
        | exact ⟨rfl, hstamp.buffer, hstamp.counters⟩
  | doSend msg =>
    cases mc with
    | flooding c => cases h; exact (Unreported.refl n).addBytesOutGossip _ rfl
    | _ => cases h
  | tick =>
    have hempty : Unreported n { n with pending := [] } ({} : Effects V) := ⟨rfl, rfl, rfl⟩
    cases mc with
    | cln c =>
      simp only [fire, ClnNode.tick] at h
      split at h <;> cases h
      · exact .refl n
      · exact hempty.addBytesOutGossip _ rfl
    | lnd c =>
      rcases LndNode.tick_cut h with ⟨-, rfl, rfl⟩ | ⟨-, sub, first, rest, -, -, -, rfl, rfl⟩
      · exact .refl _
      · exact hempty.addBytesOutGossip _ rfl
    | _ => cases h
  | sendBatch b =>
    cases mc with
    | lnd c => cases h; exact (Unreported.refl n).addBytesOutGossip _ rfl
    | _ => cases h
  | tickForPeer i =>
    cases mc with
    | sketch c => exact SketchNode.tickForPeer_unreported h
    | _ => cases h
  | handleInventory inv =>
    cases mc with
    | sketch c => exact SketchNode.handleInventory_unreported h
    | _ => cases h

end Fire

end Handlers

/-! ## Snapshots -/

/-- The overflows at one node. -/
def overflowsOf (idx : NodeIdx) (os : List OverflowEvent) : List OverflowEvent :=
  os.filter fun o => o.receiverIdx = idx

theorem overflowsOf_append (idx : NodeIdx) (os os' : List OverflowEvent) :
    overflowsOf idx (os ++ os') = overflowsOf idx os ++ overflowsOf idx os' :=
  List.filter_append ..

theorem overflowsOf_eq_self {idx : NodeIdx} {os : List OverflowEvent}
    (h : ∀ o ∈ os, o.receiverIdx = idx) : overflowsOf idx os = os :=
  List.filter_eq_self.2 fun o ho => decide_eq_true (h o ho)

theorem overflowsOf_eq_nil {idx idx' : NodeIdx} {os : List OverflowEvent}
    (h : ∀ o ∈ os, o.receiverIdx = idx') (hne : idx ≠ idx') : overflowsOf idx os = [] :=
  List.filter_eq_nil_iff.2 fun o ho => by simpa [h o ho] using hne.symm

/-- Every snapshot counts the overflows that its node has shipped with it and before it. -/
inductive Consistent : List MetricsEvent → Prop where
  | nil : Consistent []
  | other {evs : List MetricsEvent} {ev : MetricsEvent} : Consistent evs →
      ev.counterRow? = none → ev.drained = [] → Consistent (evs ++ [ev])
  | snapshot {evs : List MetricsEvent} {idx : NodeIdx} {timeNs : Nat} {c : NodeCounters}
      {d : List OverflowEvent} : Consistent evs → (∀ o ∈ d, o.receiverIdx = idx) →
      (∀ kind, c.overflowed kind =
        (overflowsOf idx (drainedOverflows evs) ++ d).countP fun o => o.kind = kind) →
      Consistent (evs ++ [.nodeCountersDelta idx timeNs c d])

theorem Consistent.append {evs evs' : List MetricsEvent} (h : Consistent evs)
    (h' : ∀ ev ∈ evs', ev.counterRow? = none ∧ ev.drained = []) : Consistent (evs ++ evs') := by
  induction evs' generalizing evs with
  | nil => rwa [List.append_nil]
  | cons ev evs' ih =>
    obtain ⟨hc, hd⟩ := h' ev List.mem_cons_self
    rw [List.append_cons]
    exact ih (h.other hc hd) fun x hx => h' x (List.mem_cons_of_mem _ hx)

theorem Consistent.of_prefix {evs pre : List MetricsEvent} (h : Consistent evs)
    (hp : pre <+: evs) : Consistent pre := by
  induction h with
  | nil => rw [List.prefix_nil.1 hp]; exact .nil
  | other h hc hd ih =>
    rcases List.prefix_concat_iff.1 hp with rfl | hp
    · exact h.other hc hd
    · exact ih hp
  | snapshot h hd hc ih =>
    rcases List.prefix_concat_iff.1 hp with rfl | hp
    · exact h.snapshot hd hc
    · exact ih hp

/-- The last row of a node counts all that it has shipped. -/
theorem Consistent.last_row {evs : List MetricsEvent} (h : Consistent evs) (idx : NodeIdx)
    (kind : SketchKind) : ∀ r ∈ ((evs.filterMap MetricsEvent.counterRow?).filter
        fun r => r.nodeIdx = idx).getLast?,
      r.overflowed kind = (overflowsOf idx (drainedOverflows evs)).countP fun o => o.kind = kind := by
  induction h with
  | nil => simp
  | other h hc hd ih =>
    simpa [hc, hd, drainedOverflows] using ih
  | @snapshot evs idx' timeNs c d h hd hc ih =>
    have hrow : (evs ++ [MetricsEvent.nodeCountersDelta idx' timeNs c d]).filterMap
        MetricsEvent.counterRow? = evs.filterMap MetricsEvent.counterRow? ++
          [.fromCounters idx' timeNs c] := by
      rw [List.filterMap_append]
      rfl
    have hdrain : drainedOverflows (evs ++ [.nodeCountersDelta idx' timeNs c d]) =
        drainedOverflows evs ++ d := by simp [drainedOverflows, MetricsEvent.drained]
    rw [hrow, hdrain, List.filter_append, overflowsOf_append]
    by_cases hi : idx = idx'
    · subst hi
      intro r hr
      obtain rfl : NodeCountersRow.fromCounters idx timeNs c = r := by
        simpa [NodeCountersRow.fromCounters] using hr
      rw [overflowed_fromCounters, hc, overflowsOf_eq_self hd]
    · rw [overflowsOf_eq_nil hd hi, List.append_nil]
      simpa [NodeCountersRow.fromCounters, Ne.symm hi] using ih

/-! ## The network -/

section Network

variable {V : Type} [DecidableEq V] [MsgHash] {w : Network V} {s s' s₀ s₁ : Net V} {l : Label}
  {ls : List Label} {os met : List OverflowEvent}

/-- The peer that a node finds under an id. -/
def Network.sender (w : Network V) (u : V) (id : NodeId) : Option V :=
  (w.topo.neighbors u).find? fun a => w.topo.id a = id

/-- The overflow that a label meets, if it handles a sketch. -/
def Net.overflowsAt (w : Network V) (s : Net V) (l : Label) : List OverflowEvent :=
  (s.handles l).elim [] fun x => (w.sender x.1 x.2.fromId).elim [] fun a =>
    x.2.overflow (w.topo.idx x.1) s.now ((s.states a).difference (s.states x.1) x.2.kind)

/-- The overflows of a run. -/
def overflowsAlong (w : Network V) (s : Net V) (ls : List Label) : List OverflowEvent :=
  collect (step w) (Net.overflowsAt w) s ls

omit [DecidableEq V] [MsgHash] in
theorem Network.peer?_eq_sender {u : V} {c : SketchCfg V} (hu : w.model u = .sketch c)
    (id : NodeId) : SketchNode.peer? c id = w.sender u id := by
  have hp : c.peers = .wire w.topo.id (w.topo.neighbors u) := by
    rw [← w.peers_eq u, hu]
    rfl
  unfold SketchNode.peer? Network.sender
  rw [hp]
  cases hl : (Peers.wire w.topo.id (w.topo.neighbors u)).peerIdToLocal.lookup id with
  | none =>
    refine (List.find?_eq_none.2 fun a ha => ?_).symm
    rw [decide_eq_true_eq]
    rintro rfl
    have hknown := Peers.known (.wire w.topo.id (w.topo.neighbors u)) (w.topo.id a)
      (by rw [Peers.peerIds_wire]; exact List.mem_map_of_mem ha)
    rw [hl] at hknown
    cases hknown
  | some loc =>
    obtain ⟨a, ha, rfl⟩ := Peers.output_of_local hl
    rw [Option.bind_some, ha]
    rw [Peers.outputs_wire] at ha
    have hmem := List.mem_of_getElem? ha
    have hfind : ((w.topo.neighbors u).find? fun b => w.topo.id b = w.topo.id a).isSome :=
      List.find?_isSome.2 ⟨a, hmem, by simp⟩
    obtain ⟨b, hb⟩ := Option.isSome_iff_exists.1 hfind
    have hid : w.topo.id b = w.topo.id a := by simpa using List.find?_some hb
    rw [hb, w.topo.id_inj b a hid]

/-- What the nodes hold and have shipped, beside the overflows so far. -/
structure Logged (w : Network V) (s : Net V) (os : List OverflowEvent) : Prop where
  own : ∀ u, ∀ o ∈ (s.node u).metricsLocal.overflowEvents, o.receiverIdx = w.topo.idx u
  kept : ∀ u, overflowsOf (w.topo.idx u) (drainedOverflows s.metrics) ++
    (s.node u).metricsLocal.overflowEvents = overflowsOf (w.topo.idx u) os
  counted : ∀ u kind, (s.node u).metricsLocal.overflowed kind =
    (overflowsOf (w.topo.idx u) os).countP fun o => o.kind = kind
  snapshots : Consistent s.metrics
  located : ∀ o ∈ os, ∃ u, o.receiverIdx = w.topo.idx u

omit [MsgHash] in
theorem Logged.meets (h : Logged w s os) {u : V} {n : Node} {e : Effects V}
    (hm : Meets met (s.node u) n e) (hmet : ∀ o ∈ met, o.receiverIdx = w.topo.idx u)
    (hn : s₁.node = s.node) (he : s₁.metrics = s.metrics) :
    Logged w (s₁.commit u n e) (os ++ met) := by
  have hmetrics : (s₁.commit u n e).metrics = s.metrics := by
    simp [Net.commit, hm.events, he]
  have hother : ∀ v, v ≠ u → overflowsOf (w.topo.idx v) (os ++ met) =
      overflowsOf (w.topo.idx v) os := fun v hv => by
    rw [overflowsOf_append, overflowsOf_eq_nil hmet fun hi => hv (w.topo.idx_inj v u hi),
      List.append_nil]
  have hself : overflowsOf (w.topo.idx u) (os ++ met) = overflowsOf (w.topo.idx u) os ++ met := by
    rw [overflowsOf_append, overflowsOf_eq_self hmet]
  refine ⟨fun v o ho => ?_, fun v => ?_, fun v kind => ?_, hmetrics ▸ h.snapshots, fun o ho => ?_⟩
  · rw [Net.node_commit, hn] at ho
    split at ho
    · next hv =>
      subst hv
      rw [hm.buffer] at ho
      exact (List.mem_append.1 ho).elim (h.own v o) (hmet o)
    · exact h.own v o ho
  · rw [Net.node_commit, hn, hmetrics]
    split
    · next hv =>
      subst hv
      rw [hm.buffer, ← List.append_assoc, h.kept, hself]
    · next hv => rw [h.kept, hother v hv]
  · rw [Net.node_commit, hn]
    split
    · next hv =>
      subst hv
      rw [hm.counters, h.counted, hself, List.countP_append]
    · next hv => rw [h.counted, hother v hv]
  · exact (List.mem_append.1 ho).elim (h.located o) fun ho => ⟨u, hmet o ho⟩

omit [MsgHash] in
theorem Logged.drains (h : Logged w s os) {u : V} {n : Node} {e : Effects V}
    (hd : Drains (w.model u).base s.now (s.node u) n e)
    (hn : s₁.node = s.node) (he : s₁.metrics = s.metrics) :
    Logged w (s₁.commit u n e) os := by
  obtain ⟨⟨before, after, hev, hquiet⟩, hbuf, hcount⟩ := hd
  rw [w.idx_eq] at hev
  have hnil : ∀ evs : List MetricsEvent, (∀ ev ∈ evs, ev ∈ before ++ after) →
      drainedOverflows evs = [] := fun evs hsub =>
    List.flatMap_eq_nil_iff.2 fun ev hmem => (hquiet ev (hsub ev hmem)).2
  have hbefore := hnil before fun _ => List.mem_append_left _
  have hafter := hnil after fun _ => List.mem_append_right _
  have hmetrics : (s₁.commit u n e).metrics = s.metrics ++ e.events := by simp [Net.commit, he]
  have hdrain : drainedOverflows (s.metrics ++ e.events) =
      drainedOverflows s.metrics ++ (s.node u).metricsLocal.overflowEvents := by
    have hcons : drainedOverflows (.nodeCountersDelta (w.topo.idx u) (nsSinceEpoch s.now)
        (s.node u).metricsLocal.snapshotCounters (s.node u).metricsLocal.overflowEvents :: after) =
          (s.node u).metricsLocal.overflowEvents ++ drainedOverflows after := List.flatMap_cons
    rw [hev, drainedOverflows_append, drainedOverflows_append, hbefore, hcons, hafter,
      List.nil_append, List.append_nil]
  refine ⟨fun v o ho => ?_, fun v => ?_, fun v kind => ?_, ?_, h.located⟩
  · rw [Net.node_commit, hn] at ho
    split at ho
    · rw [hbuf] at ho
      cases ho
    · exact h.own v o ho
  · rw [Net.node_commit, hn, hmetrics, hdrain, overflowsOf_append]
    split
    · next hv =>
      subst hv
      rw [hbuf, List.append_nil, overflowsOf_eq_self (h.own v), h.kept]
    · next hv =>
      rw [overflowsOf_eq_nil (h.own u) fun hi => hv (w.topo.idx_inj v u hi), List.append_nil,
        h.kept]
  · rw [Net.node_commit, hn]
    split
    · next hv =>
      subst hv
      rw [hcount, h.counted]
    · exact h.counted v kind
  · rw [hmetrics, hev, ← List.append_assoc, List.append_cons]
    have hb := h.snapshots.append fun ev hmem => hquiet ev (List.mem_append_left _ hmem)
    refine (hb.snapshot (h.own u) fun kind => ?_).append
      fun ev hmem => hquiet ev (List.mem_append_right _ hmem)
    rw [overflowed_snapshotCounters, h.counted, drainedOverflows_append, hbefore,
      List.append_nil, h.kept]

omit [DecidableEq V] [MsgHash] in
theorem overflowsAt_of_quiet {i : Nat} {q : Sched V} (hq : s.queue[i]? = some q)
    (hev : q.ev.sketch? = none) : s.overflowsAt w (.fire i) = [] := by
  obtain ⟨t, u, ev, p⟩ := q
  cases ev with
  | handleSketch sk => cases hev
  | _ => simp [Net.overflowsAt, Net.handles, hq]

omit [DecidableEq V] in
/-- Handling a sketch meets the overflow of its label. -/
theorem fire_meets {i : Nat} {q : Sched V} {sk : Sketch} {n : Node} {e : Effects V}
    (hq : s.queue[i]? = some q) (hev : q.ev = .handleSketch sk)
    (hr : (w.model q.node).fire s.states q.ev s.now (s.node q.node) = some (n, e)) :
    Meets (s.overflowsAt w (.fire i)) (s.node q.node) n e ∧
      ∀ o ∈ s.overflowsAt w (.fire i), o.receiverIdx = w.topo.idx q.node := by
  rw [Net.overflowsAt, handles_fire hq hev, Option.elim_some]
  constructor
  · rw [hev] at hr
    cases hmc : w.model q.node with
    | sketch c =>
      rw [hmc] at hr
      have hidx : c.idx = w.topo.idx q.node := by
        rw [← w.idx_eq, hmc]
        rfl
      rw [← hidx, ← w.peer?_eq_sender hmc]
      exact SketchNode.handleSketch_meets hr
    | _ =>
      rw [hmc] at hr
      cases hr
  · intro o ho
    cases hs : w.sender q.node sk.fromId with
    | none => simp [hs] at ho
    | some a =>
      rw [hs, Option.elim_some] at ho
      exact Sketch.of_mem_overflow ho

theorem Logged.step (h : Logged w s os) (hs : step w s l = some s') :
    Logged w s' (os ++ s.overflowsAt w l) := by
  cases moves_of_step hs with
  | @advance t hle =>
    have hnil : s.overflowsAt w (.advance t) = [] := rfl
    rw [hnil, List.append_nil]
    exact ⟨h.own, h.kept, h.counted, h.snapshots, h.located⟩
  | @deliver i p n e hp hr _ =>
    have hnil : s.overflowsAt w (.deliver i) = [] := rfl
    rw [hnil]
    exact h.meets (ModelCfg.recv_unreported hr).meets (by simp) rfl rfl
  | @fire i q n e hq hr _ =>
    cases hsk : q.ev.sketch? with
    | some sk =>
      have hev : q.ev = .handleSketch sk := by
        cases hev : q.ev <;> simp [hev, Ev.sketch?] at hsk
        rw [hsk]
      obtain ⟨hm, hmet⟩ := fire_meets hq hev hr
      exact h.meets hm hmet rfl rfl
    | none =>
      rw [overflowsAt_of_quiet hq hsk]
      cases hf : q.ev.isFlush with
      | true =>
        have hev : q.ev = .flushSummary := by
          cases hev : q.ev <;> simp [hev, Ev.isFlush] at hf ⊢
        rw [hev] at hr
        rw [List.append_nil]
        exact h.drains (ModelCfg.fire_drains hr) rfl rfl
      | false => exact h.meets (ModelCfg.fire_unreported hr hsk hf).meets (by simp) rfl rfl

omit [DecidableEq V] [MsgHash] in
theorem logged_init {events : List (Nat × V × Gossip)} (h : init w events = some s) :
    Logged w s [] := by
  have hinit : ∀ mc : ModelCfg V, mc.initial.metricsLocal.overflowEvents = [] ∧
      ∀ kind, mc.initial.metricsLocal.overflowed kind = 0 := by
    intro mc
    cases mc <;> exact ⟨rfl, fun kind => by cases kind <;> rfl⟩
  rw [init_eq h]
  refine ⟨fun u o ho => ?_, fun u => ?_, fun u => (hinit _).2, .nil, by simp⟩
  · rw [(hinit _).1] at ho
    cases ho
  · exact (hinit _).1

theorem logged {events : List (Nat × V × Gossip)} (h₀ : init w events = some s₀)
    (h : run (step w) s₀ ls = some s) : Logged w s (overflowsAlong w s₀ ls) :=
  (steps_of_run h).collect_invariant (logged_init h₀) fun _ _ _ _ hl _ hs => hl.step hs

/-! ## The tables -/

omit [DecidableEq V] in
/-- A label that meets no overflow does not overflow. -/
theorem overflows_eq_false (h : s.overflowsAt w l = []) : w.overflows s l = false := by
  unfold Network.overflows
  unfold Net.overflowsAt at h
  cases hl : s.handles l with
  | none => rfl
  | some x =>
    obtain ⟨u, sk⟩ := x
    rw [hl, Option.elim_some] at h
    rw [Option.any_some]
    cases hu : w.model u with
    | sketch c =>
      dsimp only at h ⊢
      rw [← w.peer?_eq_sender hu, SketchNode.peer?] at h
      unfold SketchNode.overflows
      cases hloc : c.peers.peerIdToLocal.lookup sk.fromId with
      | none => rfl
      | some loc =>
        rw [hloc, Option.bind_some] at h
        rw [Option.any_some]
        cases hout : c.peers.outputs[loc]? with
        | none => rfl
        | some out =>
          rw [hout, Option.elim_some] at h
          have hdiff : IsDiff (s.states out) (s.node u).state sk.kind (SketchNode.diffSide c) _ :=
            isDiff_computeDiff ..
          rw [Option.any_some, decide_eq_false_iff_not, hdiff.aOnlyCount, hdiff.bOnlyCount]
          intro hlt
          change sk.capacity < (s.states out).difference (s.states u) sk.kind at hlt
          rw [Sketch.overflow, if_pos hlt] at h
          cases h
    | _ => rfl

theorem steps_of_no_overflow (h : run (step w) s₀ ls = some s) (hn : overflowsAlong w s₀ ls = []) :
    Steps (step w) (fun s l => w.overflows s l = false) s₀ ls s :=
  ((steps_of_run h).of_collect (List.Subset.refl _)).imp fun _ _ ho =>
    overflows_eq_false (List.subset_nil.1 (hn ▸ ho.2))

omit [DecidableEq V] [MsgHash] in
theorem filter_fromEvent (idx : NodeIdx) (os : List OverflowEvent) :
    (os.map OverflowEventRow.fromEvent).filter (fun r => r.receiverIdx = idx) =
      (overflowsOf idx os).map .fromEvent := by
  rw [List.filter_map]
  rfl

omit [DecidableEq V] [MsgHash] in
theorem countP_fromEvent (idx : NodeIdx) (kind : SketchKind) (os : List OverflowEvent) :
    (os.map OverflowEventRow.fromEvent).countP
        (fun r => r.receiverIdx = idx ∧ r.kind = kind.asU8) =
      (overflowsOf idx os).countP fun o => o.kind = kind := by
  rw [List.countP_map, overflowsOf, List.countP_filter]
  refine List.countP_congr fun o _ => ?_
  simp only [Function.comp, OverflowEventRow.fromEvent, SketchKind.asU8_injective.eq_iff,
    decide_eq_true_eq, Bool.and_eq_true]
  exact and_comm

/-- Every state of the aggregator thread on the events of a run: the overflow rows of a node
are overflows that it met, in order, and its last counters row counts just these. Once all
is shipped they are all the overflows of the run, so that an empty table tells that no
sketch overflowed. -/
structure OverflowsReported {P : Type} {n : Nat} (w : Network V) (s₀ : Net V) (ls : List Label)
    (s : Net V) (evs : List MetricsEvent) (t : AggregatorThread P n) : Prop where
  listed : ∀ u, (t.overflowEvents.filter fun r => r.receiverIdx = w.topo.idx u) <+:
    (overflowsOf (w.topo.idx u) (overflowsAlong w s₀ ls)).map .fromEvent
  counted : ∀ u kind, ∀ r ∈ (t.nodeCounters.filter fun r => r.nodeIdx = w.topo.idx u).getLast?,
    r.overflowed kind = t.overflowEvents.countP fun r =>
      r.receiverIdx = w.topo.idx u ∧ r.kind = kind.asU8
  complete : evs = s.metrics → (∀ u, (s.node u).metricsLocal.overflowEvents = []) →
    (∀ u, (t.overflowEvents.filter fun r => r.receiverIdx = w.topo.idx u) =
      (overflowsOf (w.topo.idx u) (overflowsAlong w s₀ ls)).map .fromEvent) ∧
    (t.overflowEvents = [] → Steps (step w) (fun s l => w.overflows s l = false) s₀ ls s)

theorem overflows_reported {P : Type} [PctIndex P] {n : Nat} {ps : List P}
    {t : AggregatorThread P n} {events : List (Nat × V × Gossip)} {evs : List MetricsEvent}
    (h₀ : init w events = some s₀) (h : run (step w) s₀ ls = some s) (hp : evs <+: s.metrics)
    (ht : evs.foldlM AggregatorThread.handle
      { writer := true, state := { percentiles := ps } } = some t) :
    OverflowsReported w s₀ ls s evs t := by
  have hlog := logged h₀ h
  have hadd := AggregatorThread.handleAll_adds rfl ht
  have htable : t.overflowEvents = (drainedOverflows evs).map .fromEvent := hadd.overflowEvents
  have hrows : t.nodeCounters = evs.filterMap MetricsEvent.counterRow? := hadd.nodeCounters
  have hpre : ∀ u, overflowsOf (w.topo.idx u) (drainedOverflows evs) <+:
      overflowsOf (w.topo.idx u) (overflowsAlong w s₀ ls) := by
    intro u
    obtain ⟨rest, hrest⟩ := hp
    rw [← hlog.kept u, ← hrest, drainedOverflows_append, overflowsOf_append, List.append_assoc]
    exact List.prefix_append _ _
  refine ⟨fun u => ?_, fun u kind r hr => ?_, fun hall hempty => ?_⟩
  · rw [htable, filter_fromEvent]
    exact (hpre u).map _
  · rw [htable, countP_fromEvent]
    rw [hrows] at hr
    exact (hlog.snapshots.of_prefix hp).last_row _ _ r hr
  · subst hall
    have hkept : ∀ u, overflowsOf (w.topo.idx u) (drainedOverflows s.metrics) =
        overflowsOf (w.topo.idx u) (overflowsAlong w s₀ ls) := fun u => by
      rw [← hlog.kept u, hempty u, List.append_nil]
    refine ⟨fun u => by rw [htable, filter_fromEvent, hkept], fun hnil => ?_⟩
    refine steps_of_no_overflow h (List.eq_nil_iff_forall_not_mem.2 fun o ho => ?_)
    obtain ⟨u, hu⟩ := hlog.located o ho
    have hmem : o ∈ overflowsOf (w.topo.idx u) (overflowsAlong w s₀ ls) :=
      List.mem_filter.2 ⟨ho, decide_eq_true hu⟩
    rw [← hkept u, List.map_eq_nil_iff.1 (htable.symm.trans hnil)] at hmem
    cases hmem

end Network

/-! ## A sketch without room -/

section Samples

local instance overflowsHash : MsgHash := ⟨List.sum⟩

/-- Node 1 handles a sketch that has no room for the update of node 0, and flushes. -/
def overflowRun : List Label :=
  [.advance (10 ^ 9), .fire 4, .fire 0, .deliver 0, .deliver 0, .deliver 0,
    .advance (10 ^ 9 + 10 ^ 6), .fire 4, .advance (10 ^ 10), .fire 2]

theorem overflows_reported_pair : ∃ s₀ s, ∃ t : AggregatorThread Percent 2,
    init (sketchPair 0) oneUpdate = some s₀ ∧ run (step (sketchPair 0)) s₀ overflowRun = some s ∧
    s.metrics.foldlM AggregatorThread.handle
      { writer := true, state := { percentiles := [⟨50⟩] } } = some t ∧
    t.overflowEvents.map OverflowEventRow.totalDiff = [1] ∧
    OverflowsReported (sketchPair 0) s₀ overflowRun s s.metrics t := by
  have hrun : ((init (sketchPair 0) oneUpdate).bind fun s =>
      run (step (sketchPair 0)) s overflowRun).any (fun s =>
        (s.metrics.foldlM AggregatorThread.handle
          ({ writer := true, state := { percentiles := [⟨50⟩] } } :
            AggregatorThread Percent 2)).any fun t =>
              decide (t.overflowEvents.map OverflowEventRow.totalDiff = [1])) = true := by
    decide +kernel
  obtain ⟨s, hs, ht⟩ := (Option.any_eq_true _ _).1 hrun
  obtain ⟨s₀, h₀, hs⟩ := Option.bind_eq_some_iff.1 hs
  obtain ⟨t, ht, hrows⟩ := (Option.any_eq_true _ _).1 ht
  exact ⟨s₀, s, t, h₀, hs, ht, of_decide_eq_true hrows,
    overflows_reported h₀ hs (List.prefix_refl _) ht⟩

end Samples

end LnConv
