import LnConv.Lib.Ledger
import LnConv.Net

/-!
# Bandwidth accounting

For each traffic class the bytes counted out, the bytes counted in and the bytes
in flight form a ledger. It stays balanced as long as no sketch or inventory
reaches a node that does not speak the protocol, which counts it as gossip, and
no sketch is too large for its 16-bit size (`Fair`).
-/

namespace LnConv

inductive Traffic where
  | gossip
  | sketch
  | inventory
  deriving DecidableEq, Repr

namespace WireMessage

def traffic : WireMessage → Traffic
  | single _ | batch _ => .gossip
  | sketch _ => .sketch
  | inventory _ => .inventory

/-- What a message weighs on the wire. -/
def weight : WireMessage → Nat
  | single g => g.sizeBytes
  | batch b => sizeSum b.gossips
  | sketch s => 8 * s.capacity
  | inventory i => 16 + 8 * i.keys.length

/-- The weight of a message in its own class. -/
def load (cls : Traffic) (wire : WireMessage) : Nat := if wire.traffic = cls then wire.weight else 0

/-- The size a sketch carries is its weight. -/
def Exact : WireMessage → Prop
  | sketch s => s.sizeBytes = 8 * s.capacity
  | _ => True

theorem Exact.wireSize_eq {wire : WireMessage} (h : wire.Exact) : wire.wireSize = wire.weight := by
  cases wire with
  | single g => rfl
  | batch b => exact b.wireSize_gossips
  | sketch s => exact h
  | inventory i => exact i.sizeBytes_eq

end WireMessage

namespace PerNodeMetrics

def bytesIn (m : PerNodeMetrics) : Traffic → Nat
  | .gossip => m.bytesInGossip
  | .sketch => m.bytesInSketch
  | .inventory => m.bytesInInventory

def bytesOut (m : PerNodeMetrics) : Traffic → Nat
  | .gossip => m.bytesOutGossip
  | .sketch => m.bytesOutSketch
  | .inventory => m.bytesOutInventory

end PerNodeMetrics

variable {V : Type}

/-- The bytes of a class in a list of sends. -/
def sendsLoad (cls : Traffic) (sends : List (V × WireMessage)) : Nat :=
  (sends.map fun x => x.2.load cls).sum

@[simp] theorem sendsLoad_nil (cls : Traffic) : sendsLoad cls ([] : List (V × WireMessage)) = 0 := rfl

@[simp] theorem sendsLoad_cons (cls : Traffic) (x : V × WireMessage) (xs : List (V × WireMessage)) :
    sendsLoad cls (x :: xs) = x.2.load cls + sendsLoad cls xs := rfl

@[simp] theorem sendsLoad_append (cls : Traffic) (xs ys : List (V × WireMessage)) :
    sendsLoad cls (xs ++ ys) = sendsLoad cls xs + sendsLoad cls ys := by
  simp [sendsLoad]

/-- A node that books what it sends, and what it received as `inp`. -/
structure Accounts (inp : Traffic → Nat) (sends : List (V × WireMessage)) (n n' : Node) : Prop where
  out : ∀ cls, n'.metricsLocal.bytesOut cls = n.metricsLocal.bytesOut cls + sendsLoad cls sends
  received : ∀ cls, n'.metricsLocal.bytesIn cls = n.metricsLocal.bytesIn cls + inp cls
  exact : ∀ x ∈ sends, x.2.Exact

abbrev Books (sends : List (V × WireMessage)) (n n' : Node) : Prop :=
  Accounts (fun _ => 0) sends n n'

theorem Books.append {xs ys : List (V × WireMessage)} {n n' n'' : Node} (h : Books xs n n')
    (h' : Books ys n' n'') : Books (xs ++ ys) n n'' where
  out cls := by rw [h'.out, h.out, sendsLoad_append, Nat.add_assoc]
  received cls := by rw [h'.received, h.received]
  exact x hx := (List.mem_append.1 hx).elim (h.exact x) (h'.exact x)

/-- The counters of the two nodes are the same. -/
theorem Books.of_eq {n n' : Node}
    (ho : ∀ cls, n'.metricsLocal.bytesOut cls = n.metricsLocal.bytesOut cls)
    (hi : ∀ cls, n'.metricsLocal.bytesIn cls = n.metricsLocal.bytesIn cls) :
    Books ([] : List (V × WireMessage)) n n' :=
  ⟨fun cls => by simp [ho], fun cls => by simp [hi], by simp⟩

/-! ## Receiving -/

section Recv

variable {n n' n₀ : Node} {e : Effects V} {now : Nat}

theorem Absorbs.accounts {f : Forward} {gs : List Gossip} (h : Absorbs f gs now n₀ n' e)
    {inp : Traffic → Nat}
    (ho : ∀ cls, n₀.metricsLocal.bytesOut cls = n.metricsLocal.bytesOut cls)
    (hi : ∀ cls, n₀.metricsLocal.bytesIn cls = n.metricsLocal.bytesIn cls + inp cls) :
    Accounts inp e.sends n n' := by
  obtain ⟨fresh, dups, a, -⟩ := h
  refine ⟨fun cls => ?_, fun cls => ?_, by simp [a.sends]⟩
  · rw [a.metrics, a.sends, sendsLoad_nil, Nat.add_zero, ← ho]
    cases cls <;> rfl
  · rw [a.metrics, ← hi]
    cases cls <;> rfl

/-- A receiver books a message in its class if it is gossip or the receiver speaks
the sketch protocol; a weightless message does no harm. -/
theorem recv_accounts {mc : ModelCfg V} {wire : WireMessage}
    (h : mc.recv wire now n = some (n', e)) (hx : wire.Exact)
    (hok : wire.traffic = .gossip ∨ mc.isSketch = true ∨ wire.weight = 0) :
    Accounts (fun cls => wire.load cls) e.sends n n' := by
  refine (ModelCfg.recv_absorbs h).accounts (fun cls => ?_) fun cls => ?_
  · cases mc <;> cases wire <;> cases cls <;> rfl
  have hsize := hx.wireSize_eq
  have hplain : ∀ f : wire.traffic = .gossip ∨ wire.weight = 0,
      (n.addBytesInGossip wire.wireSize).metricsLocal.bytesIn cls =
        n.metricsLocal.bytesIn cls + wire.load cls := by
    rintro (hg | hz) <;> cases cls <;>
      simp [PerNodeMetrics.bytesIn, Node.addBytesInGossip, WireMessage.load, *]
  cases mc with
  | sketch c =>
    cases wire <;> cases cls <;>
      simp [ModelCfg.countIn, SketchNode.countIn, PerNodeMetrics.bytesIn, Node.addBytesInGossip,
        WireMessage.load, WireMessage.traffic, hsize]
  | _ => exact hplain (hok.imp id fun h => h.resolve_left (by simp [ModelCfg.isSketch]))

end Recv

/-! ## Sending -/

section Send

variable {n n' n₀ : Node} {e : Effects V} {now : Nat}

/-- Counting gossip bytes and sending gossip messages of that size. -/
theorem books_gossip {sends : List (V × WireMessage)} {bytes : Nat}
    (ht : ∀ x ∈ sends, x.2.traffic = .gossip) (hb : (sends.map fun x => x.2.weight).sum = bytes) :
    Books sends n (n.addBytesOutGossip bytes) := by
  have hload : ∀ cls, sendsLoad cls sends = if cls = .gossip then bytes else 0 := by
    intro cls
    have : (sends.map fun x => x.2.load cls) =
        sends.map fun x => if cls = .gossip then x.2.weight else 0 :=
      List.map_congr_left fun x hx => by simp [WireMessage.load, ht x hx, eq_comm]
    rw [sendsLoad, this]
    split <;> simp [hb]
  refine ⟨fun cls => ?_, fun cls => by cases cls <;> rfl, fun x hx => ?_⟩
  · rw [hload]
    cases cls <;> simp [PerNodeMetrics.bytesOut, Node.addBytesOutGossip]
  · have := ht x hx
    unfold WireMessage.Exact
    split <;> simp_all [WireMessage.traffic]

theorem books_broadcast {c : NodeCfg V} {wire : WireMessage} (ht : wire.traffic = .gossip)
    {size : Nat} (hs : wire.weight = size) :
    Books (c.broadcast wire) n (n.addBytesOutGossip (size * c.peers.outputs.length)) := by
  refine books_gossip (fun x hx => ?_) ?_
  · obtain ⟨v, -, rfl⟩ := List.mem_map.1 hx
    exact ht
  · simp [NodeCfg.broadcast, Function.comp_def, hs, Nat.mul_comm]

theorem books_stampOriginated [MsgHash] {c : NodeCfg V} {msg : Gossip} {r : Option Gossip}
    (h : n.stampOriginated c msg now = some (n₀, r)) : Books ([] : List (V × WireMessage)) n n₀ := by
  obtain ⟨m, b, -, -, -, ⟨-, -, hm⟩ | ⟨-, -, hm⟩⟩ := stampOriginated_spec h
  · exact .of_eq (fun cls => by rw [hm]; cases cls <;> rfl) fun cls => by rw [hm]; cases cls <;> rfl
  · exact .of_eq (fun cls => by rw [hm]) fun cls => by rw [hm]

theorem books_drain (c : NodeCfg V) (now : Nat) :
    Books ([] : List (V × WireMessage)) n (n.drain c now).1 :=
  .of_eq (fun cls => by cases cls <;> rfl) fun cls => by cases cls <;> rfl

namespace SketchNode

variable {c : SketchCfg V}

theorem books_sendSketch {loc : Nat} {kind : SketchKind} {cap : Nat} (hl : loc < c.peers.outputs.length)
    (hc : cap < 8192) (h : sendSketch c loc kind cap n = some (n', e)) : Books e.sends n n' := by
  have hmod : cap * 8 % 65536 = 8 * cap := by omega
  cases h
  rw [List.getElem?_eq_getElem hl]
  refine ⟨fun cls => ?_, fun cls => by cases cls <;> rfl, by simp [WireMessage.Exact, hmod]⟩
  cases cls <;> simp [PerNodeMetrics.bytesOut, WireMessage.load, WireMessage.traffic,
    WireMessage.weight, hmod]

theorem books_tickForPeer {loc : Nat} (hl : loc < c.peers.outputs.length)
    (hcu : c.capChanUpdates < 8192) (hna : c.capNodeAnns < 8192) (hca : c.capChanAnns < 8192)
    (h : tickForPeer c loc n = some (n', e)) : Books e.sends n n' := by
  obtain ⟨n₁, e₁, e', h₁, h', rfl⟩ := Handler.seq_eq_some h
  obtain ⟨n₂, e₂, e₃, h₂, h₃, rfl⟩ := Handler.seq_eq_some h'
  exact (books_sendSketch hl hcu h₁).append ((books_sendSketch hl hna h₂).append
    (books_sendSketch hl hca h₃))

theorem books_sendGossips {out : V} {kind : GossipKind} {gs : List Gossip}
    {hg : ∀ g ∈ gs, g.kind = kind} :
    Books (sendGossips out kind gs hg n).2 n (sendGossips out kind gs hg n).1 := by
  unfold sendGossips
  split
  · exact .of_eq (fun _ => rfl) fun _ => rfl
  · exact books_gossip (by simp [WireMessage.traffic]) (by simp [WireMessage.weight])

theorem books_sendInventory {out : V} {kind : GossipKind} {gs : List Gossip} :
    Books (sendInventory c out kind gs n).2 n (sendInventory c out kind gs n).1 := by
  unfold sendInventory
  split
  · refine ⟨fun cls => ?_, fun cls => by cases cls <;> rfl, by simp [WireMessage.Exact]⟩
    cases cls <;> simp [PerNodeMetrics.bytesOut, WireMessage.load, WireMessage.traffic,
      WireMessage.weight, InventoryMsg.new, INVENTORY_HEADER_BYTES]
  · exact .of_eq (fun _ => rfl) fun _ => rfl

theorem books_countRound {kind : SketchKind} {diff : DiffResult} :
    Books ([] : List (V × WireMessage)) n (countRound kind diff n) :=
  .of_eq (fun cls => by cases kind <;> cases cls <;> rfl) fun cls => by
    cases kind <;> cases cls <;> rfl

theorem books_recordOverflow {sketch : Sketch} {total : Nat} :
    Books ([] : List (V × WireMessage)) n (recordOverflow c sketch total now n) := by
  have hk : ∀ (k : SketchKind) (m : PerNodeMetrics) cls,
      (countOverflow k m).bytesOut cls = m.bytesOut cls ∧
        (countOverflow k m).bytesIn cls = m.bytesIn cls := by
    intro k m cls
    cases k <;> cases cls <;> exact ⟨rfl, rfl⟩
  refine .of_eq (fun cls => ?_) fun cls => ?_
  · rw [← (hk sketch.kind n.metricsLocal cls).1]; cases cls <;> rfl
  · rw [← (hk sketch.kind n.metricsLocal cls).2]; cases cls <;> rfl

variable [MsgHash]

theorem books_handleSketch {peerState : V → NodeState} {sk : Sketch}
    (h : handleSketch c peerState sk now n = some (n', e)) : Books e.sends n n' := by
  simp only [handleSketch] at h
  split at h
  · cases h; exact .of_eq (fun _ => rfl) fun _ => rfl
  · simp only [Option.bind_eq_bind, Option.bind_eq_some_iff] at h
    obtain ⟨out, -, h⟩ := h
    split at h
    · cases h
      exact books_countRound.append books_recordOverflow
    · cases h
      exact books_countRound.append (books_sendGossips.append books_sendInventory)

theorem books_handleInventory {inv : InventoryMsg} (h : handleInventory c inv n = some (n', e)) :
    Books e.sends n n' := by
  simp only [handleInventory] at h
  split at h
  · cases h; exact .of_eq (fun _ => rfl) fun _ => rfl
  · simp only [Option.bind_eq_bind, Option.bind_eq_some_iff] at h
    obtain ⟨out, -, h⟩ := h
    cases h
    exact books_sendGossips

end SketchNode

theorem weight_fromMixed (gs : List Gossip) :
    (WireMessage.batch (.fromMixed gs)).weight = sizeSum gs :=
  (GossipBatch.wireSize_gossips _).symm.trans (GossipBatch.wireSize_fromMixed gs)

theorem books_clearPending (n : Node) :
    Books ([] : List (V × WireMessage)) n { n with pending := [] } :=
  .of_eq (fun _ => rfl) fun _ => rfl

theorem books_lndTick {c : LndCfg V} (h : LndNode.tick c n = some (n', e)) : Books e.sends n n' := by
  simp only [LndNode.tick] at h
  split at h
  · cases h; exact .of_eq (fun _ => rfl) fun _ => rfl
  simp only [Option.bind_eq_bind, Option.bind_eq_some_iff] at h
  obtain ⟨sub, -, h⟩ := h
  split at h
  · cases h; exact books_clearPending n
  · next first rest _ =>
    cases h
    exact (books_clearPending n).append (books_broadcast rfl first.wireSize_gossips.symm)

variable [MsgHash]

/-- Every scheduled handler books what it sends, if a ticker that fires sends
sketches of representable size to an existing peer. -/
theorem fire_books {mc : ModelCfg V} {peerState : V → NodeState} {ev : Ev}
    (h : mc.fire peerState ev now n = some (n', e))
    (hok : ∀ c i, mc = .sketch c → ev = .tickForPeer i → i < c.peers.outputs.length ∧
      c.capChanUpdates < 8192 ∧ c.capNodeAnns < 8192 ∧ c.capChanAnns < 8192) :
    Books e.sends n n' := by
  cases mc with
  | flooding c =>
    cases ev with
    | originate msg =>
      simp only [ModelCfg.fire, FloodingNode.originate, Option.bind_eq_bind,
        Option.bind_eq_some_iff] at h
      obtain ⟨⟨n₀, r⟩, hst, h⟩ := h
      cases r <;> cases h
      · exact books_stampOriginated hst
      · exact (books_stampOriginated hst).append (books_broadcast rfl rfl)
    | doSend msg => cases h; exact books_broadcast rfl rfl
    | flushSummary => cases h; exact books_drain c.toNodeCfg now
    | _ => cases h
  | cln c =>
    cases ev with
    | originate msg =>
      simp only [ModelCfg.fire, ClnNode.originate, Option.bind_eq_bind,
        Option.bind_eq_some_iff] at h
      obtain ⟨⟨n₀, r⟩, hst, h⟩ := h
      cases r <;> cases h
      · exact books_stampOriginated hst
      · exact (books_stampOriginated hst).append (books_broadcast rfl rfl)
    | tick =>
      simp only [ModelCfg.fire, ClnNode.tick] at h
      split at h
      · cases h; exact .of_eq (fun _ => rfl) fun _ => rfl
      · cases h
        exact (books_clearPending n).append (books_broadcast rfl (weight_fromMixed n.pending))
    | flushSummary => cases h; exact books_drain c.toNodeCfg now
    | _ => cases h
  | lnd c =>
    cases ev with
    | originate msg =>
      simp only [ModelCfg.fire, LndNode.originate, Option.bind_eq_bind,
        Option.bind_eq_some_iff] at h
      obtain ⟨⟨n₀, r⟩, hst, h⟩ := h
      cases r <;> cases h
      · exact books_stampOriginated hst
      · exact (books_stampOriginated hst).append (.of_eq (fun _ => rfl) fun _ => rfl)
    | tick => exact books_lndTick h
    | sendBatch b => cases h; exact books_broadcast rfl b.wireSize_gossips.symm
    | flushSummary => cases h; exact books_drain c.toNodeCfg now
    | _ => cases h
  | sketch c =>
    cases ev with
    | originate msg =>
      simp only [ModelCfg.fire, SketchNode.originate, Option.bind_eq_bind,
        Option.bind_eq_some_iff] at h
      obtain ⟨⟨n₀, r⟩, hst, h⟩ := h
      cases r with
      | none => cases h; exact books_stampOriginated hst
      | some m =>
        dsimp only at h
        split at h <;> cases h
        · exact (books_stampOriginated hst).append (books_broadcast rfl rfl)
        · exact books_stampOriginated hst
    | tickForPeer i =>
      obtain ⟨hi, hcu, hna, hca⟩ := hok c i rfl rfl
      exact SketchNode.books_tickForPeer hi hcu hna hca h
    | handleSketch sk => exact SketchNode.books_handleSketch h
    | handleInventory i => exact SketchNode.books_handleInventory h
    | flushSummary =>
      simp only [ModelCfg.fire, SketchNode.flushSummary] at h
      split at h <;> cases h
      · exact (books_drain c.toNodeCfg now).append
          (.of_eq (fun cls => by cases cls <;> rfl) fun cls => by cases cls <;> rfl)
      · exact books_drain c.toNodeCfg now
    | _ => cases h

end Send

/-! ## The network -/

/-- Tickers are armed for existing outputs. -/
theorem SketchNode.lt_of_armed {c : SketchCfg V} {a : Nat × Ev × Option Nat} {i : Nat}
    (h : a ∈ armPerPeerTickers c) (hi : a.2.1 = .tickForPeer i) : i < c.peers.outputs.length := by
  rw [armPerPeerTickers, List.mem_append, List.mem_append] at h
  rcases h with (h | h) | h
  · obtain ⟨j, hj, rfl⟩ := List.mem_mapIdx.1 h
    cases hi
    exact c.offsets_length ▸ hj
  · split at h
    · rw [List.mem_singleton] at h; subst h; cases hi
    · cases h
  · rw [List.mem_singleton] at h; subst h; cases hi

variable [DecidableEq V]

namespace Net

/-- The accounts of one traffic class. -/
def ledger (s : Net V) (cls : Traffic) : Ledger V where
  sent v := (s.node v).metricsLocal.bytesOut cls
  received v := (s.node v).metricsLocal.bytesIn cls
  transit := (s.flight.map fun p => p.wire.load cls).sum

end Net

/-- A ticker that fires sends sketches whose size fits 16 bits. -/
def Fits : ModelCfg V → Ev → Prop
  | .sketch c, .tickForPeer _ =>
    c.capChanUpdates < 8192 ∧ c.capNodeAnns < 8192 ∧ c.capChanAnns < 8192
  | _, _ => True

/-- The step delivers no sketch or inventory of some weight to a node that does
not speak the protocol, and ticks no sketch of 8192 or more elements. -/
def Fair (w : Network V) (s : Net V) : Label → Prop
  | .advance _ => True
  | .deliver i => ∀ p ∈ s.flight[i]?, p.wire.traffic = .gossip ∨
      (w.model p.dst).isSketch = true ∨ p.wire.weight = 0
  | .fire i => ∀ q ∈ s.queue[i]?, Fits (w.model q.node) q.ev

instance (mc : ModelCfg V) (ev : Ev) : Decidable (Fits mc ev) := by
  unfold Fits
  split <;> infer_instance

instance (w : Network V) (s : Net V) (l : Label) : Decidable (Fair w s l) := by
  unfold Fair
  split <;> infer_instance

/-- What balances, and what keeps it balanced. -/
structure Accounted (w : Network V) (s : Net V) : Prop where
  balanced : ∀ cls, (s.ledger cls).Balanced w.topo.nodes
  exact : ∀ p ∈ s.flight, p.wire.Exact
  tickers : ∀ q ∈ s.queue, ∀ c i, w.model q.node = .sketch c → q.ev = .tickForPeer i →
    i < c.peers.outputs.length

/-- A handler of `u` that books `inp` in and its sends out keeps the accounts. -/
theorem Accounted.commit {w : Network V} {s s₀ : Net V} {u : V} {n : Node} {e : Effects V}
    {inp : Traffic → Nat} (h : Accounted w s) (hb : Accounts inp e.sends (s.node u) n)
    (hn : s₀.node = s.node) (hf : ∀ p ∈ s₀.flight, p ∈ s.flight)
    (hl : ∀ cls, (s₀.flight.map fun p => p.wire.load cls).sum + inp cls =
      (s.flight.map fun p => p.wire.load cls).sum)
    (hq : ∀ q ∈ s₀.queue, ∃ q' ∈ s.queue, q.node = q'.node ∧ q.ev = q'.ev)
    (hsp : ∀ x ∈ e.schedules, x.2.spawned = true) : Accounted w (s₀.commit u n e) where
  balanced cls := by
    refine (h.balanced cls).book w.topo.nodup (w.topo.mem_nodes u) (a := sendsLoad cls e.sends)
      (b := inp cls) ?_ ?_ ?_
    · funext v
      by_cases hv : v = u
      · subst hv; simpa [Net.ledger, Net.commit] using hb.out cls
      · simp [Net.ledger, Net.commit, hv, hn]
    · funext v
      by_cases hv : v = u
      · subst hv; simpa [Net.ledger, Net.commit] using hb.received cls
      · simp [Net.ledger, Net.commit, hv, hn]
    · have := hl cls
      simp only [Net.ledger, Net.commit, sendsLoad, List.map_append, List.sum_append, List.map_map,
        Function.comp_def]
      omega
  exact p hp := by
    rcases List.mem_append.1 hp with hp | hp
    · exact h.exact p (hf p hp)
    · obtain ⟨x, hx, rfl⟩ := List.mem_map.1 hp
      exact hb.exact x hx
  tickers q hq' c i hc hi := by
    rcases List.mem_append.1 hq' with hm | hm
    · obtain ⟨q', hm', hnode, hev⟩ := hq q hm
      exact h.tickers q' hm' c i (hnode ▸ hc) (hev ▸ hi)
    · obtain ⟨x, hx, rfl⟩ := List.mem_map.1 hm
      have := hsp x hx
      rw [show x.2 = .tickForPeer i from hi] at this
      cases this

section Run

variable [MsgHash]

theorem Accounted.step {w : Network V} {s s' : Net V} {l : Label} (h : Accounted w s)
    (hok : Fair w s l) (hs : step w s l = some s') : Accounted w s' := by
  cases moves_of_step hs with
  | advance _ => exact ⟨h.balanced, h.exact, h.tickers⟩
  | @deliver i p n e hp hr _ =>
    have hb := recv_accounts hr (h.exact p (List.mem_of_getElem? hp)) (hok p hp)
    obtain ⟨_, _, -, -, hsp⟩ := ModelCfg.recv_absorbs hr
    exact h.commit hb rfl (fun p hp => List.mem_of_mem_eraseIdx hp)
      (fun _ => sum_eraseIdx hp _) (fun q hq => ⟨q, hq, rfl, rfl⟩) hsp
  | @fire i q n e hq hr _ =>
    have hb := fire_books hr fun c j hc hj => by
      have hfit := hok q hq
      rw [hc, hj] at hfit
      exact ⟨h.tickers q (List.mem_of_getElem? hq) c j hc hj, hfit⟩
    refine h.commit hb rfl (fun p hp => hp) (fun cls => rfl) (fun x hx => ?_)
      (ModelCfg.fire_spawned hr)
    rcases List.mem_append.1 hx with hx | hx
    · exact ⟨x, List.mem_of_mem_eraseIdx hx, rfl, rfl⟩
    · obtain ⟨hnode, hev⟩ := again_mem hx
      exact ⟨q, List.mem_of_getElem? hq, hnode, hev⟩

omit [DecidableEq V] [MsgHash] in
theorem accounted_init {w : Network V} {events : List (Nat × V × Gossip)} {s : Net V}
    (h : init w events = some s) : Accounted w s := by
  rw [init_eq h]
  refine ⟨fun cls => ?_, by simp, fun q hq c i hc hi => ?_⟩
  · have hzero : ∀ v, (w.model v).initial.metricsLocal.bytesOut cls = 0 ∧
        (w.model v).initial.metricsLocal.bytesIn cls = 0 := by
      intro v
      cases hm : w.model v <;> cases cls <;> exact ⟨rfl, rfl⟩
    simp [Ledger.Balanced, Net.ledger, total, hzero]
  · simp only [initialQueue, List.mem_append, List.mem_flatMap, List.mem_map] at hq
    rcases hq with ⟨v, -, a, ha, rfl⟩ | ⟨x, -, rfl⟩
    · rw [show w.model v = .sketch c from hc] at ha
      exact SketchNode.lt_of_armed ha hi
    · cases hi

/-- In every run of fair steps, for each class the bytes counted out are the bytes
counted in and those still in flight. -/
theorem bandwidth_balances {w : Network V} {events : List (Nat × V × Gossip)} {s₀ s : Net V}
    {ls : List Label} (h₀ : init w events = some s₀) (h : Steps (step w) (Fair w) s₀ ls s)
    (cls : Traffic) :
    total w.topo.nodes (fun v => (s.node v).metricsLocal.bytesOut cls) =
      total w.topo.nodes (fun v => (s.node v).metricsLocal.bytesIn cls) +
        (s.flight.map fun p => p.wire.load cls).sum :=
  (h.invariant (P := Accounted w) (accounted_init h₀)
    fun _ _ _ hi hok hs => hi.step hok hs).balanced cls

end Run

/-! ## Unfair steps -/

section Samples

local instance bandwidthHash : MsgHash := ⟨List.sum⟩

/-- What the accounts of sketches look like after a run from the start: out, in
and in flight. -/
def sketchAccounts (w : Network (Fin 2)) (ls : List Label) : Option (Nat × Nat × Nat) :=
  ((init w []).bind fun s => run (tstep w) s ls).map fun s =>
    (total w.topo.nodes (s.ledger .sketch).sent, total w.topo.nodes (s.ledger .sketch).received,
      (s.ledger .sketch).transit)

/-- A sketch of 128 bytes that a Cln node received is on no account; and a sketch
of capacity 8192 is counted out as empty. -/
theorem bandwidth_unbalanced :
    sketchAccounts mixedPair [.advance (10 ^ 8), .fire 0, .deliver 0] = some (384, 0, 256) ∧
      sketchAccounts (sketchPair 8192) [.advance (10 ^ 8), .fire 0] = some (0, 0, 3 * 65536) := by
  decide +kernel

/-- Fair steps: a node ticks, and its peer gets the first of three sketches. -/
theorem bandwidth_balances_pair : ∃ s₀ s, init (sketchPair 16) [] = some s₀ ∧
    Steps (step (sketchPair 16)) (Fair (sketchPair 16)) s₀
      [.advance (10 ^ 8), .fire 0, .deliver 0] s ∧
    total (sketchPair 16).topo.nodes (fun v => (s.node v).metricsLocal.bytesOut .sketch) =
      total (sketchPair 16).topo.nodes (fun v => (s.node v).metricsLocal.bytesIn .sketch) +
        (s.flight.map fun p => p.wire.load .sketch).sum := by
  have hrun : ((init (sketchPair 16) []).bind fun s =>
      runOk (step (sketchPair 16)) (Fair (sketchPair 16)) s
        [.advance (10 ^ 8), .fire 0, .deliver 0]).isSome = true := by
    decide +kernel
  obtain ⟨s, hs⟩ := Option.isSome_iff_exists.1 hrun
  obtain ⟨s₀, h₀, hs⟩ := Option.bind_eq_some_iff.1 hs
  have h := steps_of_runOk hs
  exact ⟨s₀, s, h₀, h, bandwidth_balances h₀ h .sketch⟩

end Samples

end LnConv
