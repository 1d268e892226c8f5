import LnConv.Lib.Ledger
import LnConv.Net

/-!
# First-seen tuples are shipped

A node buffers the tuples it counts as first seen and ships the buffer when it
flushes. What is shipped and what is buffered is what was counted. A buffer that
holds something has a flush due by the deadline, as long as no tuple is recorded
after the final flush; so at the deadline everything counted is shipped.
-/

namespace LnConv

variable {V : Type}

/-! ## Shipping -/

def Ev.isFlush : Ev → Bool
  | .flushSummary => true
  | _ => false

def Ev.originated? : Ev → Option Gossip
  | .originate msg => some msg
  | _ => none

namespace MetricsEvent

/-- The tuples an event ships for the node `idx`. -/
def shippedBy (idx : NodeIdx) : MetricsEvent → List FirstSeenEntry
  | .firstSeenBatch i entries => if i = idx then entries else []
  | _ => []

def batchLength : MetricsEvent → Nat
  | .firstSeenBatch _ entries => entries.length
  | _ => 0

end MetricsEvent

/-- All tuples shipped for the node `idx`. -/
def shipped (idx : NodeIdx) (events : List MetricsEvent) : List FirstSeenEntry :=
  events.flatMap (MetricsEvent.shippedBy idx)

@[simp] theorem shipped_nil (idx : NodeIdx) : shipped idx [] = [] := rfl

@[simp] theorem shipped_cons (idx : NodeIdx) (x : MetricsEvent) (xs : List MetricsEvent) :
    shipped idx (x :: xs) = x.shippedBy idx ++ shipped idx xs := rfl

@[simp] theorem shipped_append (idx : NodeIdx) (xs ys : List MetricsEvent) :
    shipped idx (xs ++ ys) = shipped idx xs ++ shipped idx ys := List.flatMap_append

/-- A node with these effects ships or keeps what it buffered and what it counts. -/
structure Ships (c : NodeCfg V) (n n' : Node) (e : Effects V) : Prop where
  kept : shipped c.idx e.events ++ n'.metricsLocal.firstSeenPending =
    n.metricsLocal.firstSeenPending ++ e.firstSeen
  own : ∀ idx, idx ≠ c.idx → shipped idx e.events = []
  length : (e.events.map MetricsEvent.batchLength).sum = (shipped c.idx e.events).length

/-- A handler that ships nothing and buffers what it counts. -/
structure Buffers (n n' : Node) (e : Effects V) : Prop where
  events : e.events = []
  kept : n'.metricsLocal.firstSeenPending = n.metricsLocal.firstSeenPending ++ e.firstSeen

theorem Buffers.ships {n n' : Node} {e : Effects V} (h : Buffers n n' e) (c : NodeCfg V) :
    Ships c n n' e :=
  ⟨by simp [h.events, h.kept], by simp [h.events], by simp [h.events]⟩

section Handlers

variable {n n' : Node} {e : Effects V} {now : Nat}

theorem Absorbs.buffers {f : Forward} {gs : List Gossip} {n₀ : Node} (h : Absorbs f gs now n₀ n' e)
    (hf : n₀.metricsLocal.firstSeenPending = n.metricsLocal.firstSeenPending) : Buffers n n' e := by
  obtain ⟨fresh, dups, a, -⟩ := h
  exact ⟨a.events, by rw [a.metrics, a.firstSeen, ← hf]⟩

/-- Receiving counts something only if there is news. -/
theorem recv_buffers {mc : ModelCfg V} {wire : WireMessage}
    (h : mc.recv wire now n = some (n', e)) :
    Buffers n n' e ∧ (joinOf wire.gossips ≤ n.view → e.firstSeen = []) := by
  obtain ⟨hs, -, -, hf⟩ := mc.countIn_frame wire n
  have ha := ModelCfg.recv_absorbs h
  refine ⟨ha.buffers hf, fun hle => ?_⟩
  obtain ⟨fresh, dups, a, -⟩ := ha
  rw [a.firstSeen, a.fresh_nil.2 (by rwa [Node.view, hs]), stampSeen, List.map_nil]

theorem drain_ships {c : NodeCfg V} (rest : List MetricsEvent)
    (he : e.events = (n.drain c now).2 ++ rest) (hf : e.firstSeen = [])
    (hn : n'.metricsLocal.firstSeenPending = []) (hr : ∀ idx, shipped idx rest = [])
    (hl : (rest.map MetricsEvent.batchLength).sum = 0) : Ships c n n' e := by
  have hsend : ∀ idx, shipped idx (sendFirstSeenBatch c.idx n.metricsLocal.firstSeenPending) =
      if c.idx = idx then n.metricsLocal.firstSeenPending else [] := by
    intro idx
    unfold sendFirstSeenBatch
    split
    · next h => simp [List.isEmpty_iff.1 h]
    · simp [MetricsEvent.shippedBy]
  have hlen : ((sendFirstSeenBatch c.idx n.metricsLocal.firstSeenPending).map
      MetricsEvent.batchLength).sum = n.metricsLocal.firstSeenPending.length := by
    unfold sendFirstSeenBatch
    split
    · next h => simp [List.isEmpty_iff.1 h]
    · simp [MetricsEvent.batchLength]
  refine ⟨?_, fun idx hne => ?_, ?_⟩
  · simp [he, hf, hn, hsend, hr, Node.drain, MetricsEvent.shippedBy]
  · simp [he, hsend, hr, Ne.symm hne, Node.drain, MetricsEvent.shippedBy]
  · simp [he, hsend, hr, hl, hlen, Node.drain, MetricsEvent.shippedBy, MetricsEvent.batchLength]

variable [MsgHash]

/-- A flush ships the whole buffer. -/
theorem fire_flush {mc : ModelCfg V} {peerState : V → NodeState}
    (h : mc.fire peerState .flushSummary now n = some (n', e)) :
    Ships mc.base n n' e ∧ n'.metricsLocal.firstSeenPending = [] := by
  cases mc with
  | sketch c =>
    simp only [ModelCfg.fire, SketchNode.flushSummary] at h
    split at h
    · cases h
      exact ⟨drain_ships [.nodeReservoirDump _ _ _ _] rfl rfl rfl (fun _ => rfl) rfl, rfl⟩
    · cases h
      exact ⟨drain_ships [] (List.append_nil _).symm rfl rfl (fun _ => rfl) rfl, rfl⟩
  | _ =>
    cases h
    exact ⟨drain_ships [] (List.append_nil _).symm rfl rfl (fun _ => rfl) rfl, rfl⟩

theorem stampOriginated_buffers {c : NodeCfg V} {msg : Gossip} {r : Option Gossip} {n₀ : Node}
    (h : n.stampOriginated c msg now = some (n₀, r)) (hn : n'.metricsLocal.firstSeenPending =
      n₀.metricsLocal.firstSeenPending) (he : e.events = [])
    (hf : e.firstSeen = stampSeen r.toList now) :
    Buffers n n' e ∧ (e.firstSeen ≠ [] → ¬ AlreadyAnnounced n.state msg) := by
  obtain ⟨m, b, sp, -, -, ⟨rfl, rfl, hm⟩ | ⟨rfl, rfl, hm⟩⟩ := stampOriginated_spec h
  · exact ⟨⟨he, by rw [hn, hm, hf]; rfl⟩, fun _ ha => Bool.noConfusion (sp.isNew ha)⟩
  · exact ⟨⟨he, by rw [hn, hm, hf]; simp [stampSeen]⟩,
      fun hne => absurd (by simp [hf, stampSeen]) hne⟩

/-- A handler other than a flush ships nothing; only an origination counts. -/
theorem fire_buffers {mc : ModelCfg V} {peerState : V → NodeState} {ev : Ev}
    (h : mc.fire peerState ev now n = some (n', e)) (hev : ev.isFlush = false) :
    Buffers n n' e ∧
      (e.firstSeen ≠ [] → ∃ msg, ev = .originate msg ∧ ¬ AlreadyAnnounced n.state msg) := by
  have hquiet : n'.metricsLocal.firstSeenPending = n.metricsLocal.firstSeenPending →
      e.events = [] → e.firstSeen = [] → Buffers n n' e ∧
        (e.firstSeen ≠ [] → ∃ msg, ev = .originate msg ∧ ¬ AlreadyAnnounced n.state msg) :=
    fun hn he hf => ⟨⟨he, by simp [hn, hf]⟩, fun hne => absurd hf hne⟩
  cases ev with
  | flushSummary => cases hev
  | originate msg =>
    suffices hs : Buffers n n' e ∧ (e.firstSeen ≠ [] → ¬ AlreadyAnnounced n.state msg) from
      ⟨hs.1, fun hne => ⟨msg, rfl, hs.2 hne⟩⟩
    cases mc with
    | sketch c =>
      simp only [ModelCfg.fire, SketchNode.originate, Option.bind_eq_bind,
        Option.bind_eq_some_iff] at h
      obtain ⟨⟨n₀, r⟩, hst, h⟩ := h
      cases r with
      | none => cases h; exact stampOriginated_buffers hst rfl rfl rfl
      | some m =>
        dsimp only at h
        split at h <;> cases h <;> exact stampOriginated_buffers hst rfl rfl rfl
    | flooding c =>
      simp only [ModelCfg.fire, FloodingNode.originate, Option.bind_eq_bind,
        Option.bind_eq_some_iff] at h
      obtain ⟨⟨n₀, r⟩, hst, h⟩ := h
      cases r <;> cases h <;> exact stampOriginated_buffers hst rfl rfl rfl
    | cln c =>
      simp only [ModelCfg.fire, ClnNode.originate, Option.bind_eq_bind,
        Option.bind_eq_some_iff] at h
      obtain ⟨⟨n₀, r⟩, hst, h⟩ := h
      cases r <;> cases h <;> exact stampOriginated_buffers hst rfl rfl rfl
    | lnd c =>
      simp only [ModelCfg.fire, LndNode.originate, Option.bind_eq_bind,
        Option.bind_eq_some_iff] at h
      obtain ⟨⟨n₀, r⟩, hst, h⟩ := h
      cases r <;> cases h <;> exact stampOriginated_buffers hst rfl rfl rfl
  | doSend msg =>
    cases mc with
    | flooding c => cases h; exact hquiet rfl rfl rfl
    | _ => cases h
  | tick =>
    cases mc with
    | cln c =>
      simp only [ModelCfg.fire, ClnNode.tick] at h
      split at h <;> cases h <;> exact hquiet rfl rfl rfl
    | lnd c =>
      simp only [ModelCfg.fire, LndNode.tick] at h
      split at h
      · cases h; exact hquiet rfl rfl rfl
      simp only [Option.bind_eq_bind, Option.bind_eq_some_iff] at h
      obtain ⟨sub, -, h⟩ := h
      split at h <;> cases h <;> exact hquiet rfl rfl rfl
    | _ => cases h
  | sendBatch b =>
    cases mc with
    | lnd c => cases h; exact hquiet rfl rfl rfl
    | _ => cases h
  | tickForPeer i =>
    cases mc with
    | sketch c =>
      obtain ⟨hk, -, hf, he⟩ := SketchNode.tickForPeer_keeps h
      exact hquiet hk.firstSeenPending he hf
    | _ => cases h
  | handleSketch sk =>
    cases mc with
    | sketch c =>
      obtain ⟨hk, -, hf, he⟩ := SketchNode.handleSketch_keeps h
      exact hquiet hk.firstSeenPending he hf
    | _ => cases h
  | handleInventory i =>
    cases mc with
    | sketch c =>
      obtain ⟨hk, -, hf, he⟩ := SketchNode.handleInventory_keeps h
      exact hquiet hk.firstSeenPending he hf
    | _ => cases h

end Handlers

theorem flush_mem_armed (mc : ModelCfg V) :
    (mc.base.runDuration, .flushSummary, none) ∈ mc.armed := by
  cases mc <;> exact List.mem_append_right _ (List.mem_singleton.2 rfl)

/-! ## The network -/

section Network

variable [DecidableEq V]

def Net.buffered (s : Net V) (u : V) : List FirstSeenEntry :=
  (s.node u).metricsLocal.firstSeenPending

/-- A flush of `u` is due by the deadline. -/
def Network.FlushDue (w : Network V) (s : Net V) (u : V) : Prop :=
  ∃ q ∈ s.queue, q.node = u ∧ q.ev.isFlush = true ∧ q.time ≤ w.runDuration

/-- The final flush of `u` has not run. -/
def Network.FinalDue (w : Network V) (s : Net V) (u : V) : Prop :=
  ∃ q ∈ s.queue, q.node = u ∧ q.ev.isFlush = true ∧ q.time = w.runDuration

def NodeState.knows (s : NodeState) (g : Gossip) : Prop :=
  WithBot.some g.stamp ≤ s.view g.kind g.stateKey

/-- The step does not record a tuple at the deadline at a node that has no flush
due any more. -/
def Timely (w : Network V) (s : Net V) : Label → Prop
  | .advance _ => True
  | .deliver i => ∀ p ∈ s.flight[i]?, s.now < w.runDuration ∨
      (∀ g ∈ p.wire.gossips, (s.states p.dst).knows g) ∨ w.FlushDue s p.dst
  | .fire i => ∀ q ∈ s.queue[i]?, ∀ msg ∈ q.ev.originated?, s.now < w.runDuration ∨
      AlreadyAnnounced (s.states q.node) msg ∨ w.FlushDue s q.node

/-- The run has reached its deadline: everything up to it was run, nothing later. -/
structure Network.Finished (w : Network V) (s : Net V) : Prop where
  now_le : s.now ≤ w.runDuration
  flight : s.flight = []
  queue : ∀ q ∈ s.queue, w.runDuration < q.time

/-- What ships every tuple once. -/
structure Shipping (w : Network V) (s : Net V) : Prop where
  kept : ∀ u, shipped (w.topo.idx u) s.metrics ++ s.buffered u = s.counted u
  lengths : (s.metrics.map MetricsEvent.batchLength).sum =
    total w.topo.nodes fun u => (shipped (w.topo.idx u) s.metrics).length
  due : ∀ u, s.buffered u ≠ [] → w.FlushDue s u
  final : s.now < w.runDuration → ∀ u, w.FinalDue s u

section Commit

variable {w : Network V} {s s₀ : Net V} {u : V} {n : Node} {e : Effects V}

/-- A handler of `u` ships or keeps what it counts; the others are left alone. -/
theorem Shipping.commit (h : Shipping w s) (hs : Ships (w.model u).base (s.node u) n e)
    (hn : s₀.node = s.node) (hm : s₀.metrics = s.metrics) (hc : s₀.counted = s.counted)
    (hdue : n.metricsLocal.firstSeenPending ≠ [] → w.FlushDue (s₀.commit u n e) u)
    (hkeep : ∀ v, v ≠ u → w.FlushDue s v → w.FlushDue (s₀.commit u n e) v)
    (hfinal : s₀.now < w.runDuration → ∀ v, w.FinalDue (s₀.commit u n e) v) :
    Shipping w (s₀.commit u n e) := by
  have hidx : (w.model u).base.idx = w.topo.idx u := w.idx_eq u
  have hown : ∀ v, v ≠ u → shipped (w.topo.idx v) e.events = [] := fun v hv =>
    hs.own _ fun he => hv (w.topo.idx_inj v u (he.trans hidx))
  refine ⟨fun v => ?_, ?_, fun v => ?_, hfinal⟩
  · have hk := h.kept v
    simp only [Net.buffered, Net.commit, Function.update_apply, hn, hm, hc, shipped_append] at hk ⊢
    split
    · next hv =>
      subst hv
      rw [List.append_assoc, ← hidx, hs.kept, ← List.append_assoc, hidx, hk]
    · next hv => rw [hown v hv, List.append_nil, hk]
  · have hupd : (fun v => (shipped (w.topo.idx v) (s.metrics ++ e.events)).length) =
        Function.update (fun v => (shipped (w.topo.idx v) s.metrics).length) u
          ((shipped (w.topo.idx u) s.metrics).length +
            (shipped (w.topo.idx u) e.events).length) := by
      funext v
      by_cases hv : v = u
      · subst hv; simp
      · simp [hv, hown v hv]
    have ht := total_update w.topo.nodup (w.topo.mem_nodes u)
      (fun v => (shipped (w.topo.idx v) s.metrics).length)
      ((shipped (w.topo.idx u) s.metrics).length + (shipped (w.topo.idx u) e.events).length)
    have hl := h.lengths
    have hlen := hs.length
    rw [hidx] at hlen
    simp only [Net.commit, hm, hupd, List.map_append, List.sum_append]
    omega
  · intro hb
    by_cases hv : v = u
    · subst hv
      exact hdue (by simpa [Net.buffered, Net.commit] using hb)
    · refine hkeep v hv (h.due v ?_)
      simpa [Net.buffered, Net.commit, hv, hn] using hb

omit [DecidableEq V] in
theorem Network.FlushDue.mono (h : w.FlushDue s u)
    (hq : ∀ q ∈ s.queue, q.node = u → q.ev.isFlush = true → q ∈ s₀.queue) : w.FlushDue s₀ u := by
  obtain ⟨q, hm, hn, hev, ht⟩ := h
  exact ⟨q, hq q hm hn hev, hn, hev, ht⟩

omit [DecidableEq V] in
theorem Network.FinalDue.mono (h : w.FinalDue s u)
    (hq : ∀ q ∈ s.queue, q.ev.isFlush = true → q.time = w.runDuration → q ∈ s₀.queue) :
    w.FinalDue s₀ u := by
  obtain ⟨q, hm, hn, hev, ht⟩ := h
  exact ⟨q, hq q hm hev ht, hn, hev, ht⟩

omit [DecidableEq V] in
theorem Network.FinalDue.flushDue (h : w.FinalDue s u) : w.FlushDue s u := by
  obtain ⟨q, hm, hn, hev, ht⟩ := h
  exact ⟨q, hm, hn, hev, ht.le⟩

end Commit

variable [MsgHash] {w : Network V} {s s' : Net V} {l : Label}

theorem Shipping.step (h : Shipping w s) (hok : Timely w s l) (hs : tstep w s l = some s') :
    Shipping w s' := by
  cases moves_of_step (step_of_tstep hs) with
  | @advance t hle =>
    refine ⟨h.kept, h.lengths, h.due, fun hlt => h.final (hle.trans_lt hlt)⟩
  | @deliver i p n e hp hr _ =>
    obtain ⟨hb, hnews⟩ := recv_buffers hr
    have hgrow : ∀ q ∈ s.queue,
        q ∈ ({ s with flight := s.flight.eraseIdx i }.commit p.dst n e).queue :=
      fun q hq => List.mem_append_left _ hq
    refine h.commit (hb.ships _) rfl rfl rfl (fun hne => ?_)
      (fun v _ hd => hd.mono fun q hq _ _ => hgrow q hq) fun hlt v => (h.final hlt v).mono fun q hq _ _ => hgrow q hq
    suffices hd : w.FlushDue s p.dst from hd.mono fun q hq _ _ => hgrow q hq
    by_cases he : e.firstSeen = []
    · rw [hb.kept, he, List.append_nil] at hne
      exact h.due _ hne
    · rcases hok p hp with hlt | hknown | hd
      · exact (h.final hlt _).flushDue
      · exact absurd (hnews (supOf_le_iff.2 fun g hg => atom_le_iff.2 (hknown g hg))) he
      · exact hd
  | @fire i q n e hq hr _ =>
    have hkeep : ∀ q' ∈ s.queue, q' ≠ q →
        q' ∈ ({ s with queue := s.queue.eraseIdx i ++ q.again }.commit q.node n e).queue := by
      intro q' hq' hne
      have hm := (mem_or_mem_eraseIdx hq hq').resolve_left hne
      exact List.mem_append_left _ (List.mem_append_left _ hm)
    have htime : q.time = s.now := by
      simp only [tstep, hq, Option.bind_eq_bind, Option.bind_some] at hs
      split at hs
      · assumption
      · cases hs
    have hfinal : s.now < w.runDuration → ∀ v,
        w.FinalDue ({ s with queue := s.queue.eraseIdx i ++ q.again }.commit q.node n e) v :=
      fun hlt v => (h.final hlt v).mono fun q' hq' _ ht => hkeep q' hq' (by rintro rfl; omega)
    cases hev : q.ev.isFlush with
    | true =>
      obtain ⟨t, u, ev, per⟩ := q
      cases ev <;> cases hev
      obtain ⟨hship, hnil⟩ := fire_flush hr
      refine h.commit hship rfl rfl rfl (fun hne => absurd hnil hne) (fun v hv hd => ?_) hfinal
      exact hd.mono fun q' hq' hn _ => hkeep q' hq' (by rintro rfl; exact hv hn.symm)
    | false =>
      obtain ⟨hb, hnews⟩ := fire_buffers hr hev
      have hmono : ∀ v, w.FlushDue s v → w.FlushDue
          ({ s with queue := s.queue.eraseIdx i ++ q.again }.commit q.node n e) v := fun v hd =>
        hd.mono fun q' hq' _ hf => hkeep q' hq' (by rintro rfl; rw [hev] at hf; cases hf)
      refine h.commit (hb.ships _) rfl rfl rfl (fun hne => hmono _ ?_) (fun v _ => hmono v) hfinal
      by_cases he : e.firstSeen = []
      · rw [hb.kept, he, List.append_nil] at hne
        exact h.due _ hne
      · obtain ⟨msg, horig, hnew⟩ := hnews he
        rcases hok q hq msg (by rw [horig]; rfl) with hlt | hknown | hd
        · exact (h.final hlt _).flushDue
        · exact absurd hknown hnew
        · exact hd

omit [DecidableEq V] [MsgHash] in
theorem shipping_init {events : List (Nat × V × Gossip)} (h : init w events = some s) :
    Shipping w s := by
  have hbuf : ∀ v, (w.model v).initial.metricsLocal.firstSeenPending = [] := fun v => by
    cases hm : w.model v <;> rfl
  rw [init_eq h]
  refine ⟨fun u => ?_, ?_, fun u hne => absurd (hbuf u) hne, fun _ u => ?_⟩
  · simp [Net.buffered, hbuf]
  · simp [total]
  · refine ⟨⟨w.runDuration, u, .flushSummary, none⟩, List.mem_append_left _ ?_, rfl, rfl, rfl⟩
    have hmem := flush_mem_armed (w.model u)
    rw [w.runDuration_eq] at hmem
    exact List.mem_flatMap.2 ⟨u, w.topo.mem_nodes u, List.mem_map.2 ⟨_, hmem, rfl⟩⟩

/-- In every timed run of timely steps that ends with the run finished, the
batches of each node carry exactly the tuples it counted. -/
theorem counted_shipped {events : List (Nat × V × Gossip)} {s₀ : Net V} {ls : List Label}
    (h₀ : init w events = some s₀) (h : Steps (tstep w) (Timely w) s₀ ls s) (hend : w.Finished s) :
    (∀ u, shipped (w.topo.idx u) s.metrics = s.counted u) ∧
      (s.metrics.map MetricsEvent.batchLength).sum =
        total w.topo.nodes fun u => (s.counted u).length := by
  have hship := h.invariant (P := Shipping w) (shipping_init h₀) fun _ _ _ hi hok hs =>
    hi.step hok hs
  have hempty : ∀ u, s.buffered u = [] := by
    intro u
    by_contra hne
    obtain ⟨q, hq, -, -, hle⟩ := hship.due u hne
    exact absurd hle (not_le.2 (hend.queue q hq))
  have hall : ∀ u, shipped (w.topo.idx u) s.metrics = s.counted u := fun u => by
    rw [← hship.kept u, hempty u, List.append_nil]
  exact ⟨hall, hship.lengths.trans (total_congr fun u _ => congrArg List.length (hall u))⟩

end Network

/-! ## The last instant -/

section Samples

local instance flushHash : MsgHash := ⟨List.sum⟩

variable [DecidableEq V]

instance (w : Network V) (s : Net V) (u : V) : Decidable (w.FlushDue s u) :=
  inferInstanceAs (Decidable (∃ q ∈ s.queue, _))

instance (s : NodeState) (g : Gossip) : Decidable (s.knows g) :=
  inferInstanceAs (Decidable (_ ≤ _))

instance (w : Network V) (s : Net V) : ∀ l, Decidable (Timely w s l)
  | .advance _ => inferInstanceAs (Decidable True)
  | .deliver i => inferInstanceAs (Decidable (∀ p ∈ s.flight[i]?, _))
  | .fire i => inferInstanceAs (Decidable (∀ q ∈ s.queue[i]?, ∀ msg ∈ q.ev.originated?, _))

/-- Node 0 originates 100 ms before the end of a run of 2 s. -/
def lateUpdate : List (Nat × Fin 3 × Gossip) := [(19 * 10 ^ 8, 0, sampleUpdate)]

/-- It reaches node 1, which forwards it at the last instant. -/
def towardsDeadline : List Label :=
  [.advance (19 * 10 ^ 8), .fire 3, .deliver 0, .advance (2 * 10 ^ 9)]

instance (w : Network V) (s : Net V) : Decidable (w.Finished s) :=
  decidable_of_iff (s.now ≤ w.runDuration ∧ s.flight = [] ∧ ∀ q ∈ s.queue, w.runDuration < q.time)
    ⟨fun h => ⟨h.1, h.2.1, h.2.2⟩, fun h => ⟨h.now_le, h.flight, h.queue⟩⟩

/-- If the final flushes run before the forward, node 2 counts a tuple that
nobody ships. -/
theorem late_tuple_lost : ∃ s₀ s, init (floodLine (2 * 10 ^ 9)) lateUpdate = some s₀ ∧
    run (tstep (floodLine (2 * 10 ^ 9))) s₀ (towardsDeadline ++
      [.fire 0, .fire 0, .fire 0, .fire 0, .deliver 0, .deliver 0]) = some s ∧
    (floodLine (2 * 10 ^ 9)).Finished s ∧ (s.counted 2).length = 1 ∧ shipped 2 s.metrics = [] := by
  have hrun : ((init (floodLine (2 * 10 ^ 9)) lateUpdate).bind fun s₀ =>
      run (tstep (floodLine (2 * 10 ^ 9))) s₀ (towardsDeadline ++
        [.fire 0, .fire 0, .fire 0, .fire 0, .deliver 0, .deliver 0])).any (fun s =>
      decide ((floodLine (2 * 10 ^ 9)).Finished s) && decide ((s.counted 2).length = 1) &&
        decide (shipped 2 s.metrics = [])) = true := by
    decide +kernel
  obtain ⟨s, hs, hc⟩ := (Option.any_eq_true _ _).1 hrun
  obtain ⟨s₀, h₀, hs⟩ := Option.bind_eq_some_iff.1 hs
  simp only [Bool.and_eq_true, decide_eq_true_eq] at hc
  exact ⟨s₀, s, h₀, hs, hc.1.1, hc.1.2, hc.2⟩

/-- If node 1 forwards first, all three tuples are shipped. -/
theorem counted_shipped_line : ∃ s₀ s, init (floodLine (2 * 10 ^ 9)) lateUpdate = some s₀ ∧
    Steps (tstep (floodLine (2 * 10 ^ 9))) (Timely (floodLine (2 * 10 ^ 9))) s₀ (towardsDeadline ++
      [.fire 3, .deliver 0, .deliver 0, .fire 0, .fire 0, .fire 0]) s ∧
    (s.counted 2).length = 1 ∧ shipped 2 s.metrics = s.counted 2 := by
  have hrun : ((init (floodLine (2 * 10 ^ 9)) lateUpdate).bind fun s₀ =>
      runOk (tstep (floodLine (2 * 10 ^ 9))) (Timely (floodLine (2 * 10 ^ 9))) s₀ (towardsDeadline ++
        [.fire 3, .deliver 0, .deliver 0, .fire 0, .fire 0, .fire 0])).any (fun s =>
      decide ((floodLine (2 * 10 ^ 9)).Finished s) && decide ((s.counted 2).length = 1)) = true := by
    decide +kernel
  obtain ⟨s, hs, hc⟩ := (Option.any_eq_true _ _).1 hrun
  obtain ⟨s₀, h₀, hs⟩ := Option.bind_eq_some_iff.1 hs
  simp only [Bool.and_eq_true, decide_eq_true_eq] at hc
  have h := steps_of_runOk hs
  exact ⟨s₀, s, h₀, h, hc.2, (counted_shipped h₀ h hc.1).1 2⟩

end Samples

end LnConv
