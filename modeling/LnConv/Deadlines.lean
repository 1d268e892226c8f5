import LnConv.Lib.Deadline
import LnConv.Mixed
import LnConv.Node.Run
import LnConv.Progress

/-!
# How fast gossip spreads

A Cln or Lnd node sends what it knows with its next tick, a flooding node after its
forward delay, and a sketch node has what a sketch neighbour knows when the neighbour
has answered its next sketch. Tickers keep their period, so along a path of such hops
knowledge arrives within the sum of their times, whatever the order of the events of
one instant.
-/

namespace LnConv

variable {V : Type}

/-! ## Times -/

namespace ModelCfg

/-- How long what the node schedules to send may wait. -/
def lag : ModelCfg V → Nat
  | flooding c => c.forwardDelay
  | lnd c => c.stagger
  | cln _ | sketch _ => 0

/-- The time between two ticks of a node that queues what it forwards. -/
def stagger : ModelCfg V → Nat
  | cln c => c.stagger
  | lnd c => c.stagger
  | flooding _ | sketch _ => 0

/-- When the last batch goes out that a tick cuts its queue into. -/
def trickleOut (n : Node) : ModelCfg V → Ev → Nat
  | lnd c, .tick => c.trickle * ((LndNode.cut c n.pending).length - 1)
  | _, _ => 0

/-- The batches of a tick trickle out within the lag. -/
def InTime (n : Node) (mc : ModelCfg V) (ev : Ev) : Prop := mc.trickleOut n ev ≤ mc.lag

instance (n : Node) (mc : ModelCfg V) (ev : Ev) : Decidable (mc.InTime n ev) :=
  inferInstanceAs (Decidable (_ ≤ _))

end ModelCfg

/-- Every periodic event comes first within its period, as `sample_phase` has it. -/
def Network.Phased (w : Network V) : Prop :=
  ∀ v, ∀ a ∈ (w.model v).armed, ∀ p ∈ a.2.2, a.1 ≤ p

/-- What `u` knows `v` knows after this time. -/
inductive Network.Hop (w : Network V) (u v : V) : Nat → Prop where
  | push : w.edge u v → (w.model u).isSketch = false →
      w.Hop u v ((w.model u).stagger + (w.model u).lag)
  | pull {cu cv : SketchCfg V} : w.edge u v → w.model u = .sketch cu → w.model v = .sketch cv →
      w.Hop u v (cv.stagger + 10 ^ 6)

/-! ## What is scheduled -/

/-- No gossip is scheduled to be sent later than `lag`. -/
def Effects.Prompt (lag : Nat) (e : Effects V) : Prop :=
  ∀ x ∈ e.schedules, x.2.gossips ≠ [] → x.1 ≤ lag

section Prompt

variable {lag now : Nat} {n n' : Node} {e e' : Effects V}

theorem Effects.Prompt.append (h : e.Prompt lag) (h' : e'.Prompt lag) : (e ++ e').Prompt lag :=
  fun x hx => (List.mem_append.1 hx).elim (h x) (h' x)

theorem Effects.prompt_of_scheduled (h : e.scheduled = []) : e.Prompt lag :=
  fun x hx hne => absurd (List.flatMap_eq_nil_iff.1 h x hx) hne

theorem FloodingNode.absorb_prompt {c : FloodingCfg V} {kind : GossipKind} {gs : List Gossip}
    (h : absorb c kind gs now n = some (n', e)) : e.Prompt c.forwardDelay := by
  simp only [absorb, Option.bind_eq_bind, Option.bind_eq_some_iff] at h
  obtain ⟨⟨n₁, fresh⟩, -, h⟩ := h
  dsimp only at h
  split at h
  · cases h
    exact Effects.prompt_of_scheduled rfl
  · cases h
    intro x hx hne
    rcases List.mem_append.1 hx with hx | hx
    · obtain ⟨g, -, rfl⟩ := List.mem_map.1 hx
      exact le_rfl
    · have hflush := List.flatMap_eq_nil_iff.1 (Node.gossips_maybeForceFlush _) x hx
      exact absurd hflush hne

theorem FloodingNode.recv_prompt {c : FloodingCfg V} {wire : WireMessage}
    (h : recv c wire now n = some (n', e)) : e.Prompt c.forwardDelay := by
  cases wire with
  | single g =>
    simp only [recv] at h
    cases hk : g.kind <;> simp only [absorbOne, hk] at h <;> exact absorb_prompt h
  | batch b =>
    obtain ⟨n₁, e₁, e', h₁, h', rfl⟩ := Handler.seq_eq_some h
    obtain ⟨n₂, e₂, e₃, h₂, h₃, rfl⟩ := Handler.seq_eq_some h'
    exact (absorb_prompt h₁).append ((absorb_prompt h₂).append (absorb_prompt h₃))
  | sketch _ => cases h; exact Effects.prompt_of_scheduled rfl
  | inventory _ => cases h; exact Effects.prompt_of_scheduled rfl

theorem recv_prompt {mc : ModelCfg V} {wire : WireMessage}
    (h : mc.recv wire now n = some (n', e)) : e.Prompt mc.lag := by
  obtain ⟨fresh, dups, -, hs, -⟩ := ModelCfg.recv_absorbs h
  cases mc with
  | flooding c => exact FloodingNode.recv_prompt h
  | cln c => exact Effects.prompt_of_scheduled hs
  | lnd c => exact Effects.prompt_of_scheduled hs
  | sketch c => exact Effects.prompt_of_scheduled hs

theorem LndNode.tick_prompt {c : LndCfg V} (h : tick c n = some (n', e))
    (hin : c.trickle * ((cut c n.pending).length - 1) ≤ c.stagger) : e.Prompt c.stagger := by
  rcases tick_cut h with ⟨-, -, rfl⟩ | ⟨-, sub, first, rest, -, -, hcut, -, rfl⟩
  · exact Effects.prompt_of_scheduled rfl
  · intro x hx _
    obtain ⟨i, hi, rfl⟩ := List.mem_mapIdx.1 hx
    rw [hcut, List.length_cons, Nat.add_sub_cancel] at hin
    calc c.trickle * ((i + 1) % 2 ^ 32)
      _ ≤ c.trickle * rest.length :=
        Nat.mul_le_mul_left _ ((Nat.mod_le _ _).trans (Nat.succ_le_of_lt hi))
      _ ≤ c.stagger := hin

variable [MsgHash]

theorem fire_prompt {mc : ModelCfg V} {peerState : V → NodeState} {ev : Ev}
    (h : mc.fire peerState ev now n = some (n', e)) (hin : mc.InTime n ev) : e.Prompt mc.lag := by
  cases mc with
  | flooding c =>
    cases ev with
    | originate msg =>
      obtain ⟨⟨n₀, r⟩, -, h⟩ := Option.bind_eq_some_iff.1 h
      cases r <;> cases h <;> exact Effects.prompt_of_scheduled rfl
    | _ => cases h <;> exact Effects.prompt_of_scheduled rfl
  | cln c =>
    cases ev with
    | originate msg =>
      obtain ⟨⟨n₀, r⟩, -, h⟩ := Option.bind_eq_some_iff.1 h
      cases r <;> cases h <;> exact Effects.prompt_of_scheduled rfl
    | tick =>
      simp only [ModelCfg.fire, ClnNode.tick] at h
      split at h <;> cases h <;> exact Effects.prompt_of_scheduled rfl
    | _ => cases h <;> exact Effects.prompt_of_scheduled rfl
  | lnd c =>
    cases ev with
    | originate msg =>
      obtain ⟨⟨n₀, r⟩, -, h⟩ := Option.bind_eq_some_iff.1 h
      cases r <;> cases h <;> exact Effects.prompt_of_scheduled rfl
    | tick => exact LndNode.tick_prompt h hin
    | _ => cases h <;> exact Effects.prompt_of_scheduled rfl
  | sketch c =>
    have hnil : e.schedules = [] → e.Prompt 0 := fun he =>
      Effects.prompt_of_scheduled (by unfold Effects.scheduled; rw [he]; rfl)
    cases ev with
    | originate msg =>
      obtain ⟨⟨n₀, r⟩, -, h⟩ := Option.bind_eq_some_iff.1 h
      cases r with
      | none => cases h; exact hnil rfl
      | some m => dsimp only at h; split at h <;> cases h <;> exact hnil rfl
    | tickForPeer i => exact hnil (SketchNode.tickForPeer_keeps h).2.1
    | handleSketch sk => exact hnil (SketchNode.handleSketch_keeps h).2.1
    | handleInventory i => exact hnil (SketchNode.handleInventory_keeps h).2.1
    | flushSummary =>
      simp only [ModelCfg.fire, SketchNode.flushSummary] at h
      split at h <;> cases h <;> exact hnil rfl
    | _ => cases h

/-- An event that carries gossips sends them to every peer. -/
theorem fire_sends [DecidableEq V] {mc : ModelCfg V} {peerState : V → NodeState} {ev : Ev}
    (h : mc.fire peerState ev now n = some (n', e)) {v : V} (hv : v ∈ mc.base.peers.outputs) :
    ev.gossips ⊆ e.sentTo v := by
  have hsent : ∀ wire : WireMessage, (v, wire) ∈ mc.base.broadcast wire :=
    fun _ => mem_broadcast.2 ⟨hv, rfl⟩
  cases ev with
  | doSend msg =>
    cases mc with
    | flooding c => cases h; exact fun g hg => Effects.mem_sentTo.2 ⟨_, hsent (.single msg), hg⟩
    | _ => cases h
  | sendBatch b =>
    cases mc with
    | lnd c => cases h; exact fun g hg => Effects.mem_sentTo.2 ⟨_, hsent (.batch b), hg⟩
    | _ => cases h
  | _ => exact List.nil_subset _

/-- A tick empties the queue. -/
theorem fire_tick_pending {mc : ModelCfg V} {peerState : V → NodeState}
    (h : mc.fire peerState .tick now n = some (n', e)) : n'.pending = [] := by
  cases mc with
  | cln c =>
    simp only [ModelCfg.fire, ClnNode.tick] at h
    split at h
    · next hnil => cases h; exact List.isEmpty_iff.1 hnil
    · cases h; rfl
  | lnd c =>
    rcases LndNode.tick_cut h with ⟨hnil, rfl, -⟩ | ⟨-, _, _, _, -, -, -, rfl, -⟩
    · exact hnil
    · rfl
  | _ => cases h

end Prompt

/-! ## What a timed step can do -/

section Steps

variable [DecidableEq V] [MsgHash] {w : Network V} {s s' : Net V} {l : Label}

theorem time_of_fire {i : Nat} {q : Sched V} (hs : tstep w s (.fire i) = some s')
    (hq : s.queue[i]? = some q) : q.time = s.now := by
  simp only [tstep, hq, Option.bind_eq_bind, Option.bind_some] at hs
  by_contra hne
  rw [if_neg hne] at hs
  cases hs

theorem of_advance {t : Nat} (hs : tstep w s (.advance t) = some s') :
    s.now ≤ t ∧ s' = { s with now := t } ∧ s.flight = [] ∧ ∀ q ∈ s.queue, t ≤ q.time := by
  simp only [tstep] at hs
  split at hs
  · next hall =>
    obtain ⟨hf, hq⟩ := Bool.and_eq_true_iff.1 hall
    cases moves_of_step hs with
    | advance hle =>
      refine ⟨hle, rfl, List.isEmpty_iff.1 hf, fun q hqm => ?_⟩
      exact of_decide_eq_true (List.all_eq_true.1 hq q hqm)
  · cases hs

theorem now_le_of_tstep (hs : tstep w s l = some s') : s.now ≤ s'.now := by
  cases moves_of_step (step_of_tstep hs) with
  | advance hle => exact hle
  | _ => exact le_rfl

/-- Time passes only when nothing is in flight and no event is skipped. -/
theorem of_now_lt (hs : tstep w s l = some s') (hlt : s.now < s'.now) :
    s' = { s with now := s'.now } ∧ s.flight = [] ∧ ∀ q ∈ s.queue, s'.now ≤ q.time := by
  cases l with
  | advance t =>
    obtain ⟨-, rfl, hf, hq⟩ := of_advance hs
    exact ⟨rfl, hf, hq⟩
  | deliver i =>
    cases moves_of_step (step_of_tstep hs) with
    | deliver _ _ _ => exact absurd hlt (lt_irrefl _)
  | fire i =>
    cases moves_of_step (step_of_tstep hs) with
    | fire _ _ _ => exact absurd hlt (lt_irrefl _)

/-- The event a label fires, if any. -/
def Net.fires (s : Net V) : Label → Option (Sched V)
  | .fire i => s.queue[i]?
  | _ => none

/-- No origination regresses, no sketch overflows, and what is cut up goes out in time. -/
def Orderly (w : Network V) (s : Net V) (l : Label) : Prop :=
  Calm w s l ∧ ∀ q ∈ s.fires l, (w.model q.node).InTime (s.node q.node) q.ev

instance (w : Network V) (s : Net V) (l : Label) : Decidable (Orderly w s l) :=
  inferInstanceAs (Decidable (_ ∧ ∀ q ∈ s.fires l, _))

omit [DecidableEq V] in
theorem Orderly.steady (h : Orderly w s l) : Steady w s l := h.1.1

/-- What is queued after a step was queued before, is the next one of a periodic event, or
was scheduled by the handler, in time. -/
theorem mem_queue_of_tstep (ht : Orderly w s l) (hs : tstep w s l = some s') {q' : Sched V}
    (hq' : q' ∈ s'.queue) : q' ∈ s.queue ∨ (∃ q ∈ s.queue, q' ∈ q.again) ∨
      (q'.ev.gossips ≠ [] → q'.time ≤ s.now + (w.model q'.node).lag) := by
  have hnew : ∀ {u : V} {e : Effects V}, e.Prompt (w.model u).lag →
      q' ∈ (e.schedules.map fun x => (⟨s.now + x.1, u, x.2, none⟩ : Sched V)) →
      q'.ev.gossips ≠ [] → q'.time ≤ s.now + (w.model q'.node).lag := by
    intro u e hp hm hne
    obtain ⟨x, hx, rfl⟩ := List.mem_map.1 hm
    exact Nat.add_le_add_left (hp x hx hne) _
  cases moves_of_step (step_of_tstep hs) with
  | advance _ => exact .inl hq'
  | deliver _ hr _ =>
    rcases List.mem_append.1 hq' with hm | hm
    · exact .inl hm
    · exact .inr (.inr (hnew (recv_prompt hr) hm))
  | @fire i q n e hq hr _ =>
    rcases List.mem_append.1 hq' with hm | hm
    · rcases List.mem_append.1 hm with hm | hm
      · exact .inl (List.mem_of_mem_eraseIdx hm)
      · exact .inr (.inl ⟨q, List.mem_of_getElem? hq, hm⟩)
    · exact .inr (.inr (hnew (fire_prompt hr (ht.2 q hq)) hm))

/-- What was queued is queued after a step, or fired now and then comes again. -/
theorem mem_queue_or_fired (hs : tstep w s l = some s') {q : Sched V} (hq : q ∈ s.queue) :
    q ∈ s'.queue ∨ q.time = s.now ∧ s'.now = s.now ∧ q.again ⊆ s'.queue := by
  cases moves_of_step (step_of_tstep hs) with
  | advance _ => exact .inl hq
  | deliver _ _ _ => exact .inl (List.mem_append_left _ hq)
  | fire hq' _ _ =>
    rcases mem_or_mem_eraseIdx hq' hq with rfl | hm
    · refine .inr ⟨time_of_fire hs hq', rfl, fun x hx => ?_⟩
      exact List.mem_append_left _ (List.mem_append_right _ hx)
    · exact .inl (List.mem_append_left _ (List.mem_append_left _ hm))

/-- What is in flight stays so or arrives. -/
theorem mem_inFlight_or_le (hs : tstep w s l = some s') {u v : V} {g : Gossip}
    (hg : g ∈ s.inFlight u v) : g ∈ s'.inFlight u v ∨ g.atom ≤ (s'.node v).view := by
  have hmem : ∀ {t : Net V} {p : Packet V}, p ∈ t.flight → p.src = u → p.dst = v →
      g ∈ p.wire.gossips → g ∈ t.inFlight u v := fun hp hu hv hgp =>
    List.mem_flatMap.2 ⟨_, List.mem_filter.2 ⟨hp, decide_eq_true ⟨hu, hv⟩⟩, hgp⟩
  obtain ⟨p, hpf, hgp⟩ := List.mem_flatMap.1 hg
  obtain ⟨hp, hends⟩ := List.mem_filter.1 hpf
  obtain ⟨rfl, rfl⟩ := of_decide_eq_true hends
  cases moves_of_step (step_of_tstep hs) with
  | advance _ => exact .inl hg
  | fire _ _ _ => exact .inl (hmem (List.mem_append_left _ hp) rfl rfl hgp)
  | deliver hp' hr _ =>
    rcases mem_or_mem_eraseIdx hp' hp with rfl | hm
    · refine .inr ((le_supOf (f := Gossip.atom) hgp).trans ?_)
      rw [Net.node_commit, if_pos rfl]
      exact (recv_pushes hr).2
    · exact .inl (hmem (List.mem_append_left _ hm) rfl rfl hgp)

end Steps

/-! ## The invariant -/

section Invariant

variable [DecidableEq V]

/-- No event is late, sends are due within the lag of their node, every ticker is due within
its period, and nothing is lost. -/
structure Net.Punctual (w : Network V) (s : Net V) : Prop where
  ahead : s.Ahead
  silent : s.Silent
  due : ∀ q ∈ s.queue, q.ev.gossips ≠ [] → q.time ≤ s.now + (w.model q.node).lag
  armed : ∀ v, ∀ a ∈ (w.model v).armed, ∀ p, a.2.2 = some p → ∃ q ∈ s.queue, q.node = v ∧
    q.ev = a.2.1 ∧ q.period = some p ∧ q.time ≤ s.now + p
  unqueued : ∀ v c, w.model v = .flooding c → (s.node v).pending = []
  covered : Covered w.edge w.pushes s.pushState

theorem Net.Punctual.init {w : Network V} (hw : w.Phased) {events : List (Nat × V × Gossip)}
    {s : Net V} (h : init w events = some s) : s.Punctual w where
  ahead := .init h
  covered := Network.covered_init h
  silent := .init h
  due q hq hne := by
    rw [init_eq h] at hq
    exact absurd (gossips_of_initialQueue hq) hne
  armed v a ha p hp := by
    rw [init_eq h]
    refine ⟨⟨a.1, v, a.2.1, a.2.2⟩, ?_, rfl, rfl, hp, ?_⟩
    · refine List.mem_append_left _ (List.mem_flatMap.2 ⟨v, w.topo.mem_nodes v, ?_⟩)
      exact List.mem_map_of_mem ha
    · exact (hw v a ha p hp).trans (Nat.le_add_left _ _)
  unqueued v c _ := by
    rw [init_eq h]
    rfl

variable [MsgHash] {w : Network V} {s s' : Net V} {l : Label}

/-- A flooding node queues nothing. -/
theorem pending_of_flooding {c : FloodingCfg V} {v : V} (hv : w.model v = .flooding c)
    (h : (s.node v).pending = []) (hs : tstep w s l = some s') : (s'.node v).pending = [] := by
  cases moves_of_step (step_of_tstep hs) with
  | advance _ => exact h
  | @deliver i p n e _ hr _ =>
    rw [Net.node_commit]
    split
    · next hvp =>
      subst hvp
      obtain ⟨-, hp, -⟩ := (w.model p.dst).countIn_frame p.wire (s.node p.dst)
      obtain ⟨fresh, dups, a, -⟩ := ModelCfg.recv_absorbs hr
      rw [a.pending, hp, h, hv]
      rfl
    · exact h
  | @fire i q n e _ hr _ =>
    rw [Net.node_commit]
    split
    · next hvq =>
      subst hvq
      rw [hv] at hr
      cases hev : q.ev with
      | originate msg =>
        rw [hev] at hr
        obtain ⟨⟨n₀, r⟩, hst, hr⟩ := Option.bind_eq_some_iff.1 hr
        have hp := (stampOriginated_still hst).1.trans h
        cases r <;> cases hr <;> exact hp
      | _ => rw [hev] at hr; cases hr <;> exact h
    · exact h

theorem Net.Punctual.step (h : s.Punctual w) (ht : Orderly w s l) (hs : tstep w s l = some s') :
    s'.Punctual w where
  ahead := h.ahead.step hs
  covered := h.covered.step (Network.lossFree ht.steady (step_of_tstep hs))
  unqueued v c hv := pending_of_flooding hv (h.unqueued v c hv) hs
  silent := h.silent.step (step_of_tstep hs)
  due q hq hne := by
    have hle := now_le_of_tstep hs
    rcases mem_queue_of_tstep ht hs hq with hm | ⟨q₀, hm, hag⟩ | hlag
    · exact (h.due q hm hne).trans (Nat.add_le_add_right hle _)
    · exact absurd (h.silent.again hm hag) hne
    · exact (hlag hne).trans (Nat.add_le_add_right hle _)
  armed v a ha p hp := by
    obtain ⟨q, hq, hn, hev, hper, htime⟩ := h.armed v a ha p hp
    rcases mem_queue_or_fired hs hq with hm | ⟨hnow, hsame, hag⟩
    · exact ⟨q, hm, hn, hev, hper, htime.trans (Nat.add_le_add_right (now_le_of_tstep hs) _)⟩
    · refine ⟨{ q with time := q.time + p }, hag ?_, hn, hev, hper, ?_⟩
      · simp [Sched.again, hper]
      · dsimp only
        rw [hnow, hsame]

/-- The network as a system with a clock. -/
def Network.timed (w : Network V) : TimedSystem (Net V) Label where
  step := tstep w
  ok := Orderly w
  clock := Net.now
  Inv := Net.Punctual w
  inv_step := Net.Punctual.step
  clock_le := now_le_of_tstep

/-- `v` knows at least `k`. -/
def Net.Knows (k : View) (v : V) (s : Net V) : Prop := k ≤ (s.node v).view

theorem lasting_knows (k : View) (v : V) : w.timed.Lasting (Net.Knows k v) where
  keep _ ht hs hk := hk.trans ((Network.lossFree (Orderly.steady ht) (step_of_tstep hs)).mono v)
  wait hs hlt hk := by
    rw [(of_now_lt hs hlt).1] at hk
    exact hk

end Invariant

/-! ## Pushing -/

section Push

variable [DecidableEq V] {w : Network V} {s s' : Net V} {l : Label} {T : Nat} {u v : V} {g : Gossip}

/-- `g` reaches `v` from `u` by `T`: it waits for a tick, or for an event that sends it, or is in
flight. -/
inductive Net.DueBy (w : Network V) (s : Net V) (T : Nat) (u v : V) (g : Gossip) : Prop where
  | pending {q : Sched V} : g ∈ (s.node u).pending → q ∈ s.queue → q.node = u → q.ev = .tick →
      q.time + (w.model u).lag ≤ T → DueBy w s T u v g
  | queued {q : Sched V} : q ∈ s.queue → q.node = u → g ∈ q.ev.gossips → q.time ≤ T →
      DueBy w s T u v g
  | inFlight : g ∈ s.inFlight u v → DueBy w s T u v g

/-- Whatever is above what `v` holds and what reaches it from `u` by `T` is above `k`. -/
def Net.Promised (w : Network V) (k : View) (u v : V) (T : Nat) (s : Net V) : Prop :=
  ∀ b, (s.node v).view ≤ b → (∀ g, s.DueBy w T u v g → g.atom ≤ b) → k ≤ b

theorem mem_inFlight_commit {e : Effects V} {n : Node} (hg : g ∈ e.sentTo v) :
    g ∈ (s.commit u n e).inFlight u v := by
  obtain ⟨wire, hx, hg⟩ := Effects.mem_sentTo.1 hg
  refine List.mem_flatMap.2 ⟨⟨u, v, wire⟩, List.mem_filter.2 ⟨?_, by simp⟩, hg⟩
  exact List.mem_append_right _ (List.mem_map_of_mem hx)

variable [MsgHash]

/-- What is due stays due or has arrived. -/
theorem Net.DueBy.step (hd : s.DueBy w T u v g) (hp : s.Punctual w) (he : w.edge u v)
    (ht : Orderly w s l) (hs : tstep w s l = some s') :
    s'.DueBy w T u v g ∨ g.atom ≤ (s'.node v).view := by
  cases hd with
  | inFlight hg => exact (mem_inFlight_or_le hs hg).imp .inFlight id
  | @queued q hq hn hg hle =>
    cases moves_of_step (step_of_tstep hs) with
    | advance _ => exact .inl (.queued hq hn hg hle)
    | deliver _ _ _ => exact .inl (.queued (List.mem_append_left _ hq) hn hg hle)
    | fire hq' hr _ =>
      rcases mem_or_mem_eraseIdx hq' hq with rfl | hm
      · subst hn
        exact .inl (.inFlight (mem_inFlight_commit (fire_sends hr (Network.edge_iff.1 he) hg)))
      · exact .inl (.queued (List.mem_append_left _ (List.mem_append_left _ hm)) hn hg hle)
  | @pending q hg hq hn hev hle =>
    cases moves_of_step (step_of_tstep hs) with
    | advance _ => exact .inl (.pending hg hq hn hev hle)
    | @deliver i p n e _ hr _ =>
      refine .inl (.pending ?_ (List.mem_append_left _ hq) hn hev hle)
      rw [Net.node_commit]
      split
      · next hup =>
        subst hup
        obtain ⟨-, hpend, -⟩ := (w.model p.dst).countIn_frame p.wire (s.node p.dst)
        obtain ⟨fresh, dups, a, -⟩ := ModelCfg.recv_absorbs hr
        rw [a.pending, hpend]
        exact List.mem_append_left _ hg
      · exact hg
    | @fire i q' n e hq' hr _ =>
      have hstays : q ∈ s.queue.eraseIdx i → q ∈
          ({ s with queue := s.queue.eraseIdx i ++ q'.again }.commit q'.node n e).queue :=
        fun hm => List.mem_append_left _ (List.mem_append_left _ hm)
      have hother := mem_or_mem_eraseIdx hq' hq
      by_cases hu : q'.node = u
      · subst hu
        have hpush := fire_pushes hr fun msg hmsg => by
          rw [w.id_eq]; exact ht.steady _ (originates_fire hq' hmsg)
        have hdue := hpush.flow v (Network.edge_iff.1 he) (List.mem_append_left _ hg)
        rcases List.mem_append.1 hdue with hdue | hsent
        · rcases List.mem_append.1 hdue with hpend | hsched
          · rcases hother with rfl | hm
            · rw [hev] at hr
              rw [fire_tick_pending hr] at hpend
              cases hpend
            · refine .inl (.pending ?_ (hstays hm) hn hev hle)
              rwa [Net.node_commit, if_pos rfl]
          · obtain ⟨x, hx, hgx⟩ := List.mem_flatMap.1 hsched
            have hlag := fire_prompt hr (ht.2 q' hq') x hx (List.ne_nil_of_mem hgx)
            have hnow := hp.ahead.time q hq
            refine .inl (.queued (List.mem_append_right _ (List.mem_map_of_mem hx)) rfl hgx ?_)
            exact (Nat.add_le_add hnow hlag).trans hle
        · exact .inl (.inFlight (mem_inFlight_commit hsent))
      · rcases hother with rfl | hm
        · exact absurd hn hu
        · refine .inl (.pending ?_ (hstays hm) hn hev hle)
          rwa [Net.node_commit, if_neg (Ne.symm hu)]

/-- When time goes past `T` nothing is due by `T` any more. -/
theorem not_dueBy_of_past (hs : tstep w s l = some s') (hT : s.now ≤ T) (hlt : T < s'.now) :
    ¬s.DueBy w T u v g := by
  obtain ⟨-, hflight, hqueue⟩ := of_now_lt hs (hT.trans_lt hlt)
  rintro (⟨-, hq, -, -, hle⟩ | ⟨hq, -, -, hle⟩ | hg)
  · have := hqueue _ hq
    omega
  · have := hqueue _ hq
    omega
  · simp [Net.inFlight, hflight] at hg

omit [MsgHash] in
/-- Everything a pushing node owes is due within a stagger and its lag. -/
theorem dueBy_of_owed (hp : s.Punctual w) (hpush : (w.model u).isSketch = false)
    (hg : g ∈ s.owed u v) : s.DueBy w (s.now + ((w.model u).stagger + (w.model u).lag)) u v g := by
  rcases List.mem_append.1 hg with hg | hg
  · rcases List.mem_append.1 hg with hg | hg
    · have hticks : ∀ {first p : Nat}, (first, Ev.tick, some p) ∈ (w.model u).armed →
          p = (w.model u).stagger →
          s.DueBy w (s.now + ((w.model u).stagger + (w.model u).lag)) u v g := by
        rintro first p ha rfl
        obtain ⟨q, hq, hn, hev, -, htime⟩ := hp.armed u _ ha _ rfl
        exact .pending hg hq hn hev (by omega)
      cases hu : w.model u with
      | flooding c =>
        rw [hp.unqueued u c hu] at hg
        cases hg
      | cln c =>
        have ha : (c.firstTick, Ev.tick, some c.stagger) ∈ (ModelCfg.cln c).armed := by
          simp [ModelCfg.armed, ClnNode.armTicks]
        rw [hu] at hticks
        exact hticks ha rfl
      | lnd c =>
        have ha : (c.firstTick, Ev.tick, some c.stagger) ∈ (ModelCfg.lnd c).armed := by
          simp [ModelCfg.armed, LndNode.armTicks]
        rw [hu] at hticks
        exact hticks ha rfl
      | sketch c =>
        rw [hu] at hpush
        cases hpush
    · obtain ⟨q, hqf, hgq⟩ := List.mem_flatMap.1 hg
      obtain ⟨hq, hn⟩ := List.mem_filter.1 hqf
      have hn := of_decide_eq_true hn
      have hle := hp.due q hq (List.ne_nil_of_mem hgq)
      rw [hn] at hle
      exact .queued hq hn hgq (by omega)
  · exact .inFlight hg

theorem push_leadsTo (he : w.edge u v) (hpush : (w.model u).isSketch = false) (k : View) :
    w.timed.LeadsTo (Net.Knows k u) (Net.Knows k v) ((w.model u).stagger + (w.model u).lag) := by
  refine .of_pending (Net.Promised w k u v) (lasting_knows k v) ?_ ?_ ?_
  · intro s hp hk b hb hdue
    have hcov : (s.node u).view ≤ (s.node v).view ⊔ joinOf (s.owed u v) := hp.covered u v he hpush
    refine (hk.trans hcov).trans (sup_le hb (supOf_le_iff.2 fun g hg => ?_))
    exact hdue g (dueBy_of_owed hp hpush hg)
  · intro T s l s' hp ht hs hw _ b hb hdue
    have hmono : (s.node v).view ≤ (s'.node v).view :=
      (Network.lossFree (Orderly.steady ht) (step_of_tstep hs)).mono v
    refine hw b (hmono.trans hb) fun g hg => ?_
    rcases hg.step hp he ht hs with hg | hle
    · exact hdue g hg
    · exact hle.trans hb
  · intro T s l s' hp ht hs hw hT hlt
    have hk : k ≤ (s.node v).view := hw _ le_rfl fun g hg => absurd hg (not_dueBy_of_past hs hT hlt)
    exact (lasting_knows k v).keep hp ht hs hk

end Push

/-! ## Pulling -/

section Pull

variable [DecidableEq V] {w : Network V} {s s' : Net V} {l : Label} {T : Nat} {a b : V}
  {ca cb : SketchCfg V} {kind : SketchKind} {k : View}

/-- `a` has `k` of a kind from `b` by `T`: it ticks for `b`, or its sketch is on the way, or waits
to be handled, or is answered. -/
inductive Net.Pulls (w : Network V) (k : View) (a b : V) (kind : SketchKind) (T : Nat) (s : Net V) :
    Prop where
  | armed {q : Sched V} {i : Nat} : q ∈ s.queue → q.node = a → q.ev = .tickForPeer i →
      (w.model a).base.peers.outputs[i]? = some b → q.time + 10 ^ 6 ≤ T → Pulls w k a b kind T s
  | sent {p : Packet V} {sk : Sketch} : p ∈ s.flight → p.dst = b → p.wire = .sketch sk →
      sk.fromId = w.topo.id a → sk.kind = kind → s.now + 10 ^ 6 ≤ T → Pulls w k a b kind T s
  | received {q : Sched V} {sk : Sketch} : q ∈ s.queue → q.node = b → q.ev = .handleSketch sk →
      sk.fromId = w.topo.id a → sk.kind = kind → q.time ≤ T → Pulls w k a b kind T s
  | answered : k kind.toGossip ≤ ((s.node a).view ⊔ joinOf (s.inFlight b a)) kind.toGossip →
      Pulls w k a b kind T s

variable [MsgHash]

/-- A sketch that does not overflow is answered with all that its sender misses. -/
theorem view_le_of_handled {i : Nat} {q : Sched V} {n : Node} {e : Effects V} {sk : Sketch}
    (hb : w.model q.node = .sketch cb) (hab : w.edge a q.node) (hq : s.queue[i]? = some q)
    (hev : q.ev = .handleSketch sk) (hf : sk.fromId = w.topo.id a)
    (hfit : w.overflows s (.fire i) = false)
    (hr : (w.model q.node).fire s.states q.ev s.now (s.node q.node) = some (n, e)) :
    (s.node q.node).view sk.kind.toGossip ≤
      ((s.node a).view ⊔ joinOf (e.sentTo a)) sk.kind.toGossip := by
  rw [Network.overflows, handles_fire hq hev, Option.any_some, hb] at hfit
  obtain ⟨loc, hl, ho⟩ := w.lookup_peer (w.edge_symm hab)
  rw [hb] at hl ho hr
  rw [hev] at hr
  change cb.peers.peerIdToLocal.lookup (w.topo.id a) = some loc at hl
  change cb.peers.outputs[loc]? = some a at ho
  rw [← hf] at hl
  simp only [SketchNode.overflows, hl, ho, Option.any_some, decide_eq_false_iff_not, not_lt] at hfit
  obtain ⟨n', e', hans, hsends⟩ := SketchNode.handleSketch_answers rfl hl ho hfit s.now
  change SketchNode.handleSketch cb s.states sk s.now (s.node q.node) = some (n, e) at hr
  rw [hr] at hans
  cases hans
  have hnew := newerList_bNewer (s.states a) (s.node q.node).state sk.kind
    (SketchNode.wantB_diffSide cb)
  have hle : (s.node q.node).view sk.kind.toGossip ≤ (s.node a).view sk.kind.toGossip ⊔
      joinOf _ sk.kind.toGossip := hnew.le_sup
  refine hle.trans (sup_le_sup_left (joinOf_mono (fun g hg => ?_) sk.kind.toGossip) _)
  exact SketchNode.mem_sentTo_sendGossips hsends hg

theorem Net.Pulls.step (h : s.Pulls w k a b kind T) (ha : w.model a = .sketch ca)
    (hb : w.model b = .sketch cb) (hab : w.edge a b) (ht : Orderly w s l)
    (hs : tstep w s l = some s') (hk : k ≤ (s.node b).view) : s'.Pulls w k a b kind T := by
  have hmono : ∀ v, (s.node v).view ≤ (s'.node v).view :=
    (Network.lossFree ht.steady (step_of_tstep hs)).mono
  cases h with
  | answered h =>
    refine .answered (h.trans (sup_le (hmono a |>.trans le_sup_left) (supOf_le_iff.2 ?_) kind.toGossip))
    intro g hg
    rcases mem_inFlight_or_le hs hg with hg | hle
    · exact (le_supOf (f := Gossip.atom) hg).trans le_sup_right
    · exact hle.trans le_sup_left
  | @armed q i hq hn hev ho hle =>
    rcases mem_queue_or_fired hs hq with hm | ⟨hnow, hsame, -⟩
    · exact .armed hm hn hev ho hle
    · cases moves_of_step (step_of_tstep hs) with
      | advance _ => exact .armed hq hn hev ho hle
      | deliver _ _ _ => exact .armed (List.mem_append_left _ hq) hn hev ho hle
      | fire hq' hr _ =>
        rcases mem_or_mem_eraseIdx hq' hq with rfl | hm
        · subst hn
          rw [ha] at ho
          rw [ha, hev] at hr
          obtain ⟨sk, hmem, hf, hkind⟩ := SketchNode.tickForPeer_sends hr ho kind
          refine .sent (List.mem_append_right _ (List.mem_map_of_mem hmem)) rfl rfl ?_ hkind ?_
          · rw [hf, ← w.id_eq, ha]
            rfl
          · show s.now + 10 ^ 6 ≤ T
            rwa [← hnow]
        · exact .armed (List.mem_append_left _ (List.mem_append_left _ hm)) hn hev ho hle
  | @sent p sk hp hd hw hf hkind hle =>
    cases moves_of_step (step_of_tstep hs) with
    | advance _ =>
      rw [(of_advance hs).2.2.1] at hp
      cases hp
    | fire _ _ _ => exact .sent (List.mem_append_left _ hp) hd hw hf hkind hle
    | deliver hp' hr _ =>
      rcases mem_or_mem_eraseIdx hp' hp with rfl | hm
      · subst hd
        rw [hb, hw] at hr
        cases hr
        exact .received (List.mem_append_right _ (List.mem_singleton.2 rfl)) rfl rfl hf hkind hle
      · exact .sent (List.mem_append_left _ hm) hd hw hf hkind hle
  | @received q sk hq hn hev hf hkind hle =>
    cases moves_of_step (step_of_tstep hs) with
    | advance _ => exact .received hq hn hev hf hkind hle
    | deliver _ _ _ => exact .received (List.mem_append_left _ hq) hn hev hf hkind hle
    | @fire i q' n e hq' hr _ =>
      rcases mem_or_mem_eraseIdx hq' hq with rfl | hm
      · subst hn hkind
        have hans := view_le_of_handled hb hab hq' hev hf ht.1.2 hr
        refine .answered ((hk sk.kind.toGossip).trans (hans.trans ?_))
        refine sup_le_sup (hmono a) (joinOf_mono fun g hg => ?_) sk.kind.toGossip
        exact mem_inFlight_commit hg
      · exact .received (List.mem_append_left _ (List.mem_append_left _ hm)) hn hev hf hkind hle

/-- When time goes past `T` the answer has arrived. -/
theorem Net.Pulls.le_of_past (h : s.Pulls w k a b kind T) (hs : tstep w s l = some s')
    (hT : s.now ≤ T) (hlt : T < s'.now) : k kind.toGossip ≤ (s.node a).view kind.toGossip := by
  obtain ⟨-, hflight, hqueue⟩ := of_now_lt hs (hT.trans_lt hlt)
  cases h with
  | armed hq _ _ _ hle =>
    have := hqueue _ hq
    omega
  | sent hp => simp [hflight] at hp
  | received hq _ _ _ _ hle =>
    have := hqueue _ hq
    omega
  | answered h => simpa [Net.inFlight, hflight] using h

omit [MsgHash] in
/-- A sketch node ticks for every peer within a stagger. -/
theorem pulls_of_armed (hp : s.Punctual w) (ha : w.model a = .sketch ca) (hab : w.edge a b) :
    s.Pulls w k a b kind (s.now + (ca.stagger + 10 ^ 6)) := by
  obtain ⟨i, -, ho⟩ := w.lookup_peer hab
  have hlt : i < ca.perPeerOffsets.length := by
    rw [ca.offsets_length]
    rw [ha] at ho
    exact (List.getElem?_eq_some_iff.1 ho).1
  have hmem : (ca.perPeerOffsets[i], Ev.tickForPeer i, some ca.stagger) ∈ (w.model a).armed := by
    rw [ha]
    refine List.mem_append_left _ (List.mem_append_left _ ?_)
    exact List.mem_mapIdx.2 ⟨i, hlt, rfl⟩
  obtain ⟨q, hq, hn, hev, -, htime⟩ := hp.armed a _ hmem _ rfl
  exact .armed hq hn hev ho (by omega)

theorem pull_leadsTo (hba : w.edge b a) (ha : w.model a = .sketch ca) (hb : w.model b = .sketch cb)
    (k : View) : w.timed.LeadsTo (Net.Knows k b) (Net.Knows k a) (ca.stagger + 10 ^ 6) := by
  refine .of_pending (fun T s => s.Knows k b ∧ ∀ kind, s.Pulls w k a b kind T) (lasting_knows k a)
    ?_ ?_ ?_
  · exact fun s hp hk => ⟨hk, fun kind => pulls_of_armed hp ha (w.edge_symm hba)⟩
  · intro T s l s' hp ht hs hw _
    refine ⟨(lasting_knows k b).keep hp ht hs hw.1, fun kind => ?_⟩
    exact (hw.2 kind).step ha hb (w.edge_symm hba) ht hs hw.1
  · intro T s l s' hp ht hs hw hT hlt
    have hk : k ≤ (s.node a).view := by
      intro kind
      rw [← SketchKind.toGossip_fromGossip kind]
      exact (hw.2 _).le_of_past hs hT hlt
    exact (lasting_knows k a).keep hp ht hs hk

end Pull

/-! ## Along a path -/

section Path

variable [DecidableEq V] [MsgHash] {w : Network V} {u v : V} {d : Nat}

theorem Network.Hop.leadsTo (h : w.Hop u v d) (k : View) :
    w.timed.LeadsTo (Net.Knows k u) (Net.Knows k v) d := by
  cases h with
  | push he hpush => exact push_leadsTo he hpush k
  | pull he hu hv => exact pull_leadsTo he hv hu k

/-- Along a path of hops knowledge arrives in time: in a run without regressing originations and
overflows, whose Lnd queues trickle out within a stagger, all that `u` knew `v` knows as soon as
more than the time of the hops has passed. -/
theorem Network.known_within (hw : w.Phased) {events : List (Nat × V × Gossip)} {s₀ s s' : Net V}
    {ls ls' : List Label} (h₀ : init w events = some s₀)
    (h : Steps (tstep w) (Orderly w) s₀ ls s) (h' : Steps (tstep w) (Orderly w) s ls' s')
    (hpath : Within w.Hop u v d) (hlate : s.now + d < s'.now) :
    (s.node u).view ≤ (s'.node v).view := by
  have hinv : s.Punctual w := TimedSystem.Run.inv (m := w.timed) h (.init hw h₀)
  have hleads : w.timed.LeadsTo (Net.Knows (s.node u).view u) (Net.Knows (s.node u).view v) d :=
    .within (fun v => lasting_knows _ v) (fun _ _ _ hop => hop.leadsTo _) hpath
  exact hleads s ls' s' hinv le_rfl h' hlate

end Path

/-! ## Two sketch nodes -/

section Samples

local instance deadlinesHash : MsgHash := ⟨List.sum⟩

instance {n : Nat} (w : Network (Fin n)) : Decidable w.Phased :=
  inferInstanceAs (Decidable (∀ _, _))

/-- Up to the origination at node 0. -/
def originateRun : List Label := exchangeRun.take 18

/-- The tickers of the next second, and past the one after it. -/
def pullRun : List Label := exchangeRun.drop 18 ++ [.advance (21 * 10 ^ 8)]

theorem pull_checked :
    ((init (sketchPair 16) oneUpdate).bind fun s =>
      runOk (tstep (sketchPair 16)) (Orderly (sketchPair 16)) s originateRun).any (fun s =>
        decide ((s.node 0).view .channelUpdate 14 = WithBot.some 1) &&
        (runOk (tstep (sketchPair 16)) (Orderly (sketchPair 16)) s pullRun).any fun s' =>
          decide (s.now + (10 ^ 9 + 10 ^ 6 + 0) < s'.now)) = true := by
  decide +kernel

/-- Node 1 knows of the update of node 0 after its next sketch. -/
theorem known_within_pair : ∃ s₀ s s', init (sketchPair 16) oneUpdate = some s₀ ∧
    Steps (tstep (sketchPair 16)) (Orderly (sketchPair 16)) s₀ originateRun s ∧
    Steps (tstep (sketchPair 16)) (Orderly (sketchPair 16)) s pullRun s' ∧
    (s.node 0).view .channelUpdate 14 = WithBot.some 1 ∧ (s.node 0).view ≤ (s'.node 1).view := by
  obtain ⟨s, hs, hc⟩ := (Option.any_eq_true _ _).1 pull_checked
  obtain ⟨s₀, h₀, hs⟩ := Option.bind_eq_some_iff.1 hs
  simp only [Bool.and_eq_true, decide_eq_true_eq, Option.any_eq_true] at hc
  obtain ⟨hheld, s', hs', hlate⟩ := hc
  have h := steps_of_runOk hs
  have h' := steps_of_runOk hs'
  have hedge : (sketchPair 16).edge 0 1 := List.mem_singleton.2 (by decide)
  have hhop : (sketchPair 16).Hop 0 1 (10 ^ 9 + 10 ^ 6) := .pull hedge rfl rfl
  have hpath : Within (sketchPair 16).Hop 0 1 (10 ^ 9 + 10 ^ 6 + 0) := .head hhop (.refl _)
  exact ⟨s₀, s, s', h₀, h, h', hheld, Network.known_within (by decide) h₀ h h' hpath hlate⟩

end Samples

end LnConv
