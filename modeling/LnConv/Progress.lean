import LnConv.Net

/-!
# The clock goes on

At one instant the simulation clock stands still only for finitely many steps: a delivery adds
nothing that is due now, and an event that runs is not due again. So where no handler panics, every
run goes on past every time.
-/

namespace LnConv

variable {V : Type} [DecidableEq V] [MsgHash] {w : Network V} {s s' : Net V}

/-- No event is late, and none is its own next one. -/
structure Net.Ahead (s : Net V) : Prop where
  time : ∀ q ∈ s.queue, s.now ≤ q.time
  period : ∀ q ∈ s.queue, q.period ≠ some 0

omit [DecidableEq V] [MsgHash] in
theorem Net.Ahead.init {events : List (Nat × V × Gossip)} (h : init w events = some s) :
    s.Ahead := by
  have hall : ∀ q ∈ initialQueue w events, q.time ≠ 0 ∧ q.period ≠ some 0 := by
    intro q hq
    simp only [LnConv.init] at h
    split at h
    · next hall => exact of_decide_eq_true (List.all_eq_true.1 hall q hq)
    · cases h
  rw [init_eq h]
  exact ⟨fun q _ => Nat.zero_le q.time, fun q hq => (hall q hq).2⟩

omit [MsgHash] in
theorem Net.Ahead.commit (h : s.Ahead) (u : V) (n : Node) (e : Effects V) :
    (s.commit u n e).Ahead := by
  have hnew : ∀ q ∈ e.schedules.map fun x => (⟨s.now + x.1, u, x.2, none⟩ : Sched V),
      s.now ≤ q.time ∧ q.period ≠ some 0 := by
    intro q hq
    obtain ⟨x, -, rfl⟩ := List.mem_map.1 hq
    exact ⟨Nat.le_add_right _ _, nofun⟩
  constructor
  · exact fun q hq => (List.mem_append.1 hq).elim (h.time q) fun hq => (hnew q hq).1
  · exact fun q hq => (List.mem_append.1 hq).elim (h.period q) fun hq => (hnew q hq).2

theorem Net.Ahead.step (h : s.Ahead) {l : Label} (hs : tstep w s l = some s') : s'.Ahead := by
  cases moves_of_step (step_of_tstep hs) with
  | @advance t hle =>
    refine ⟨fun q hq => ?_, h.period⟩
    by_contra hlt
    have hfalse : (s.flight.isEmpty && s.queue.all fun q => decide (t ≤ q.time)) = false := by
      rw [Bool.and_eq_false_iff]
      exact .inr (List.all_eq_false.2 ⟨q, hq, by simpa using hlt⟩)
    simp [tstep, hfalse] at hs
  | deliver _ _ _ =>
    refine Net.Ahead.commit ?_ _ _ _
    exact ⟨h.time, h.period⟩
  | @fire _ q n e hq hr hok =>
    refine Net.Ahead.commit ?_ _ _ _
    have hqm := List.mem_of_getElem? hq
    constructor
    · intro x hx
      rcases List.mem_append.1 hx with hx | hx
      · exact h.time x (List.mem_of_mem_eraseIdx hx)
      · unfold Sched.again at hx
        split at hx
        · rw [List.mem_singleton.1 hx]
          exact (h.time q hqm).trans (Nat.le_add_right _ _)
        · cases hx
    · intro x hx
      rcases List.mem_append.1 hx with hx | hx
      · exact h.period x (List.mem_of_mem_eraseIdx hx)
      · unfold Sched.again at hx
        split at hx
        · rw [List.mem_singleton.1 hx]
          exact h.period q hqm
        · cases hx

/-- Whatever is due can be run. -/
structure Net.Live (w : Network V) (s : Net V) : Prop where
  ahead : s.Ahead
  deliver : s.flight ≠ [] → ∃ s', tstep w s (.deliver 0) = some s'
  fire : ∀ i q, s.queue[i]? = some q → q.time = s.now → ∃ s', tstep w s (.fire i) = some s'

/-- The events that are due. -/
def Net.due (s : Net V) : Nat := s.queue.countP fun q => q.time ≤ s.now

theorem tstep_deliver {i : Nat} {p : Packet V} {n : Node} {e : Effects V}
    (hp : s.flight[i]? = some p) (hr : (w.model p.dst).recv p.wire s.now (s.node p.dst) = some (n, e))
    (hok : e.scheduleOk = true) : tstep w s (.deliver i) =
      some ({ s with flight := s.flight.eraseIdx i }.commit p.dst n e) := by
  simp only [tstep, step, hp, Option.bind_eq_bind, Option.bind_some, hr, Net.commit?, hok, if_true]

theorem tstep_fire {i : Nat} {q : Sched V} {n : Node} {e : Effects V} (hq : s.queue[i]? = some q)
    (htime : q.time = s.now)
    (hr : (w.model q.node).fire s.states q.ev s.now (s.node q.node) = some (n, e))
    (hok : e.scheduleOk = true) : tstep w s (.fire i) =
      some ({ s with queue := s.queue.eraseIdx i ++ q.again }.commit q.node n e) := by
  simp only [tstep, step, hq, Option.bind_eq_bind, Option.bind_some, htime, hr, Net.commit?, hok,
    if_true]

end LnConv
