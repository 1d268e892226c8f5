import LnConv.Lnsim.Known

/-!
# A node and its grid

The stagger ticks of a node happen at times `j * S - o` with `1 ≤ j`: `S` is the timer and `o` the
node's offset. A tick is not repeated, it is scheduled again by the next message that waits, so
what matters is that no message waits without a tick, or for longer than the tick's interval.
-/

namespace LnConv.Lnsim

open Netsim

variable {n k : Nat}

/-- The last point of the grid, as `ScheduleStaggerTick` computes it. -/
def lastTick (timer offset currTime : Nat) : Nat :=
  ((currTime - (timer - offset)) / timer + 1) * timer - offset

section grid

variable {timer offset currTime : Nat}

theorem lastTick_le (ho : offset < timer) (hc : timer - offset ≤ currTime) :
    lastTick timer offset currTime ≤ currTime ∧
      currTime < lastTick timer offset currTime + timer := by
  have hle := Nat.div_mul_le_self (currTime - (timer - offset)) timer
  have hlt := Nat.lt_mul_div_succ (currTime - (timer - offset)) (by omega : 0 < timer)
  rw [Nat.mul_add, Nat.mul_one, Nat.mul_comm] at hlt
  unfold lastTick
  rw [Nat.succ_mul]
  omega

theorem lastTick_add (ho : offset < timer) :
    ∃ j, 1 ≤ j ∧ lastTick timer offset currTime + timer = j * timer - offset := by
  refine ⟨(currTime - (timer - offset)) / timer + 2, Nat.succ_le_succ (Nat.zero_le _), ?_⟩
  have hle : timer ≤ ((currTime - (timer - offset)) / timer + 1) * timer :=
    Nat.le_mul_of_pos_left timer (Nat.succ_pos _)
  unfold lastTick
  rw [Nat.succ_mul ((currTime - (timer - offset)) / timer + 1)]
  omega

/-- The loop is left at once, and the check passes. -/
theorem getNextTick_lastTick (ho : offset < timer) (hc : timer - offset ≤ currTime) :
    getNextTick currTime (lastTick timer offset currTime) timer =
      some (lastTick timer offset currTime + timer) := by
  obtain ⟨hle, hlt⟩ := lastTick_le ho hc
  have hloop : ∀ fuel, nextTickFrom currTime timer fuel (lastTick timer offset currTime + timer) =
      some (lastTick timer offset currTime + timer) := by
    intro fuel
    cases fuel <;> exact if_neg (by omega)
  unfold getNextTick
  rw [hloop]
  exact if_neg (by omega)

end grid

namespace LightningNode

/-- `ScheduleStaggerTick` at `currTime`: no subtraction wraps, `GetNextTick` does not panic, and its
tick is later by at most the timer. -/
structure Schedules (ln : LightningNode n k) (timer currTime : Nat) : Prop where
  firstTick : ln.tickOffset ≤ timer
  timeSinceFirstTick : timer - ln.tickOffset ≤ currTime
  lastTick : ln.tickOffset ≤ ((currTime - (timer - ln.tickOffset)) / timer + 1) * timer
  nextTick : ∃ t, getNextTick currTime (((currTime - (timer - ln.tickOffset)) / timer + 1) * timer -
    ln.tickOffset) timer = some t ∧ currTime < t ∧ t ≤ currTime + timer

theorem schedules {ln : LightningNode n k} {timer currTime : Nat} (ho : ln.tickOffset < timer)
    (hc : timer - ln.tickOffset ≤ currTime) : ln.Schedules timer currTime := by
  obtain ⟨hle, hlt⟩ := lastTick_le ho hc
  refine ⟨by omega, hc, ?_, _, getNextTick_lastTick ho hc, hlt, by omega⟩
  exact (Nat.le_of_lt ho).trans (Nat.le_mul_of_pos_left timer (Nat.succ_pos _))

end LightningNode

/-- A node's tick, the time it waits for and its interval: none, and then no message waits and the
first tick is over, or one, which every message that waits is in time for. -/
inductive Armed (W : World n k) (now : Nat) (v : Fin n) (bq : Fin k → Option (MessageWithSenders n)) :
    Bool → List (Nat × Nat) → Prop where
  | off : (∀ m, bq m = none) → W.algo.staggerTimer - W.tickOffset v ≤ now → Armed W now v bq false []
  | on {t i} : t ≤ now + i → 0 < i → i ≤ W.algo.staggerTimer →
      (∃ j, 1 ≤ j ∧ t = j * W.algo.staggerTimer - W.tickOffset v) →
      (∀ m ms, bq m = some ms → t ≤ ms.arrivalTime + i) → Armed W now v bq true [(t, i)]

/-- A node at time `now`, `ticks` being its ticks in the queue. -/
structure Timed (W : World n k) (now : Nat) (v : Fin n) (ticks : List (Nat × Nat))
    (ln : LightningNode n k) : Prop where
  tickOffset : ln.tickOffset = W.tickOffset v
  peers : v ∉ ln.gossipPeers
  arrived : ∀ m ms, ln.bq m = some ms → ms.arrivalTime ≤ now
  waiting : ∀ m ms, ln.bq m = some ms →
    (ln.metaData m).broadcast = false ∧ (ln.metaData m).count ≠ 0
  marked : ∀ m, (ln.metaData m).broadcast = true → (ln.metaData m).count ≠ 0
  armed : Armed W now v ln.bq ln.willTick ticks

section timed

variable {W : World n k} {now now' : Nat} {v : Fin n} {bq bq' : Fin k → Option (MessageWithSenders n)}
  {b : Bool} {ticks : List (Nat × Nat)} {ln ln' : LightningNode n k}

theorem Armed.later (h : Armed W now v bq b ticks) (hle : now ≤ now') : Armed W now' v bq b ticks := by
  cases h with
  | off hbq hfirst => exact .off hbq (hfirst.trans hle)
  | on ht hi hS hj hbq => exact .on (by omega) hi hS hj hbq

theorem Armed.of_off (h : Armed W now v bq false ticks) :
    (∀ m, bq m = none) ∧ W.algo.staggerTimer - W.tickOffset v ≤ now := by
  cases h with
  | off hbq hfirst => exact ⟨hbq, hfirst⟩

theorem Armed.length_eq (h : Armed W now v bq b ticks) : ticks.length = if b then 1 else 0 := by
  cases h with
  | off _ _ => rfl
  | on _ _ _ _ _ => rfl

theorem Armed.of_mem {p : Nat × Nat} (h : Armed W now v bq b ticks) (hp : p ∈ ticks) :
    ticks = [p] := by
  cases h with
  | off _ _ => cases hp
  | on _ _ _ _ _ => rw [List.mem_singleton.1 hp]

theorem Armed.of_on {t i : Nat} (h : Armed W now v bq b [(t, i)]) :
    0 < i ∧ (∃ j, 1 ≤ j ∧ t = j * W.algo.staggerTimer - W.tickOffset v) ∧
      ∀ m ms, bq m = some ms → t ≤ ms.arrivalTime + i := by
  cases h with
  | on _ hi _ hj hwait => exact ⟨hi, hj, hwait⟩

/-- The queue may shrink, and its entries change but for their times. -/
theorem Armed.queue (h : Armed W now v bq b ticks)
    (hbq : ∀ m ms', bq' m = some ms' → ∃ ms, bq m = some ms ∧ ms'.arrivalTime = ms.arrivalTime) :
    Armed W now v bq' b ticks := by
  cases h with
  | off hnone hfirst =>
    refine .off (fun m => ?_) hfirst
    cases hm : bq' m with
    | none => rfl
    | some ms' =>
      obtain ⟨ms, hms, -⟩ := hbq m ms' hm
      rw [hnone m] at hms
      cases hms
  | on ht hi hS hj hwait =>
    refine .on ht hi hS hj fun m ms' hm => ?_
    obtain ⟨ms, hms, htime⟩ := hbq m ms' hm
    rw [htime]
    exact hwait m ms hms

namespace Timed

theorem later (h : Timed W now v ticks ln) (hle : now ≤ now') : Timed W now' v ticks ln where
  tickOffset := h.tickOffset
  peers := h.peers
  arrived m ms hms := (h.arrived m ms hms).trans hle
  waiting := h.waiting
  marked := h.marked
  armed := h.armed.later hle

/-- A change that keeps the entries or drops some, and the marks of the messages that stay. -/
theorem change (h : Timed W now v ticks ln) (hoffset : ln'.tickOffset = ln.tickOffset)
    (hpeers : v ∉ ln'.gossipPeers) (hwill : ln'.willTick = ln.willTick)
    (hbq : ∀ m ms', ln'.bq m = some ms' → ∃ ms, ln.bq m = some ms ∧ ms'.arrivalTime = ms.arrivalTime ∧
      (ln'.metaData m).broadcast = (ln.metaData m).broadcast ∧
      ((ln.metaData m).count ≠ 0 → (ln'.metaData m).count ≠ 0))
    (hmarked : ∀ m, (ln'.metaData m).broadcast = true → (ln'.metaData m).count ≠ 0) :
    Timed W now v ticks ln' where
  tickOffset := hoffset.trans h.tickOffset
  peers := hpeers
  arrived m ms' hm := by
    obtain ⟨ms, hms, htime, -⟩ := hbq m ms' hm
    rw [htime]
    exact h.arrived m ms hms
  waiting m ms' hm := by
    obtain ⟨ms, hms, -, hb, hc⟩ := hbq m ms' hm
    exact ⟨hb.trans (h.waiting m ms hms).1, hc (h.waiting m ms hms).2⟩
  marked := hmarked
  armed := by
    rw [hwill]
    refine h.armed.queue fun m ms' hm => ?_
    obtain ⟨ms, hms, htime, -⟩ := hbq m ms' hm
    exact ⟨ms, hms, htime⟩

/-- A change of other fields. -/
theorem same (h : Timed W now v ticks ln) (hoffset : ln'.tickOffset = ln.tickOffset)
    (hpeers : v ∉ ln'.gossipPeers) (hwill : ln'.willTick = ln.willTick) (hbq : ln'.bq = ln.bq)
    (hseen : ln'.seen = ln.seen) : Timed W now v ticks ln' := by
  have hmeta : ∀ m, ln'.metaData m = ln.metaData m := by
    intro m
    unfold LightningNode.metaData
    rw [hseen]
  refine h.change hoffset hpeers hwill (fun m ms' hm => ⟨ms', hbq ▸ hm, rfl, by rw [hmeta], ?_⟩)
    fun m => ?_
  · rw [hmeta]
    exact id
  · rw [hmeta]
    exact h.marked m

/-! ## What is done to a node -/

theorem countSeen_broadcast (ln : LightningNode n k) (m m' : Fin k) :
    ((ln.countSeen m).metaData m').broadcast = (ln.metaData m').broadcast := by
  unfold LightningNode.metaData LightningNode.countSeen
  dsimp only
  by_cases hm : m' = m
  · subst hm
    rw [Function.update_self]
    rfl
  · rw [Function.update_of_ne hm]

theorem countSeen_count (ln : LightningNode n k) (m m' : Fin k) (h : (ln.metaData m').count ≠ 0) :
    ((ln.countSeen m).metaData m').count ≠ 0 := by
  by_cases hm : m' = m
  · subst hm
    rw [LightningNode.countSeen_self]
    exact Nat.succ_ne_zero _
  · rwa [Sim.metaData_of_seen (ln.countSeen_of_ne hm)]

theorem countSeen (h : Timed W now v ticks ln) (m : Fin k) : Timed W now v ticks (ln.countSeen m) :=
  h.change rfl h.peers rfl
    (fun m' ms' hm => ⟨ms', hm, rfl, countSeen_broadcast ln m m', countSeen_count ln m m'⟩)
    fun m' hm => countSeen_count ln m m' (h.marked m' (countSeen_broadcast ln m m' ▸ hm))

theorem noteSender (h : Timed W now v ticks ln) (m : Fin k) (sender : Fin n) (hops : Nat) :
    Timed W now v ticks (ln.noteSender m sender hops) := by
  have hmeta : ∀ m', (ln.noteSender m sender hops).metaData m' = ln.metaData m' := fun m' =>
    Sim.metaData_of_seen (congrFun (ln.noteSender_seen m sender hops) m')
  have heq := ln.noteSender_eq m sender hops
  have hbq : ∀ m' ms', (ln.noteSender m sender hops).bq m' = some ms' →
      ∃ ms, ln.bq m' = some ms ∧ ms'.arrivalTime = ms.arrivalTime := by
    intro m' ms' hm
    unfold LightningNode.noteSender at hm
    split at hm
    · exact ⟨ms', hm, rfl⟩
    · next ms hms =>
      dsimp only at hm
      by_cases hmm : m' = m
      · subst hmm
        rw [Function.update_self] at hm
        cases hm
        exact ⟨ms, hms, rfl⟩
      · rw [Function.update_of_ne hmm] at hm
        exact ⟨ms', hm, rfl⟩
  refine h.change (by rw [heq]) ?_ (by rw [heq]) (fun m' ms' hm => ?_) fun m' => ?_
  · rw [heq]
    exact h.peers
  · obtain ⟨ms, hms, htime⟩ := hbq m' ms' hm
    exact ⟨ms, hms, htime, by rw [hmeta], by rw [hmeta]; exact id⟩
  · rw [hmeta]
    exact h.marked m'

theorem cleanup (h : Timed W now v ticks ln) (m : Fin k) : Timed W now v ticks (ln.cleanup m) := by
  have hother : ∀ m', m' ≠ m → (ln.cleanup m).metaData m' = ln.metaData m' := fun m' hm =>
    Sim.metaData_of_seen (Function.update_of_ne hm _ _)
  refine h.change rfl h.peers rfl (fun m' ms' hm => ?_) fun m' hm => ?_
  · change Function.update ln.bq m none m' = some ms' at hm
    by_cases hmm : m' = m
    · rw [hmm, Function.update_self] at hm
      cases hm
    · rw [Function.update_of_ne hmm] at hm
      exact ⟨ms', hm, rfl, by rw [hother m' hmm], by rw [hother m' hmm]; exact id⟩
  · by_cases hmm : m' = m
    · subst hmm
      change ((Function.update ln.seen m' none m').getD ⟨0, false⟩).broadcast = true at hm
      rw [Function.update_self] at hm
      cases hm
    · rw [hother m' hmm] at hm ⊢
      exact h.marked m' hm

/-- The origin of a message, which does not wait with it. -/
theorem markSeen (h : Timed W now v ticks ln) {m : Fin k} (hm : ln.bq m = none) :
    Timed W now v ticks (ln.markSeen m) := by
  have hother : ∀ m', m' ≠ m → (ln.markSeen m).metaData m' = ln.metaData m' := fun m' hm =>
    Sim.metaData_of_seen (Function.update_of_ne hm _ _)
  refine h.change rfl h.peers rfl (fun m' ms' hm' => ?_) fun m' hm' => ?_
  · have hmm : m' ≠ m := by
      rintro rfl
      exact absurd (hm.symm.trans hm') (by simp)
    exact ⟨ms', hm', rfl, by rw [hother m' hmm], by rw [hother m' hmm]; exact id⟩
  · by_cases hmm : m' = m
    · subst hmm
      have hself : (ln.markSeen m').metaData m' = ⟨1, true⟩ := by
        unfold LightningNode.metaData LightningNode.markSeen
        dsimp only
        rw [Function.update_self]
        rfl
      rw [hself]
      exact Nat.one_ne_zero
    · rw [hother m' hmm] at hm' ⊢
      exact h.marked m' hm'

/-- After the tick no message waits, and the first tick is over. -/
theorem clearQueue (h : Timed W now v ticks ln) (hfirst : W.algo.staggerTimer - W.tickOffset v ≤ now) :
    Timed W now v [] ln.clearQueue where
  tickOffset := h.tickOffset
  peers := h.peers
  arrived _ _ hm := nomatch hm
  waiting _ _ hm := nomatch hm
  marked m hm := by
    cases hms : ln.bq m with
    | none =>
      have hsame : ln.clearQueue.metaData m = ln.metaData m :=
        Sim.metaData_of_seen (by simp [LightningNode.clearQueue, hms])
      rw [hsame] at hm ⊢
      exact h.marked m hm
    | some ms =>
      have hself : ln.clearQueue.metaData m = { ln.metaData m with broadcast := true } := by
        simp [LightningNode.clearQueue, LightningNode.metaData, hms]
      rw [hself]
      exact (h.waiting m ms hms).2
  armed := .off (fun _ => rfl) hfirst

/-- A message joins the queue, and the tick that waits is the one for it. -/
theorem enqueue (h : Timed W now v ticks ln) (hwill : ln.willTick = true) {m : Fin k}
    (hnew : (ln.metaData m).broadcast = false ∧ (ln.metaData m).count ≠ 0) {ms : MessageWithSenders n}
    (hms : ms.arrivalTime = now) : Timed W now v ticks (ln.enqueue m ms) := by
  have hbq : ∀ m' ms', (ln.enqueue m ms).bq m' = some ms' →
      m' = m ∧ ms' = ms ∨ ln.bq m' = some ms' := by
    intro m' ms' hm'
    change Function.update ln.bq m (some ms) m' = some ms' at hm'
    by_cases hmm : m' = m
    · rw [hmm, Function.update_self] at hm'
      exact .inl ⟨hmm, (Option.some.inj hm').symm⟩
    · rw [Function.update_of_ne hmm] at hm'
      exact .inr hm'
  refine ⟨h.tickOffset, h.peers, fun m' ms' hm' => ?_, fun m' ms' hm' => ?_, h.marked, ?_⟩
  · rcases hbq m' ms' hm' with ⟨-, rfl⟩ | hm'
    · exact Nat.le_of_eq hms
    · exact h.arrived m' ms' hm'
  · rcases hbq m' ms' hm' with ⟨rfl, -⟩ | hm'
    · exact hnew
    · exact h.waiting m' ms' hm'
  · have harmed := h.armed
    change Armed W now v (ln.enqueue m ms).bq ln.willTick ticks
    rw [hwill] at harmed ⊢
    cases harmed with
    | on ht hi hS hj hwait =>
      refine .on ht hi hS hj fun m' ms' hm' => ?_
      rcases hbq m' ms' hm' with ⟨-, rfl⟩ | hm'
      · rw [hms]
        exact ht
      · exact hwait m' ms' hm'

/-- A message joins the empty queue, and a tick for it is scheduled. -/
theorem arm (h : Timed W now v ticks ln) (ho : W.tickOffset v < W.algo.staggerTimer)
    (hwill : ln.willTick = false) {m : Fin k}
    (hnew : (ln.metaData m).broadcast = false ∧ (ln.metaData m).count ≠ 0) {ms : MessageWithSenders n}
    (hms : ms.arrivalTime = now) :
    let t := lastTick W.algo.staggerTimer (W.tickOffset v) now + W.algo.staggerTimer
    ticks = [] ∧ Timed W now v [(t, t - now)] { ln.enqueue m ms with willTick := true } := by
  have harmed := h.armed
  rw [hwill] at harmed
  cases harmed with
  | off hnone hfirst =>
  have hon : Timed W now v [(lastTick W.algo.staggerTimer (W.tickOffset v) now + W.algo.staggerTimer,
      lastTick W.algo.staggerTimer (W.tickOffset v) now + W.algo.staggerTimer - now)]
      { ln with willTick := true } := by
    obtain ⟨hle, hlt⟩ := lastTick_le ho hfirst
    refine ⟨h.tickOffset, h.peers, h.arrived, h.waiting, h.marked, ?_⟩
    refine .on (by omega) (by omega) (by omega) (lastTick_add ho) fun m' ms' hm' => ?_
    rw [hnone m'] at hm'
    cases hm'
  exact ⟨rfl, hon.enqueue rfl hnew hms⟩

end Timed

end timed

end LnConv.Lnsim
