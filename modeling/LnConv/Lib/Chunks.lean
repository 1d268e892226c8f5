import Mathlib.Data.List.Basic
import Mathlib.Tactic.Common

/-!
# Lists in groups

A loop that fills a group and starts the next one when it is full cuts its list into groups of
one size, the last of which may be shorter.
-/

namespace LnConv

variable {α : Type}

/-- The groups, when `cur` has been put into the current one. -/
def chunksFrom (b : Nat) : List α → List α → List (List α)
  | cur, [] => [cur]
  | cur, x :: l =>
    if cur.length = b then cur :: chunksFrom b [x] l else chunksFrom b (cur ++ [x]) l

theorem chunksFrom_ne_nil (b : Nat) (cur l : List α) : chunksFrom b cur l ≠ [] := by
  induction l generalizing cur with
  | nil => exact List.cons_ne_nil _ _
  | cons x l ih =>
    unfold chunksFrom
    split
    · exact List.cons_ne_nil _ _
    · exact ih _

theorem flatten_chunksFrom (b : Nat) (cur l : List α) :
    (chunksFrom b cur l).flatten = cur ++ l := by
  induction l generalizing cur with
  | nil => simp [chunksFrom]
  | cons x l ih =>
    unfold chunksFrom
    split
    · rw [List.flatten_cons, ih, List.singleton_append]
    · rw [ih, List.append_assoc, List.singleton_append]

/-- An element stands in the group its position belongs to. -/
theorem getElem?_chunksFrom {b : Nat} (hb : 0 < b) {cur l : List α} (hcur : cur.length ≤ b) {j : Nat}
    {g : List α} (hg : (chunksFrom b cur l)[j]? = some g) :
    g = ((cur ++ l).drop (j * b)).take b := by
  induction l generalizing cur j with
  | nil =>
    rw [chunksFrom] at hg
    obtain ⟨hj, rfl⟩ := List.getElem?_eq_some_iff.1 hg
    have hj0 : j = 0 := by simpa using hj
    subst hj0
    simp [List.take_of_length_le hcur]
  | cons x l ih =>
    unfold chunksFrom at hg
    split at hg
    · next hfull =>
      cases j with
      | zero =>
        cases hg
        rw [Nat.zero_mul, List.drop_zero, ← hfull, List.take_left]
      | succ j =>
        have hone : ([x] : List α).length ≤ b := hb
        have hnext := ih hone hg
        have hdrop : (cur ++ x :: l).drop b = x :: l := hfull ▸ List.drop_left
        rw [hnext, Nat.succ_mul, Nat.add_comm, ← List.drop_drop, List.singleton_append, hdrop]
    · next hroom =>
      have hlen : (cur ++ [x]).length ≤ b := by
        rw [List.length_append, List.length_singleton]
        omega
      rw [ih hlen hg, List.append_assoc, List.singleton_append]

/-- Group by group, an element at position `i` is in group `i / b`. -/
theorem mem_chunksFrom {b : Nat} (hb : 0 < b) {l : List α} {j : Nat} {g : List α}
    (hg : (chunksFrom b [] l)[j]? = some g) {x : α} (hx : x ∈ g) : ∃ i, l[i]? = some x ∧ i / b = j := by
  have hempty : ([] : List α).length ≤ b := Nat.zero_le b
  rw [getElem?_chunksFrom hb hempty hg, List.nil_append] at hx
  obtain ⟨i, hi, rfl⟩ := List.getElem_of_mem hx
  have hib : i < b := by
    rw [List.length_take] at hi
    omega
  refine ⟨j * b + i, ?_, ?_⟩
  · rw [List.length_take, List.length_drop] at hi
    rw [List.getElem_take, List.getElem_drop]
    exact List.getElem?_eq_getElem (by omega)
  · rw [Nat.mul_comm, Nat.mul_add_div hb, Nat.div_eq_of_lt hib, Nat.add_zero]

/-- The last group is what the full ones leave. -/
theorem getLast?_chunksFrom {b : Nat} {cur l : List α} (hcur : cur.length ≤ b ∨ b = 0) :
    (chunksFrom b cur l).getLast? = some ((cur ++ l).drop (((cur ++ l).length - 1) / b * b)) := by
  induction l generalizing cur with
  | nil =>
    have hfirst : (cur.length - 1) / b * b = 0 := by
      rcases hcur with hcur | rfl
      · by_cases hb : b = 0
        · rw [hb, Nat.mul_zero]
        · rw [Nat.div_eq_of_lt (by omega), Nat.zero_mul]
      · exact Nat.mul_zero _
    rw [List.append_nil, hfirst]
    rfl
  | cons x l ih =>
    unfold chunksFrom
    split
    · next hfull =>
      have hone : ([x] : List α).length ≤ b ∨ b = 0 := by
        rw [List.length_singleton]
        omega
      have hdrop : (cur ++ x :: l).drop b = x :: l := hfull ▸ List.drop_left
      rw [List.getLast?_cons_of_ne_nil (chunksFrom_ne_nil _ _ _), ih hone, List.singleton_append]
      congr 1
      by_cases hb : b = 0
      · subst hb
        rw [Nat.mul_zero, Nat.mul_zero, List.eq_nil_of_length_eq_zero hfull, List.nil_append]
      · have hpos : ((cur ++ x :: l).length - 1) / b = ((x :: l).length - 1) / b + 1 := by
          rw [← Nat.add_div_right _ (by omega), List.length_append, hfull, List.length_cons]
          congr 1
          omega
        rw [hpos, Nat.succ_mul, Nat.add_comm, ← List.drop_drop, hdrop]
    · next hroom =>
      have hlen : (cur ++ [x]).length ≤ b ∨ b = 0 := by
        rw [List.length_append, List.length_singleton]
        omega
      rw [ih hlen, List.append_assoc, List.singleton_append]

theorem length_flatMap_le {β : Type} {l : List α} {f : α → List β} {b : Nat}
    (h : ∀ a ∈ l, (f a).length ≤ b) : (l.flatMap f).length ≤ l.length * b := by
  induction l with
  | nil => simp
  | cons a l ih =>
    have hl := ih fun a ha => h a (List.mem_cons_of_mem _ ha)
    rw [List.flatMap_cons, List.length_append, List.length_cons, Nat.succ_mul, Nat.add_comm]
    exact Nat.add_le_add hl (h a List.mem_cons_self)

/-- Of lists put one after the other, the one of a single key. -/
theorem flatMap_ite_eq {β : Type} [DecidableEq α] {l : List α} (hl : l.Nodup) {a : α} (ha : a ∈ l)
    (xs : List β) : (l.flatMap fun b => if b = a then xs else []) = xs := by
  induction l with
  | nil => cases ha
  | cons b l ih =>
    obtain ⟨hb, hl⟩ := List.nodup_cons.1 hl
    rw [List.flatMap_cons]
    rcases List.mem_cons.1 ha with rfl | ha
    · have hrest : (l.flatMap fun b => if b = a then xs else []) = [] := by
        refine List.flatMap_eq_nil_iff.2 fun b hbl => if_neg ?_
        rintro rfl
        exact hb hbl
      rw [if_pos rfl, hrest, List.append_nil]
    · have hne : b ≠ a := fun h => hb (h ▸ ha)
      rw [if_neg hne, List.nil_append]
      exact ih hl ha

end LnConv
