import Mathlib.Data.List.Basic
import Mathlib.Data.List.Nodup
import Mathlib.Tactic.Common

/-!
# Lists that know their positions

An unordered list is kept with a map from its elements to their positions. Taking an
element out moves the last one into its place, and only that one's position changes.
-/

namespace LnConv

variable {α : Type}

/-- Element `pos` is replaced by the last one; `none` out of range. -/
def swapRemove (l : List α) (pos : Nat) : Option (List α) :=
  match l.getLast? with
  | none => none
  | some last => if pos < l.length then some (l.set pos last).dropLast else none

theorem swapRemove_concat {l : List α} {last : α} {pos : Nat} (h : pos ≤ l.length) :
    swapRemove (l ++ [last]) pos = some (l.set pos last) := by
  have hlt : pos < (l ++ [last]).length := by simp; omega
  simp only [swapRemove, List.getLast?_concat, hlt, if_true, Option.some.injEq]
  rcases Nat.lt_or_eq_of_le h with hp | rfl
  · rw [List.set_append_left _ _ hp, List.dropLast_concat]
  · rw [List.set_append_right _ _ (Nat.le_refl _), List.set_eq_of_length_le (Nat.le_refl _)]
    simp

/-- What is found at the places of the list without its last element, which was put at `p`. -/
theorem getElem?_set_eq_some {init : List α} {last y : α} {p i : Nat} :
    (init.set p last)[i]? = some y ↔
      i < init.length ∧ (if i = p then y = last else (init ++ [last])[i]? = some y) := by
  rcases Nat.lt_or_ge i init.length with hi | hi
  · by_cases hip : i = p
    · subst hip
      simp [hi, eq_comm]
    · rw [List.getElem?_set_ne (Ne.symm hip), List.getElem?_append_left hi]
      simp [hi, hip]
  · rw [List.getElem?_eq_none (by simpa using hi)]
    simp [Nat.not_lt.2 hi]

/-- `pos` is the inverse of the list. -/
def Indexed (l : List α) (pos : α → Option Nat) : Prop := ∀ x i, pos x = some i ↔ l[i]? = some x

namespace Indexed

variable {l : List α} {pos : α → Option Nat}

theorem nodup (h : Indexed l pos) : l.Nodup := by
  rw [List.nodup_iff_getElem?_ne_getElem?]
  intro i j hij hj heq
  have hx : l[j]? = some l[j] := List.getElem?_eq_getElem hj
  have := ((h _ _).2 hx).symm.trans ((h _ _).2 (heq.trans hx))
  cases this
  exact Nat.lt_irrefl _ hij

theorem mem_iff (h : Indexed l pos) {x : α} : x ∈ l ↔ (pos x).isSome := by
  rw [List.mem_iff_getElem?, Option.isSome_iff_exists]
  exact exists_congr fun i => (h x i).symm

/-- The positions, once the last element is put at the place of `x`. -/
theorem set_last [DecidableEq α] {init : List α} {last x : α} {p : Nat}
    (h : Indexed (init ++ [last]) pos) (hx : pos x = some p) (hle : p ≤ init.length) :
    Indexed (init.set p last) fun y =>
      if y = x then none else if (init.set p last)[p]? = some y then some p else pos y := by
  have hp : (init ++ [last])[p]? = some x := (h x p).1 hx
  have hlast : (init ++ [last])[init.length]? = some last := by simp
  intro y i
  rw [getElem?_set_eq_some]
  dsimp only
  by_cases hyx : y = x
  · subst hyx
    simp only [if_true, reduceCtorEq, false_iff, not_and]
    intro hi
    split
    · -- the last element is not the one taken out
      next hip =>
      rintro rfl
      have hpos := ((h _ _).2 hlast).symm.trans hx
      cases hpos
      omega
    · next hip =>
      intro hy
      have hpos := ((h _ _).2 hy).symm.trans hx
      cases hpos
      exact hip rfl
  · rw [if_neg hyx]
    simp only [getElem?_set_eq_some, if_true]
    split
    · next hy =>
      obtain ⟨hlt, rfl⟩ := hy
      constructor
      · intro hi
        cases hi
        simp [hlt]
      · rintro ⟨hi, hy⟩
        split at hy
        · next hip => rw [hip]
        · have hpos := ((h _ _).2 hlast).symm.trans ((h _ _).2 hy)
          cases hpos
          omega
    · next hy =>
      rw [h]
      constructor
      · intro hi
        have hne : i ≠ p := by
          rintro rfl
          rw [hp] at hi
          exact hyx (Option.some.inj hi).symm
        rw [if_neg hne]
        refine ⟨?_, hi⟩
        have hlt := (List.getElem?_eq_some_iff.1 hi).1
        rw [List.length_append, List.length_singleton] at hlt
        rcases Nat.lt_or_eq_of_le (Nat.le_of_lt_succ hlt) with hlt | heq
        · exact hlt
        · rw [heq, hlast] at hi
          -- the last place holds `y`, which moved if `p` is before it
          rcases Nat.lt_or_eq_of_le hle with hpl | hpl
          · exact absurd ⟨hpl, (Option.some.inj hi).symm⟩ hy
          · exact absurd (heq.trans hpl.symm) hne
      · rintro ⟨hi, hy'⟩
        split at hy'
        · next hip =>
          subst hip
          exact absurd ⟨hi, hy'⟩ hy
        · exact hy'

/-- Taking out an element, with the update of the positions. -/
theorem swapRemove [DecidableEq α] (h : Indexed l pos) {x : α} {p : Nat} (hx : pos x = some p) :
    ∃ l', LnConv.swapRemove l p = some l' ∧ (∀ y, y ∈ l' ↔ y ∈ l ∧ y ≠ x) ∧
      Indexed l' fun y => if y = x then none else if l'[p]? = some y then some p else pos y := by
  have hlen : p < l.length := (List.getElem?_eq_some_iff.1 ((h x p).1 hx)).1
  rcases List.eq_nil_or_concat' l with rfl | ⟨init, last, rfl⟩
  · simp at hlen
  have hle : p ≤ init.length := by simp at hlen; omega
  have hidx := h.set_last hx hle
  refine ⟨init.set p last, swapRemove_concat hle, fun y => ?_, hidx⟩
  rw [hidx.mem_iff, h.mem_iff]
  by_cases hyx : y = x
  · simp [hyx]
  · simp only [hyx, if_false, ne_eq, not_false_eq_true, and_true]
    split
    · next hy =>
      have hmem : y ∈ init ++ [last] := by
        obtain ⟨-, hy⟩ := getElem?_set_eq_some.1 hy
        simp only [if_true] at hy
        simp [hy]
      simp [h.mem_iff.1 hmem]
    · rfl

end Indexed

end LnConv
