import Mathlib.Data.List.Basic
import Mathlib.Data.List.Induction
import Mathlib.Tactic.Common

/-!
# Interleavings

Elements come from sources, and two lists are interleavings of the same streams if each
source's elements come in the same order. Such lists differ by swaps of neighbours from
different sources.
-/

namespace LnConv

section Interleave

variable {α β : Type} [DecidableEq β] (source : α → β)

def SameProj (l l' : List α) : Prop :=
  ∀ b, l.filter (source · = b) = l'.filter (source · = b)

variable {source} {l l' l'' : List α}

namespace SameProj

theorem refl (l : List α) : SameProj source l l := fun _ => rfl

theorem symm (h : SameProj source l l') : SameProj source l' l := fun b => (h b).symm

theorem trans (h : SameProj source l l') (h' : SameProj source l' l'') : SameProj source l l'' :=
  fun b => (h b).trans (h' b)

theorem append {m m' : List α} (h : SameProj source l l') (h' : SameProj source m m') :
    SameProj source (l ++ m) (l' ++ m') := fun b => by
  rw [List.filter_append, List.filter_append, h b, h' b]

theorem mem_iff (h : SameProj source l l') {x : α} : x ∈ l ↔ x ∈ l' := by
  have hx := congrArg (x ∈ ·) (h (source x))
  simpa using hx

/-- Lists of different sources commute. -/
theorem append_comm {l m : List α} (h : ∀ x ∈ l, ∀ y ∈ m, source x ≠ source y) :
    SameProj source (l ++ m) (m ++ l) := by
  intro b
  rw [List.filter_append, List.filter_append]
  by_cases hb : ∃ x ∈ l, source x = b
  · obtain ⟨x, hx, rfl⟩ := hb
    have hm : m.filter (source · = source x) = [] :=
      List.filter_eq_nil_iff.2 fun y hy => by simpa using (h x hx y hy).symm
    rw [hm, List.append_nil, List.nil_append]
  · push Not at hb
    have hl : l.filter (source · = b) = [] :=
      List.filter_eq_nil_iff.2 fun x hx => by simpa using hb x hx
    rw [hl, List.append_nil, List.nil_append]

/-- Two streams of different sources, which may meet anywhere. -/
theorem meet {u u' v : List α} (h : ∀ x ∈ u', ∀ y ∈ v, source x ≠ source y) (v' post : List α) :
    SameProj source (u ++ u' ++ (v ++ v') ++ post) (u ++ (v ++ (u' ++ (v' ++ post)))) := by
  have hmeet := (refl u).append ((append_comm h).append (refl (v' ++ post)))
  simpa using hmeet

theorem swap {x y : α} (h : source x ≠ source y) (pre post : List α) :
    SameProj source (pre ++ x :: y :: post) (pre ++ y :: x :: post) :=
  (refl pre).append (append (append_comm (l := [x]) (m := [y]) (by simpa using h)) (refl post))

/-- A list with the streams of two sources taken out first. -/
theorem blocks {a b : β} (hab : a ≠ b) (l : List α) :
    SameProj source l (l.filter (source · = a) ++ l.filter (source · = b) ++
      l.filter fun x => source x ≠ a ∧ source x ≠ b) := by
  intro c
  simp only [List.filter_append, List.filter_filter]
  have hc : ∀ q : α → Bool, (∀ x, source x = c → q x = false) →
      l.filter (fun x => decide (source x = c) && q x) = [] := fun q hq =>
    List.filter_eq_nil_iff.2 fun x _ => by
      by_cases hx : source x = c
      · simp [hq x hx]
      · simp [hx]
  have hc' : ∀ q : α → Bool, (∀ x, source x = c → q x = true) →
      l.filter (fun x => decide (source x = c) && q x) = l.filter (source · = c) := fun q hq =>
    List.filter_congr fun x _ => by
      by_cases hx : source x = c
      · simp [hx, hq x hx]
      · simp [hx]
  by_cases ha : c = a
  · subst ha
    rw [hc' _ (by simp), hc _ (by rintro x rfl; simpa using hab), hc _ (by rintro x rfl; simp)]
    simp
  · by_cases hb : c = b
    · subst hb
      rw [hc _ (by rintro x rfl; simpa using ha), hc' _ (by simp), hc _ (by rintro x rfl; simp)]
      simp
    · rw [hc _ (by rintro x rfl; simp [ha]), hc _ (by rintro x rfl; simp [hb]),
        hc' _ (by rintro x rfl; simp [ha, hb])]
      simp

/-- Moves `x` in front of elements of other sources. -/
theorem move {P : List α → Prop} {l₀ : List α}
    (step : ∀ pre x y post, source x ≠ source y → SameProj source l₀ (pre ++ x :: y :: post) →
      P (pre ++ x :: y :: post) → P (pre ++ y :: x :: post))
    {x : α} {xs : List α} (hxs : ∀ y ∈ xs, source y ≠ source x) (pre post : List α)
    (hl : SameProj source l₀ (pre ++ xs ++ x :: post)) (hP : P (pre ++ xs ++ x :: post)) :
    P (pre ++ x :: (xs ++ post)) := by
  induction xs using List.reverseRecOn generalizing post with
  | nil => simpa using hP
  | append_singleton xs y ih =>
    have hy : source y ≠ source x := hxs y (by simp)
    simp only [List.append_assoc, List.singleton_append] at hl hP ⊢
    rw [← List.append_assoc] at hl hP
    exact ih (fun z hz => hxs z (List.mem_append_left _ hz)) (y :: post)
      (hl.trans (swap hy _ _)) (step _ _ _ _ hy hl hP)

/-- What survives every swap of neighbours from different sources holds for all
interleavings of the same streams. -/
theorem swap_induction {P : List α → Prop} (h : SameProj source l l')
    (step : ∀ pre x y post, source x ≠ source y → SameProj source l (pre ++ x :: y :: post) →
      P (pre ++ x :: y :: post) → P (pre ++ y :: x :: post)) (hP : P l) : P l' := by
  -- the part before the remaining `l'` is in its final order
  suffices hpre : ∀ (pre m m' : List α), SameProj source l (pre ++ m) → SameProj source m m' →
      P (pre ++ m) → P (pre ++ m') from hpre [] l l' (.refl l) h hP
  intro pre m m' hl hm hP
  induction m' generalizing pre m with
  | nil =>
    have hnil : m = [] := List.eq_nil_iff_forall_not_mem.2 fun x hx => by
      simpa using hm.mem_iff.1 hx
    rwa [hnil] at hP
  | cons x m' ih =>
    have hx := hm (source x)
    rw [List.filter_cons_of_pos (by simp), List.filter_eq_cons_iff] at hx
    obtain ⟨xs, post, rfl, hxs, -, hpost⟩ := hx
    have hxs : ∀ y ∈ xs, source y ≠ source x := fun y hy => by simpa using hxs y hy
    have hmove : SameProj source (xs ++ x :: post) (x :: (xs ++ post)) := by
      have := append (append_comm (l := xs) (m := [x]) (by simpa using hxs)) (refl post)
      simpa using this
    have hrest : SameProj source (xs ++ post) m' := fun b => by
      have hb := hmove.symm.trans hm b
      simp only [List.filter_cons] at hb
      split at hb
      · exact (List.cons.inj hb).2
      · exact hb
    rw [← List.append_assoc] at hl hP
    have hP' := move step hxs pre post hl hP
    rw [List.append_assoc] at hl
    have := ih (pre ++ [x]) (xs ++ post) (by simpa using hl.trans ((refl pre).append hmove)) hrest
      (by simpa using hP')
    simpa using this

end SameProj

end Interleave

end LnConv
