import Mathlib.Algebra.GroupWithZero.Nat
import Mathlib.Order.Lattice.Nat
import Mathlib.Order.Lattice
import Mathlib.Order.WithBot
import Mathlib.Data.List.Basic

/-!
# Joins over lists

`supOf f l` is the join of `f x` over the entries of `l`, in any join
semilattice with a bottom. It depends only on which elements occur, so order,
grouping and repetition do not matter.
-/

namespace LnConv

variable {α β L : Type*} [SemilatticeSup L] [OrderBot L]

/-- The join of `f x` over the list. -/
def supOf (f : α → L) (l : List α) : L := l.foldr (fun x acc => f x ⊔ acc) ⊥

@[simp] theorem supOf_nil (f : α → L) : supOf f [] = ⊥ := rfl

@[simp] theorem supOf_cons (f : α → L) (x : α) (l : List α) :
    supOf f (x :: l) = f x ⊔ supOf f l := rfl

@[simp] theorem supOf_append (f : α → L) (l l' : List α) :
    supOf f (l ++ l') = supOf f l ⊔ supOf f l' := by
  induction l with
  | nil => simp
  | cons x l ih => simp [ih, sup_assoc]

@[simp] theorem supOf_map (f : β → L) (g : α → β) (l : List α) :
    supOf f (l.map g) = supOf (fun x => f (g x)) l := by
  induction l with
  | nil => rfl
  | cons x l ih => simp [ih]

@[simp] theorem supOf_flatMap (f : β → L) (g : α → List β) (l : List α) :
    supOf f (l.flatMap g) = supOf (fun x => supOf f (g x)) l := by
  induction l with
  | nil => rfl
  | cons x l ih => simp [ih]

theorem supOf_le_iff {f : α → L} {l : List α} {a : L} : supOf f l ≤ a ↔ ∀ x ∈ l, f x ≤ a := by
  induction l with
  | nil => simp
  | cons x l ih => simp [ih]

theorem le_supOf {f : α → L} {l : List α} {x : α} (h : x ∈ l) : f x ≤ supOf f l :=
  supOf_le_iff.1 le_rfl x h

theorem supOf_mono {f : α → L} {l l' : List α} (h : l ⊆ l') : supOf f l ≤ supOf f l' :=
  supOf_le_iff.2 fun _ hx => le_supOf (h hx)

/-- The join depends only on which elements occur. -/
theorem supOf_congr {f : α → L} {l l' : List α} (h : ∀ x, x ∈ l ↔ x ∈ l') :
    supOf f l = supOf f l' :=
  le_antisymm (supOf_mono fun x => (h x).1) (supOf_mono fun x => (h x).2)

theorem supOf_eq_bot {f : α → L} {l : List α} (h : ∀ x ∈ l, f x = ⊥) : supOf f l = ⊥ :=
  le_bot_iff.1 (supOf_le_iff.2 fun x hx => (h x hx).le)

theorem supOf_apply {ι : Type*} {M : ι → Type*} [∀ i, SemilatticeSup (M i)]
    [∀ i, OrderBot (M i)] (f : α → ∀ i, M i) (l : List α) (i : ι) :
    supOf f l i = supOf (fun x => f x i) l := by
  induction l with
  | nil => rfl
  | cons x l ih => simp [ih]

/-- In a linear order a value below a join is below one of the joined values. -/
theorem le_sup_supOf {M : Type*} [LinearOrder M] [OrderBot M] {f : α → M} {l : List α} {a b : M}
    (h : a ≤ b ⊔ supOf f l) : a ≤ b ∨ ∃ x ∈ l, a ≤ f x := by
  induction l with
  | nil => exact .inl (by simpa using h)
  | cons x l ih =>
    rw [supOf_cons, sup_left_comm] at h
    rcases le_sup_iff.1 h with h | h
    · exact .inr ⟨x, List.mem_cons_self, h⟩
    · rcases ih h with h | ⟨y, hy, h⟩
      · exact .inl h
      · exact .inr ⟨y, List.mem_cons_of_mem _ hy, h⟩

end LnConv
