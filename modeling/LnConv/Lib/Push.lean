import LnConv.Lib.Join
import LnConv.Lib.Run

/-!
# Push gossip over a join semilattice

`holds v` is what the party `v` knows and `owed u v` the join of everything `u`
still has under way to `v`. A step loses nothing if nobody forgets, what a
pushing party learns it also owes its neighbours, and what is owed is either
still owed or has arrived. Then every neighbour of a pushing party is covered,
and where nothing is owed neighbours agree.
-/

namespace LnConv

structure PushState (V L : Type*) where
  holds : V → L
  owed : V → V → L

variable {V L : Type*} [SemilatticeSup L]
variable {edge : V → V → Prop} {push : V → Prop} {s s' : PushState V L}

/-- A step that loses nothing. -/
structure LossFree (edge : V → V → Prop) (push : V → Prop) (s s' : PushState V L) : Prop where
  mono : ∀ v, s.holds v ≤ s'.holds v
  queued : ∀ u v, edge u v → push u → s'.holds u ≤ s.holds u ⊔ s'.owed u v
  kept : ∀ u v, edge u v → s.owed u v ≤ s'.holds v ⊔ s'.owed u v

/-- Whatever a pushing party knows, its neighbour knows or is owed. -/
def Covered (edge : V → V → Prop) (push : V → Prop) (s : PushState V L) : Prop :=
  ∀ u v, edge u v → push u → s.holds u ≤ s.holds v ⊔ s.owed u v

theorem Covered.step (h : Covered edge push s) (hs : LossFree edge push s s') :
    Covered edge push s' := by
  intro u v he hp
  have hold : s.holds u ≤ s'.holds v ⊔ s'.owed u v :=
    calc s.holds u ≤ s.holds v ⊔ s.owed u v := h u v he hp
      _ ≤ s'.holds v ⊔ (s'.holds v ⊔ s'.owed u v) := sup_le_sup (hs.mono v) (hs.kept u v he)
      _ = s'.holds v ⊔ s'.owed u v := by rw [← sup_assoc, sup_idem]
  exact (hs.queued u v he hp).trans (sup_le hold le_sup_right)

/-- Along a relation that only lets knowledge grow, paths do as well. -/
theorem holds_le_of_path {R : V → V → Prop} {k : V → L} (h : ∀ u v, R u v → k u ≤ k v)
    {u v : V} (hp : Relation.ReflTransGen R u v) : k u ≤ k v := by
  induction hp with
  | refl => exact le_rfl
  | tail _ hr ih => exact ih.trans (h _ _ hr)

theorem Covered.le_of_quiet [OrderBot L] (h : Covered edge push s) {u v : V} (he : edge u v)
    (hp : push u) (hq : s.owed u v = ⊥) : s.holds u ≤ s.holds v := by
  simpa [hq] using h u v he hp

end LnConv
