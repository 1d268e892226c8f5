import Mathlib.Algebra.GroupWithZero.Nat
import Mathlib.Order.Lattice.Nat
import Mathlib.Algebra.BigOperators.Group.List.Basic
import Mathlib.Data.List.Nodup

/-!
# Balanced accounts

Parties book what they send and what they receive; the rest is in transit. A
ledger is balanced if everything sent is received or in transit, and a booking at
one party keeps it so if it books what leaves and enters the transit.
-/

namespace LnConv

variable {V : Type*}

def total (parties : List V) (f : V → Nat) : Nat := (parties.map f).sum

theorem total_congr {parties : List V} {f g : V → Nat} (h : ∀ v ∈ parties, f v = g v) :
    total parties f = total parties g := by
  rw [total, total, List.map_congr_left h]

/-- Taking one entry off a list takes its amount off the sum. -/
theorem sum_eraseIdx {l : List V} {i : Nat} {x : V} (h : l[i]? = some x) (f : V → Nat) :
    ((l.eraseIdx i).map f).sum + f x = (l.map f).sum := by
  induction l generalizing i with
  | nil => simp at h
  | cons y l ih =>
    cases i with
    | zero =>
      rw [List.getElem?_cons_zero, Option.some.injEq] at h
      simp [h, Nat.add_comm]
    | succ i =>
      rw [List.getElem?_cons_succ] at h
      have := ih h
      simp only [List.eraseIdx_cons_succ, List.map_cons, List.sum_cons]
      omega

variable [DecidableEq V]

/-- Changing the entry of one party. -/
theorem total_update {parties : List V} (hn : parties.Nodup) {u : V} (hu : u ∈ parties)
    (f : V → Nat) (x : Nat) : total parties (Function.update f u x) + f u = total parties f + x := by
  induction parties with
  | nil => cases hu
  | cons v vs ih =>
    obtain ⟨hv, hn⟩ := List.nodup_cons.1 hn
    simp only [total, List.map_cons, List.sum_cons] at ih ⊢
    rcases List.mem_cons.1 hu with rfl | hu
    · have hcongr : total vs (Function.update f u x) = total vs f :=
        total_congr fun w hw => Function.update_of_ne (ne_of_mem_of_not_mem hw hv) _ _
      simp only [total] at hcongr
      rw [hcongr, Function.update_self]
      omega
    · have hne : v ≠ u := (ne_of_mem_of_not_mem hu hv).symm
      rw [Function.update_of_ne hne]
      have := ih hn hu
      omega

structure Ledger (V : Type*) where
  sent : V → Nat
  received : V → Nat
  transit : Nat

def Ledger.Balanced (parties : List V) (l : Ledger V) : Prop :=
  total parties l.sent = total parties l.received + l.transit

/-- One party books `a` as sent and `b` as received. -/
theorem Ledger.Balanced.book {parties : List V} {l l' : Ledger V} (h : l.Balanced parties)
    (hn : parties.Nodup) {u : V} (hu : u ∈ parties) {a b : Nat}
    (hs : l'.sent = Function.update l.sent u (l.sent u + a))
    (hr : l'.received = Function.update l.received u (l.received u + b))
    (ht : l'.transit + b = l.transit + a) : l'.Balanced parties := by
  have h1 := total_update hn hu l.sent (l.sent u + a)
  have h2 := total_update hn hu l.received (l.received u + b)
  unfold Ledger.Balanced at h ⊢
  rw [hs, hr]
  omega

end LnConv
