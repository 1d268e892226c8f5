import Mathlib.Data.List.Basic
import Mathlib.Data.List.Induction
import Mathlib.Tactic.Common

/-!
# Reservoir sampling

`Reservoir.observe` is Algorithm R. The generator is the list of its outcomes:
observation number `k` (from 0) past the warm-up draws `draw k`, any number up to `k`.
-/

namespace LnConv

/-- The outcomes of `random_range(0..=k)`. -/
structure Draws where
  draw : Nat → Nat
  draw_le : ∀ k, draw k ≤ k

def Draws.zero : Draws := ⟨fun _ => 0, Nat.zero_le⟩

/-- The observations a slot of the buffer can hold. -/
def FromRound (capacity i k : Nat) : Prop := k = i ∨ capacity ≤ k

structure Reservoir (α : Type) where
  buf : List α
  capacity : Nat
  seen : Nat
  rng : Draws

namespace Reservoir

variable {α : Type}

def new (capacity : Nat) (rng : Draws) : Reservoir α := ⟨[], capacity, 0, rng⟩

def observe (r : Reservoir α) (x : α) : Reservoir α :=
  let buf :=
    if r.buf.length < r.capacity then r.buf ++ [x]
    else
      let j := r.rng.draw r.seen
      if j < r.capacity then r.buf.set j x else r.buf
  { r with buf := buf, seen := r.seen + 1 }

def observeAll (r : Reservoir α) (xs : List α) : Reservoir α := xs.foldl observe r

@[simp] theorem observeAll_nil (r : Reservoir α) : r.observeAll [] = r := rfl

theorem observeAll_append (r : Reservoir α) (xs ys : List α) :
    r.observeAll (xs ++ ys) = (r.observeAll xs).observeAll ys := List.foldl_append

@[simp] theorem capacity_observe (r : Reservoir α) (x : α) :
    (r.observe x).capacity = r.capacity := rfl

@[simp] theorem seen_observe (r : Reservoir α) (x : α) : (r.observe x).seen = r.seen + 1 := rfl

@[simp] theorem rng_observe (r : Reservoir α) (x : α) : (r.observe x).rng = r.rng := rfl

theorem observeAll_concat (r : Reservoir α) (xs : List α) (x : α) :
    r.observeAll (xs ++ [x]) = (r.observeAll xs).observe x := observeAll_append r xs [x]

/-- After `xs` slot `i` holds item `i` or one observed after the warm-up. -/
theorem observeAll_new (cap : Nat) (rng : Draws) (xs : List α) :
    ((new cap rng).observeAll xs).capacity = cap ∧ ((new cap rng).observeAll xs).seen = xs.length ∧
      ((new cap rng).observeAll xs).rng = rng ∧
      ((new cap rng).observeAll xs).buf.length = min cap xs.length ∧
      ∀ i x, ((new cap rng).observeAll xs).buf[i]? = some x →
        ∃ k, FromRound cap i k ∧ xs[k]? = some x := by
  induction xs using List.reverseRecOn with
  | nil => simp [new]
  | append_singleton xs y ih =>
    rw [observeAll_concat]
    generalize (new cap rng).observeAll xs = r at ih ⊢
    obtain ⟨hcap, hseen, hrng, hlen, hbuf⟩ := ih
    have hold : ∀ i x, r.buf[i]? = some x →
        ∃ k, FromRound cap i k ∧ (xs ++ [y])[k]? = some x := by
      intro i x hx
      obtain ⟨k, hk, hxk⟩ := hbuf i x hx
      exact ⟨k, hk, by rw [List.getElem?_append_left (List.getElem?_eq_some_iff.1 hxk).1, hxk]⟩
    refine ⟨hcap, by simp [hseen], hrng, ?_, fun i x hx => ?_⟩
    · simp only [observe, hcap, List.length_append, List.length_singleton]
      split
      · rw [List.length_append, List.length_singleton]; omega
      · split
        · rw [List.length_set]; omega
        · omega
    · simp only [observe, hcap] at hx
      split at hx
      · -- the warm-up appends item number `xs.length`
        next hlt =>
        rcases Nat.lt_or_ge i r.buf.length with hi | hi
        · exact hold i x (by rwa [List.getElem?_append_left hi] at hx)
        · have hlast : i = xs.length := by
            have := (List.getElem?_eq_some_iff.1 hx).1
            rw [List.length_append, List.length_singleton] at this
            omega
          refine ⟨i, .inl rfl, ?_⟩
          rw [List.getElem?_append_right hi] at hx
          rw [hlast, List.getElem?_append_right (Nat.le_refl _)]
          simpa [show i - r.buf.length = 0 by omega] using hx
      · next hge =>
        split at hx
        · rw [List.getElem?_set] at hx
          split at hx
          · split at hx
            · cases hx
              exact ⟨xs.length, .inr (by omega), by simp⟩
            · cases hx
          · exact hold i x hx
        · exact hold i x hx

end Reservoir

/-- The draws that leave every slot alone, but put observation `k` into slot `i`. -/
def Draws.hit (i k : Nat) : Draws where
  draw m := if m = k then min i m else m
  draw_le m := by split <;> omega

theorem Draws.hit_draw (i k m : Nat) : (Draws.hit i k).draw m = if m = k then min i m else m := rfl

namespace Reservoir

variable {α : Type}

/-- Until observation `k` nothing is replaced. -/
theorem observeAll_hit_before {cap i k : Nat} {xs : List α} (h : k < cap ∨ xs.length ≤ k) :
    ((new cap (.hit i k)).observeAll xs).buf = xs.take cap := by
  induction xs using List.reverseRecOn with
  | nil => simp [new]
  | append_singleton xs y ih =>
    rw [List.length_append, List.length_singleton] at h
    have ih := ih (h.imp id (by omega))
    obtain ⟨hcap, hseen, hrng, -, -⟩ := observeAll_new cap (.hit i k) xs
    rw [observeAll_concat]
    simp only [observe, hcap, hseen, hrng, ih, List.length_take, Draws.hit_draw]
    rcases Nat.lt_or_ge xs.length cap with hlt | hge
    · rw [if_pos (by omega), List.take_of_length_le (Nat.le_of_lt hlt),
        List.take_of_length_le (by rw [List.length_append, List.length_singleton]; omega)]
    · rw [if_neg (by omega), if_neg (by split <;> omega), List.take_append_of_le_length hge]

theorem observeAll_hit_after {cap i k : Nat} {xs : List α} (hi : i < cap) (hk : cap ≤ k)
    (h : k < xs.length) : ((new cap (.hit i k)).observeAll xs).buf[i]? = xs[k]? := by
  induction xs using List.reverseRecOn with
  | nil => cases h
  | append_singleton xs y ih =>
    rw [List.length_append, List.length_singleton] at h
    obtain ⟨hcap, hseen, hrng, hlen, -⟩ := observeAll_new cap (.hit i k) xs
    rw [observeAll_concat]
    simp only [observe, hcap, hseen, hrng, Draws.hit_draw]
    rw [if_neg (by omega)]
    rcases Nat.lt_succ_iff_lt_or_eq.1 h with hlt | rfl
    · rw [if_neg (by split <;> omega), ih hlt, List.getElem?_append_left hlt]
    · rw [if_pos rfl, if_pos (by omega), Nat.min_eq_left (by omega),
        List.getElem?_append_right (Nat.le_refl _), List.getElem?_set_self (by omega)]
      simp

/-- Every item a slot can hold it does hold for some draws. -/
theorem observeAll_hit {cap i k : Nat} {xs : List α} (hi : i < cap)
    (hk : FromRound cap i k) (h : k < xs.length) :
    ((new cap (.hit i k)).observeAll xs).buf[i]? = xs[k]? := by
  rcases hk with rfl | hk
  · rw [observeAll_hit_before (.inl hi), List.getElem?_take_of_lt hi]
  · exact observeAll_hit_after hi hk h

end Reservoir

end LnConv
