import Mathlib.Order.Filter.AtTopBot.Basic

/-!
# Loops that may fail

A loop over a list is `foldlM` in `Option`. Two loops agree up to a view of the state where
their bodies do, and one follows another where its body does; what the body keeps, the loop
keeps, and what it brings about for one element, the loop brings about for all; a loop whose
body is defined for all large enough amounts of fuel is itself.
-/

namespace LnConv

open Filter

variable {S S' T A : Type*}

theorem foldlM_view_congr {f : S → A → Option S} {f' : S' → A → Option S'} {g : S → T} {g' : S' → T}
    {l : List A} (hf : ∀ s s', ∀ x ∈ l, g s = g' s' → (f s x).map g = (f' s' x).map g')
    {s : S} {s' : S'} (h : g s = g' s') : (l.foldlM f s).map g = (l.foldlM f' s').map g' := by
  induction l generalizing s s' with
  | nil => exact congrArg some h
  | cons x l ih =>
    rw [List.foldlM_cons, List.foldlM_cons]
    have hx := hf s s' x List.mem_cons_self h
    cases hs : f s x with
    | none =>
      rw [hs, Option.map_none, eq_comm, Option.map_eq_none_iff] at hx
      rw [hx]
      rfl
    | some r =>
      rw [hs, Option.map_some, eq_comm, Option.map_eq_some_iff] at hx
      obtain ⟨r', hr', hx⟩ := hx
      rw [hr']
      exact ih (fun a a' y hy => hf a a' y (List.mem_cons_of_mem _ hy)) hx.symm

theorem foldlM_invariant {f : S → A → Option S} {P : S → Prop} {l : List A}
    (hf : ∀ s, ∀ x ∈ l, ∀ s', P s → f s x = some s' → P s') {s s' : S} (h : P s)
    (hs : l.foldlM f s = some s') : P s' := by
  induction l generalizing s with
  | nil =>
    cases hs
    exact h
  | cons x l ih =>
    rw [List.foldlM_cons, Option.bind_eq_bind, Option.bind_eq_some_iff] at hs
    obtain ⟨r, hr, hs⟩ := hs
    exact ih (fun a y hy => hf a y (List.mem_cons_of_mem _ hy)) (hf s x List.mem_cons_self r h hr) hs

/-- Where `x` has a result, so has `y`, and `R` relates the two. -/
def Follows (R : S → T → Prop) (x : Option S) (y : Option T) : Prop :=
  ∀ s, x = some s → ∃ t, y = some t ∧ R s t

namespace Follows

variable {T' : Type*} {R : S → T → Prop} {R' : S' → T' → Prop} {x : Option S} {y : Option T}

theorem some {s : S} {t : T} (h : R s t) : Follows R (.some s) (.some t) := fun _ hs => by
  cases hs
  exact ⟨t, rfl, h⟩

theorem none : Follows R .none y := fun _ hs => by cases hs

theorem bind {f : S → Option S'} {g : T → Option T'} (h : Follows R x y)
    (hf : ∀ s t, R s t → Follows R' (f s) (g t)) : Follows R' (x.bind f) (y.bind g) := by
  intro s' hs'
  obtain ⟨s, hs, hs'⟩ := Option.bind_eq_some_iff.1 hs'
  obtain ⟨t, ht, hR⟩ := h s hs
  obtain ⟨t', ht', hR'⟩ := hf s t hR s' hs'
  exact ⟨t', by rw [ht, Option.bind_some, ht'], hR'⟩

/-- Both continue with the same result. -/
theorem bind_same {z : Option A} {f : A → Option S} {g : A → Option T}
    (hf : ∀ r, Follows R (f r) (g r)) : Follows R (z.bind f) (z.bind g) :=
  bind (fun r hr => ⟨r, hr, rfl⟩) fun r _ hr => hr ▸ hf r

theorem foldlM {f : S → A → Option S} {g : T → A → Option T} {l : List A}
    (hf : ∀ s t, ∀ x ∈ l, R s t → Follows R (f s x) (g t x)) {s : S} {t : T} (h : R s t) :
    Follows R (l.foldlM f s) (l.foldlM g t) := by
  induction l generalizing s t with
  | nil => exact .some h
  | cons x l ih =>
    rw [List.foldlM_cons, List.foldlM_cons]
    exact (hf s t x List.mem_cons_self h).bind fun s t hst =>
      ih (fun s t y hy => hf s t y (List.mem_cons_of_mem _ hy)) hst

end Follows

/-- What a round brings about for its element, and every round keeps, holds for all elements. -/
theorem foldlM_forall {f : S → A → Option S} {P : S → Prop} {Q : A → S → Prop} {l : List A}
    (hf : ∀ s, ∀ x ∈ l, ∀ s', P s → f s x = some s' → P s' ∧ Q x s' ∧ ∀ y, Q y s → Q y s') {s s' : S}
    (h : P s) (hs : l.foldlM f s = some s') : P s' ∧ (∀ x ∈ l, Q x s') ∧ ∀ y, Q y s → Q y s' := by
  induction l generalizing s with
  | nil =>
    cases hs
    exact ⟨h, List.forall_mem_nil _, fun _ hy => hy⟩
  | cons x l ih =>
    rw [List.foldlM_cons, Option.bind_eq_bind, Option.bind_eq_some_iff] at hs
    obtain ⟨r, hr, hs⟩ := hs
    obtain ⟨hP, hx, hkeep⟩ := hf s x List.mem_cons_self r h hr
    obtain ⟨hP', hl, hkeep'⟩ := ih (fun a y hy => hf a y (List.mem_cons_of_mem _ hy)) hP hs
    exact ⟨hP', List.forall_mem_cons.2 ⟨hkeep' x hx, hl⟩, fun y hy => hkeep' y (hkeep y hy)⟩

/-- A loop runs to its end where its body does, and adds to a measure what its rounds add. -/
theorem exists_foldlM_le {f : S → A → Option S} {P : S → Prop} (μ : S → Nat) {l : List A}
    (hf : ∀ s, ∀ x ∈ l, P s → ∃ s', f s x = some s' ∧ P s' ∧ μ s' ≤ μ s + 1) {s : S} (h : P s) :
    ∃ s', l.foldlM f s = some s' ∧ P s' ∧ μ s' ≤ μ s + l.length := by
  induction l generalizing s with
  | nil => exact ⟨s, rfl, h, Nat.le_refl _⟩
  | cons x l ih =>
    obtain ⟨r, hr, hPr, hμr⟩ := hf s x List.mem_cons_self h
    obtain ⟨s', hs', hP, hμ⟩ := ih (fun a y hy => hf a y (List.mem_cons_of_mem _ hy)) hPr
    refine ⟨s', ?_, hP, ?_⟩
    · rw [List.foldlM_cons, hr]
      exact hs'
    · rw [List.length_cons]
      omega

theorem exists_foldlM {f : S → A → Option S} {P : S → Prop} {l : List A}
    (hf : ∀ s, ∀ x ∈ l, P s → ∃ s', f s x = some s' ∧ P s') {s : S} (h : P s) :
    ∃ s', l.foldlM f s = some s' ∧ P s' := by
  obtain ⟨s', hs', hP, -⟩ := exists_foldlM_le (fun _ => 0) (fun s x hx hs => by
    obtain ⟨r, hr, hPr⟩ := hf s x hx hs
    exact ⟨r, hr, hPr, Nat.zero_le _⟩) h
  exact ⟨s', hs', hP⟩

theorem eventually_bind {f : Nat → Option S} {g : Nat → S → Option T} {s : S} {r : T}
    (hf : ∀ᶠ fuel in atTop, f fuel = some s) (hg : ∀ᶠ fuel in atTop, g fuel s = some r) :
    ∀ᶠ fuel in atTop, (f fuel).bind (g fuel) = some r := by
  filter_upwards [hf, hg] with fuel hf hg
  rw [hf, Option.bind_some, hg]

theorem eventually_map {f : Nat → Option S} {s : S} (g : S → T)
    (hf : ∀ᶠ fuel in atTop, f fuel = some s) : ∀ᶠ fuel in atTop, (f fuel).map g = some (g s) := by
  filter_upwards [hf] with fuel hf
  rw [hf, Option.map_some]

theorem eventually_foldlM {f : Nat → S → A → Option S} {P : S → Prop} {l : List A}
    (hf : ∀ s, ∀ x ∈ l, P s → ∃ s', P s' ∧ ∀ᶠ fuel in atTop, f fuel s x = some s') {s : S} (h : P s) :
    ∃ s', P s' ∧ ∀ᶠ fuel in atTop, l.foldlM (f fuel) s = some s' := by
  induction l generalizing s with
  | nil => exact ⟨s, h, Eventually.of_forall fun _ => rfl⟩
  | cons x l ih =>
    obtain ⟨r, hr, hx⟩ := hf s x List.mem_cons_self h
    obtain ⟨s', hs', hl⟩ := ih (fun a y hy => hf a y (List.mem_cons_of_mem _ hy)) hr
    refine ⟨s', hs', ?_⟩
    simp only [List.foldlM_cons]
    exact eventually_bind hx hl

end LnConv
