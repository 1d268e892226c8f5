import Mathlib.Logic.Relation

/-!
# Runs of a labelled system

`step s l` is the state after the action `l`, or `none` where `l` is not
enabled. `run` follows a list of actions; `Steps ok` is a run whose every
action satisfies `ok` in the state it is taken from.
-/

namespace LnConv

variable {S A : Type*} {step : S → A → Option S} {ok : S → A → Prop}

def run (step : S → A → Option S) : S → List A → Option S
  | s, [] => some s
  | s, a :: as => (step s a).bind fun s' => run step s' as

inductive Steps (step : S → A → Option S) (ok : S → A → Prop) : S → List A → S → Prop where
  | nil (s : S) : Steps step ok s [] s
  | cons {s s' s'' : S} {a : A} {as : List A} : ok s a → step s a = some s' →
      Steps step ok s' as s'' → Steps step ok s (a :: as) s''

theorem steps_of_run {s s' : S} {as : List A} (h : run step s as = some s') :
    Steps step (fun _ _ => True) s as s' := by
  induction as generalizing s with
  | nil => cases h; exact .nil _
  | cons a as ih =>
    simp only [run, Option.bind_eq_some_iff] at h
    obtain ⟨t, ht, h⟩ := h
    exact .cons trivial ht (ih h)

theorem Steps.run_eq {s s' : S} {as : List A} (h : Steps step ok s as s') :
    run step s as = some s' := by
  induction h with
  | nil => rfl
  | cons _ hs _ ih => simp [run, hs, ih]

theorem Steps.imp {ok' : S → A → Prop} (hi : ∀ s a, ok s a → ok' s a) {s s' : S} {as : List A}
    (h : Steps step ok s as s') : Steps step ok' s as s' := by
  induction h with
  | nil => exact .nil _
  | cons ho hs _ ih => exact .cons (hi _ _ ho) hs ih

theorem Steps.append {s s' s'' : S} {as bs : List A} (h : Steps step ok s as s')
    (h' : Steps step ok s' bs s'') : Steps step ok s (as ++ bs) s'' := by
  induction h with
  | nil => exact h'
  | cons ho hs _ ih => exact .cons ho hs (ih h')

/-- A run that checks every action before it takes it. -/
def runOk (step : S → A → Option S) (ok : S → A → Prop) [∀ s a, Decidable (ok s a)] :
    S → List A → Option S
  | s, [] => some s
  | s, a :: as => if ok s a then (step s a).bind fun s' => runOk step ok s' as else none

theorem steps_of_runOk [∀ s a, Decidable (ok s a)] {s s' : S} {as : List A}
    (h : runOk step ok s as = some s') : Steps step ok s as s' := by
  induction as generalizing s with
  | nil => cases h; exact .nil _
  | cons a as ih =>
    simp only [runOk] at h
    split at h
    · next ho =>
      obtain ⟨t, ht, h⟩ := Option.bind_eq_some_iff.1 h
      exact .cons ho ht (ih h)
    · cases h

/-- A run evaluated, from a start that is computed too. -/
theorem steps_of_any (step : S → A → Option S) (ok : S → A → Prop) [∀ s a, Decidable (ok s a)]
    (start : Option S) (as : List A) (p : S → Bool)
    (h : (start.any fun s => (runOk step ok s as).any p) = true) :
    ∃ s s', start = some s ∧ Steps step ok s as s' ∧ p s' = true := by
  obtain ⟨s, hs, h⟩ := (Option.any_eq_true _ _).1 h
  obtain ⟨s', hs', hp⟩ := (Option.any_eq_true _ _).1 h
  exact ⟨s, s', hs, steps_of_runOk hs', hp⟩

/-- A run and one more step. -/
theorem step_of_any (step : S → A → Option S) (ok : S → A → Prop) [∀ s a, Decidable (ok s a)]
    (start : Option S) (as : List A) (a : A) (P : S → S → Prop) [∀ s s', Decidable (P s s')]
    (h : (start.any fun s => (runOk step ok s as).any fun s => decide (ok s a) &&
      (step s a).any fun s' => decide (P s s')) = true) :
    ∃ s₀ s s', start = some s₀ ∧ Steps step ok s₀ as s ∧ ok s a ∧ step s a = some s' ∧ P s s' := by
  obtain ⟨s₀, s, hs₀, hs, h⟩ := steps_of_any step ok start as _ h
  obtain ⟨ha, h⟩ := Bool.and_eq_true_iff.1 h
  obtain ⟨s', hs', hP⟩ := (Option.any_eq_true _ _).1 h
  exact ⟨s₀, s, s', hs₀, hs, of_decide_eq_true ha, hs', of_decide_eq_true hP⟩

theorem run_append {s : S} {as bs : List A} :
    run step s (as ++ bs) = (run step s as).bind fun t => run step t bs := by
  induction as generalizing s with
  | nil => rfl
  | cons a as ih =>
    simp only [List.cons_append, run, Option.bind_assoc]
    exact congrArg _ (funext fun _ => ih)

/-- What the steps of a run give out. -/
def collect {B : Type*} (step : S → A → Option S) (out : S → A → List B) : S → List A → List B
  | _, [] => []
  | s, a :: as => out s a ++ (step s a).elim [] fun s' => collect step out s' as

/-- A run whose steps are simulated by permitted steps is simulated by a permitted run. -/
theorem run_simulated {T B : Type*} {step' : T → B → Option T} {ok' : T → B → Prop} {label : B → A}
    {R : S → T → Prop} (hstep : ∀ s t a s', R s t → step s a = some s' →
      ∃ b t', label b = a ∧ ok' t b ∧ step' t b = some t' ∧ R s' t') {s s' : S} {t : T} {as : List A}
    (h : R s t) (hr : run step s as = some s') :
    ∃ bs t', bs.map label = as ∧ Steps step' ok' t bs t' ∧ R s' t' := by
  induction as generalizing s t with
  | nil =>
    cases hr
    exact ⟨[], t, rfl, .nil t, h⟩
  | cons a as ih =>
    obtain ⟨r, hr₁, hr⟩ := Option.bind_eq_some_iff.1 hr
    obtain ⟨b, t₁, hb, hok, ht₁, hR⟩ := hstep s t a r h hr₁
    obtain ⟨bs, t', hbs, hsteps, hR'⟩ := ih hR hr
    exact ⟨b :: bs, t', by rw [List.map_cons, hb, hbs], .cons hok ht₁ hsteps, hR'⟩

/-- What every permitted step preserves of a state and of all that was given out up to it. -/
theorem Steps.collect_invariant {B : Type*} {out : S → A → List B} {P : S → List B → Prop}
    {s s' : S} {as : List A} {bs : List B} (h : Steps step ok s as s') (hP : P s bs)
    (hstep : ∀ s a s' bs, P s bs → ok s a → step s a = some s' → P s' (bs ++ out s a)) :
    P s' (bs ++ collect step out s as) := by
  induction h generalizing bs with
  | nil => rwa [collect, List.append_nil]
  | cons ho hs _ ih =>
    rw [collect, hs, Option.elim_some, ← List.append_assoc]
    exact ih (hstep _ _ _ _ hP ho hs)

/-- Along a run every step gives out what the run gives out. -/
theorem Steps.of_collect {B : Type*} {out : S → A → List B} {s s' : S} {as : List A} {bs : List B}
    (h : Steps step ok s as s') (hb : collect step out s as ⊆ bs) :
    Steps step (fun s a => ok s a ∧ out s a ⊆ bs) s as s' := by
  induction h with
  | nil => exact .nil _
  | cons ho hs _ ih =>
    rw [collect, hs, Option.elim_some, List.append_subset] at hb
    exact .cons ⟨ho, hb.1⟩ hs (ih hb.2)

/-- What every permitted step preserves holds at the end of every permitted run. -/
theorem Steps.invariant {P : S → Prop} {s s' : S} {as : List A} (h : Steps step ok s as s')
    (hP : P s) (hstep : ∀ s a s', P s → ok s a → step s a = some s' → P s') : P s' := by
  induction h with
  | nil => exact hP
  | cons ho hs _ ih => exact ih (hstep _ _ _ hP ho hs)

theorem run_invariant {P : S → Prop} {s s' : S} {as : List A} (h : run step s as = some s')
    (hP : P s) (hstep : ∀ s a s', P s → step s a = some s' → P s') : P s' :=
  (steps_of_run h).invariant hP fun s a s' hp _ => hstep s a s' hp

/-- What every step preserves may permit the steps of a run. -/
theorem steps_of_invariant {P : S → Prop} {s s' : S} {as : List A} (h : run step s as = some s')
    (hP : P s) (hstep : ∀ s a s', P s → step s a = some s' → P s') (hok : ∀ s a, P s → ok s a) :
    Steps step ok s as s' := by
  induction as generalizing s with
  | nil => cases h; exact .nil _
  | cons a as ih =>
    obtain ⟨t, ht, h⟩ := Option.bind_eq_some_iff.1 h
    exact .cons (hok _ _ hP) ht (ih h (hstep _ _ _ hP ht))

/-! ## Queues -/

/-- What is in a queue is taken out of it or stays. -/
theorem mem_or_mem_eraseIdx {α : Type*} {l : List α} {i : Nat} {x y : α} (h : l[i]? = some x)
    (hy : y ∈ l) : y = x ∨ y ∈ l.eraseIdx i := by
  obtain ⟨j, hj⟩ := List.mem_iff_getElem?.1 hy
  by_cases hji : j = i
  · subst hji
    exact .inl (Option.some.inj (hj.symm.trans h))
  · exact .inr (List.mem_eraseIdx_iff_getElem?.2 ⟨j, hji, hj⟩)

end LnConv
