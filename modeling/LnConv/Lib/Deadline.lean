import LnConv.Lib.Run

/-!
# Deadlines

A system with a clock that no step turns back. `LeadsTo P Q d`: in every run from
a state with `P`, once more than `d` has passed, `Q` holds. Where letting time pass
neither brings about nor ends what is promised, promises chain, along any path of
hops.
-/

namespace LnConv

/-- A labelled system with a clock and an invariant of its permitted steps. -/
structure TimedSystem (S A : Type*) where
  step : S → A → Option S
  ok : S → A → Prop
  clock : S → Nat
  Inv : S → Prop
  inv_step : ∀ {s a s'}, Inv s → ok s a → step s a = some s' → Inv s'
  clock_le : ∀ {s a s'}, step s a = some s' → clock s ≤ clock s'

/-- The paths of hops, with the time they take. -/
inductive Within {V : Type*} (hop : V → V → Nat → Prop) : V → V → Nat → Prop where
  | refl (v : V) : Within hop v v 0
  | head {u x v : V} {d e : Nat} : hop u x d → Within hop x v e → Within hop u v (d + e)

namespace TimedSystem

variable {S A V : Type*} {m : TimedSystem S A} {s s' : S} {as : List A} {T d e : Nat}
  {P Q R : S → Prop}

/-- A run of permitted steps. -/
abbrev Run (m : TimedSystem S A) (s : S) (as : List A) (s' : S) : Prop := Steps m.step m.ok s as s'

theorem Run.inv (h : m.Run s as s') (hi : m.Inv s) : m.Inv s' :=
  h.invariant hi fun _ _ _ hi ho hs => m.inv_step hi ho hs

/-- A run that goes past `T` steps past it somewhere. -/
theorem Run.exists_past (h : m.Run s as s') (h₀ : m.clock s ≤ T) (h₁ : T < m.clock s') :
    ∃ bs t a t' cs, m.Run s bs t ∧ m.clock t ≤ T ∧ m.ok t a ∧ m.step t a = some t' ∧
      T < m.clock t' ∧ m.Run t' cs s' := by
  induction h with
  | nil => exact absurd h₁ (Nat.not_lt.2 h₀)
  | @cons s t s' a as ho hs hrest ih =>
    by_cases ht : m.clock t ≤ T
    · obtain ⟨bs, x, b, y, cs, hb, hx⟩ := ih ht h₁
      exact ⟨a :: bs, x, b, y, cs, .cons ho hs hb, hx⟩
    · exact ⟨[], s, a, t, as, .nil s, h₀, ho, hs, Nat.not_le.1 ht, hrest⟩

/-- Once true it stays true, and waiting does not make it true. -/
structure Lasting (m : TimedSystem S A) (P : S → Prop) : Prop where
  keep : ∀ {s a s'}, m.Inv s → m.ok s a → m.step s a = some s' → P s → P s'
  wait : ∀ {s a s'}, m.step s a = some s' → m.clock s < m.clock s' → P s' → P s

theorem Lasting.run (hP : m.Lasting P) (h : m.Run s as s') (hi : m.Inv s) (hp : P s) : P s' :=
  (h.invariant (P := fun s => m.Inv s ∧ P s) ⟨hi, hp⟩
    fun _ _ _ hs ho hst => ⟨m.inv_step hs.1 ho hst, hP.keep hs.1 ho hst hs.2⟩).2

/-- Once more than `d` has passed after `P`, `Q` holds. -/
def LeadsTo (m : TimedSystem S A) (P Q : S → Prop) (d : Nat) : Prop :=
  ∀ s as s', m.Inv s → P s → m.Run s as s' → m.clock s + d < m.clock s' → Q s'

theorem LeadsTo.refl (hP : m.Lasting P) : m.LeadsTo P P 0 :=
  fun _ _ _ hi hp hr _ => hP.run hr hi hp

/-- The second promise is given in the last state before the first deadline has
passed: time passes there, so `Q` holds already. -/
theorem LeadsTo.trans (hQ : m.Lasting Q) (h : m.LeadsTo P Q d) (h' : m.LeadsTo Q R e) :
    m.LeadsTo P R (d + e) := by
  intro s as s' hi hp hr hlt
  obtain ⟨bs, t, a, t', cs, hb, hle, ho, hs, hgt, hc⟩ :=
    hr.exists_past (Nat.le_add_right _ d) (by omega)
  have hpast : Q t' := h s (bs ++ [a]) t' hi hp (hb.append (.cons ho hs (.nil t'))) hgt
  have hq : Q t := hQ.wait hs (by omega) hpast
  exact h' t (a :: cs) s' (hb.inv hi) hq (.cons ho hs hc) (by omega)

/-- A promise kept step by step: `W T` says that `Q` is under way and due at `T`. -/
theorem LeadsTo.of_pending (W : Nat → S → Prop) (hQ : m.Lasting Q)
    (start : ∀ s, m.Inv s → P s → W (m.clock s + d) s)
    (keep : ∀ T s a s', m.Inv s → m.ok s a → m.step s a = some s' → W T s →
      m.clock s' ≤ T → W T s')
    (done : ∀ T s a s', m.Inv s → m.ok s a → m.step s a = some s' → W T s →
      m.clock s ≤ T → T < m.clock s' → Q s') : m.LeadsTo P Q d := by
  intro s as s' hi hp hr hlt
  obtain ⟨bs, t, a, t', cs, hb, hle, ho, hs, hgt, hc⟩ :=
    hr.exists_past (Nat.le_add_right _ d) hlt
  have hw : m.Inv t ∧ (m.clock t ≤ m.clock s + d → W (m.clock s + d) t) := by
    refine hb.invariant (P := fun t => m.Inv t ∧ (m.clock t ≤ m.clock s + d →
      W (m.clock s + d) t)) ⟨hi, fun _ => start s hi hp⟩ ?_
    rintro x b y ⟨hx, hwx⟩ hob hsb
    exact ⟨m.inv_step hx hob hsb, fun hy =>
      keep _ x b y hx hob hsb (hwx (Nat.le_trans (m.clock_le hsb) hy)) hy⟩
  have hq : Q t' := done _ t a t' hw.1 ho hs (hw.2 hle) hle hgt
  exact hQ.run hc (m.inv_step hw.1 ho hs) hq

/-- Hop by hop along a path. -/
theorem LeadsTo.within {K : V → S → Prop} {hop : V → V → Nat → Prop}
    (hK : ∀ v, m.Lasting (K v)) (hhop : ∀ u v d, hop u v d → m.LeadsTo (K u) (K v) d)
    {u v : V} (h : Within hop u v d) : m.LeadsTo (K u) (K v) d := by
  induction h with
  | refl v => exact .refl (hK v)
  | head hh _ ih => exact (hhop _ _ _ hh).trans (hK _) ih

end TimedSystem

end LnConv
