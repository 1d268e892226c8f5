import Mathlib.Algebra.Order.Monoid.Canonical.Defs
import Mathlib.Order.Bounds.Basic
import Mathlib.Tactic.Common

/-!
# Searches that set labels

A label of a node is the cost of a walk to it. A search settles one node after the other, one
with the least label at a time, and relaxes its edges. The edges of a node may come to be with
its label: what they cost is fixed only once the node is settled. Where no cost is negative, a
label is final once its node is settled, and the least cost of all walks.
-/

namespace LnConv

variable {V W : Type*}

section Walk

variable [AddMonoid W]

/-- The cost of a walk from the root is the sum of its edges. -/
inductive Walk (edge : V → V → W → Prop) (root : V) : V → W → Prop
  | root : Walk edge root root 0
  | hop {u w : V} {d c : W} : Walk edge root u d → edge u w c → Walk edge root w (d + c)

theorem Walk.mono {edge edge' : V → V → W → Prop} (h : ∀ u w c, edge u w c → edge' u w c) {root v : V}
    {d : W} (hw : Walk edge root v d) : Walk edge' root v d := by
  induction hw with
  | root => exact .root
  | hop _ he ih => exact ih.hop (h _ _ _ he)

end Walk

structure Labels (V W : Type*) where
  label : V → Option W
  settled : V → Prop
  edge : V → V → W → Prop

namespace Labels

/-- The edges of the settled nodes. -/
def settledEdge (s : Labels V W) (u w : V) (c : W) : Prop := s.settled u ∧ s.edge u w c

variable [AddCommMonoid W] [LinearOrder W] {s s' : Labels V W} {root u v w : V} {c d e : W}

structure Valid (s : Labels V W) (root : V) : Prop where
  label_root : s.label root = some 0
  labelled : ∀ u, s.settled u → (s.label u).isSome
  relaxed : ∀ u w c d, s.settled u → s.label u = some d → s.edge u w c →
    ∃ e, s.label w = some e ∧ e ≤ d + c
  ordered : ∀ u v d e, s.settled u → ¬ s.settled v → s.label u = some d → s.label v = some e → d ≤ e
  walk : ∀ v d, s.label v = some d → Walk s.settledEdge root v d

/-- A node with the least label is settled. The labels that are new or lower come from it. -/
structure Settles (s s' : Labels V W) (v : V) (d : W) : Prop where
  fresh : ¬ s.settled v
  label : s.label v = some d
  least : ∀ x e, ¬ s.settled x → s.label x = some e → d ≤ e
  settled : ∀ u, s'.settled u ↔ u = v ∨ s.settled u
  kept : ∀ u, s'.settled u → s'.label u = s.label u ∧ s'.edge u = s.edge u
  lower : ∀ w e, s.label w = some e → ∃ e', s'.label w = some e' ∧ e' ≤ e
  source : ∀ w, s'.label w = s.label w ∨ ∃ c, s'.edge v w c ∧ s'.label w = some (d + c)
  relaxed : ∀ w c, s'.edge v w c → ∃ e, s'.label w = some e ∧ e ≤ d + c

theorem Settles.walk_mono (h : s.Settles s' v d) (hw : Walk s.settledEdge root u c) :
    Walk s'.settledEdge root u c := by
  refine hw.mono fun x y b ⟨hx, he⟩ => ?_
  have hx' : s'.settled x := (h.settled x).2 (.inr hx)
  refine ⟨hx', ?_⟩
  rw [(h.kept x hx').2]
  exact he

/-- The first state: the root is labelled, and no node settled. -/
theorem valid_of_root (hlabel : ∀ v d, s.label v = some d ↔ v = root ∧ d = 0)
    (hsettled : ∀ v, ¬ s.settled v) : s.Valid root where
  label_root := (hlabel root 0).2 ⟨rfl, rfl⟩
  labelled u hu := absurd hu (hsettled u)
  relaxed u _ _ _ hu := absurd hu (hsettled u)
  ordered u _ _ _ hu := absurd hu (hsettled u)
  walk v d hv := by
    obtain ⟨rfl, rfl⟩ := (hlabel v d).1 hv
    exact .root

theorem Valid.reached (h : s.Valid root) (hv : s.label v = some d) : Walk s.edge root v d :=
  (h.walk v d hv).mono fun _ _ _ he => he.2

variable [CanonicallyOrderedAdd W]

theorem Settles.valid (h : s.Settles s' v d) (hv : s.Valid root) : s'.Valid root := by
  have hsv : s'.settled v := (h.settled v).2 (.inl rfl)
  have hlabel : s'.label v = some d := (h.kept v hsv).1.trans h.label
  refine ⟨?_, fun u hu => ?_, fun u w c b hu hb he => ?_, fun u x b e hu hx hb he => ?_,
    fun w b hb => ?_⟩
  · rcases h.source root with hr | ⟨c, -, hr⟩
    · rw [hr, hv.label_root]
    · -- the label of the root can only go down
      obtain ⟨e, he, hle⟩ := h.lower root 0 hv.label_root
      rw [he, (nonpos_iff_eq_zero.1 hle : e = 0)]
  · rw [(h.kept u hu).1]
    rcases (h.settled u).1 hu with rfl | hu
    · rw [h.label]
      rfl
    · exact hv.labelled u hu
  · rcases (h.settled u).1 hu with rfl | hold
    · cases hlabel.symm.trans hb
      exact h.relaxed w c he
    · rw [(h.kept u hu).1] at hb
      rw [(h.kept u hu).2] at he
      obtain ⟨e, hlabel, hle⟩ := hv.relaxed u w c b hold hb he
      obtain ⟨e', hlabel', hle'⟩ := h.lower w e hlabel
      exact ⟨e', hlabel', hle'.trans hle⟩
  · have hx' : ¬ s.settled x := fun hmem => hx ((h.settled x).2 (.inr hmem))
    have hde : d ≤ e := by
      rcases h.source x with hsame | ⟨c, -, hnew⟩
      · exact h.least x e hx' (hsame.symm.trans he)
      · cases hnew.symm.trans he
        exact le_self_add
    rw [(h.kept u hu).1] at hb
    rcases (h.settled u).1 hu with rfl | hold
    · cases h.label.symm.trans hb
      exact hde
    · exact (hv.ordered u v b d hold h.fresh hb h.label).trans hde
  · rcases h.source w with hsame | ⟨c, he, hnew⟩
    · exact h.walk_mono (hv.walk w b (hsame.symm.trans hb))
    · cases hnew.symm.trans hb
      exact (h.walk_mono (hv.walk v d h.label)).hop ⟨hsv, he⟩

variable [IsOrderedAddMonoid W]

/-- A walk that leaves the settled nodes costs no less than the label of a node where it does. -/
theorem Valid.frontier (h : s.Valid root) (hw : Walk s.edge root v c) :
    (∃ d, s.settled v ∧ s.label v = some d ∧ d ≤ c) ∨
      ∃ x d, ¬ s.settled x ∧ s.label x = some d ∧ d ≤ c := by
  induction hw with
  | root =>
    by_cases hr : s.settled root
    · exact .inl ⟨0, hr, h.label_root, le_refl 0⟩
    · exact .inr ⟨root, 0, hr, h.label_root, le_refl 0⟩
  | @hop u w d c _ he ih =>
    rcases ih with ⟨b, hu, hb, hle⟩ | ⟨x, b, hx, hb, hle⟩
    · obtain ⟨e, hlabel, hrelaxed⟩ := h.relaxed u w c b hu hb he
      have hcost : e ≤ d + c := hrelaxed.trans (add_le_add_left hle c)
      by_cases hsettled : s.settled w
      · exact .inl ⟨e, hsettled, hlabel, hcost⟩
      · exact .inr ⟨w, e, hsettled, hlabel, hcost⟩
    · exact .inr ⟨x, b, hx, hb, hle.trans le_self_add⟩

/-- The label of a settled node is the least cost of a walk to it. -/
theorem Valid.isLeast (h : s.Valid root) (hs : s.settled v) (hv : s.label v = some d) :
    IsLeast {c | Walk s.edge root v c} d := by
  refine ⟨h.reached hv, fun c hc => ?_⟩
  rcases h.frontier hc with ⟨b, -, hb, hle⟩ | ⟨x, b, hx, hb, hle⟩
  · cases hv.symm.trans hb
    exact hle
  · exact (h.ordered v x d b hs hx hv hb).trans hle

/-- So is the least label of the nodes that are not settled. -/
theorem Valid.isLeast_next (h : s.Valid root) (hs : ¬ s.settled v) (hv : s.label v = some d)
    (hmin : ∀ x e, ¬ s.settled x → s.label x = some e → d ≤ e) :
    IsLeast {c | Walk s.edge root v c} d := by
  refine ⟨h.reached hv, fun c hc => ?_⟩
  rcases h.frontier hc with ⟨b, hsettled, -⟩ | ⟨x, b, hx, hb, hle⟩
  · exact absurd hsettled hs
  · exact (hmin x b hx hb).trans hle

/-- Where all nodes with a label are settled, no walk leads to another node. -/
theorem Valid.settled_of_walk (h : s.Valid root) (hall : ∀ x, (s.label x).isSome → s.settled x)
    (hw : Walk s.edge root v c) : s.settled v := by
  rcases h.frontier hw with ⟨_, hsettled, -⟩ | ⟨x, b, hx, hb, -⟩
  · exact hsettled
  · exact absurd (hall x (by rw [hb]; rfl)) hx

end Labels

end LnConv
