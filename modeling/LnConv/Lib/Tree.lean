import Mathlib.Combinatorics.SimpleGraph.Acyclic

/-!
# Forwarding on a forest

What starts at a vertex of a graph without cycles and is never sent back to where it came from
crosses an edge in one direction only, and enters every vertex over one edge.
-/

namespace LnConv

variable {V : Type*} {G H : SimpleGraph V} {o u v w : V}

/-- The edge from `u` to `v` leads away from `o`: the path from `o` to `v` ends with it. -/
def Away (G : SimpleGraph V) (o u v : V) : Prop :=
  G.Adj u v ∧ ∃ p : G.Walk o u, p.IsPath ∧ v ∉ p.support

theorem Away.root (h : G.Adj o v) : Away G o o v :=
  ⟨h, .nil, .nil, by simpa using h.ne'⟩

theorem Away.ne (h : Away G o u v) : v ≠ o := by
  obtain ⟨-, p, -, hv⟩ := h
  rintro rfl
  exact hv p.start_mem_support

/-- A vertex is entered over one edge. -/
theorem Away.unique (h : Away G o u v) (hG : G.IsAcyclic) (h' : Away G o w v) : u = w := by
  obtain ⟨hu, p, hp, hvp⟩ := h
  obtain ⟨hw, q, hq, hvq⟩ := h'
  have heq : p.concat hu = q.concat hw :=
    congrArg Subtype.val ((hG.subsingleton_path o v).elim ⟨_, hp.concat hvp hu⟩ ⟨_, hq.concat hvq hw⟩)
  have hpen := congrArg SimpleGraph.Walk.penultimate heq
  rwa [SimpleGraph.Walk.penultimate_concat, SimpleGraph.Walk.penultimate_concat] at hpen

/-- What entered `v` from `u` leaves over the other edges. -/
theorem Away.step (h : Away G o u v) (hG : G.IsAcyclic) (hw : G.Adj v w) (hne : w ≠ u) :
    Away G o v w := by
  obtain ⟨hu, p, hp, hvp⟩ := h
  refine ⟨hw, p.concat hu, hp.concat hvp hu, fun hin => hne ?_⟩
  have hpen := hG.eq_penultimate_of_adj_end (hp.concat hvp hu) hw hin
  rwa [SimpleGraph.Walk.penultimate_concat] at hpen

/-! ## Growing a forest -/

/-- A vertex with no edge is reached from itself only. -/
theorem not_reachable_of_isolated (hv : ∀ x, ¬G.Adj x v) (hne : u ≠ v) : ¬G.Reachable u v := by
  rintro ⟨p⟩
  have hnil : ¬p.Nil := SimpleGraph.Walk.not_nil_of_ne hne
  exact hv _ (p.adj_penultimate hnil)

/-- A vertex with no edge joins a forest as a leaf. -/
theorem isAcyclic_sup_leaf (hG : G.IsAcyclic) (hv : ∀ x, ¬G.Adj x v) (hne : u ≠ v) :
    (G ⊔ SimpleGraph.edge u v).IsAcyclic :=
  hG.sup_edge_of_not_reachable (not_reachable_of_isolated hv hne)

/-- A forest with further leaves at a vertex. -/
def withLeaves (G : SimpleGraph V) (o : V) (leaves : Finset V) : SimpleGraph V :=
  G ⊔ .fromRel fun u v => u = o ∧ v ∈ leaves

theorem withLeaves_adj {leaves : Finset V} : (withLeaves G o leaves).Adj u v ↔
    G.Adj u v ∨ u ≠ v ∧ (u = o ∧ v ∈ leaves ∨ v = o ∧ u ∈ leaves) := by
  unfold withLeaves
  rw [SimpleGraph.sup_adj, SimpleGraph.fromRel_adj]

theorem isAcyclic_withLeaves {leaves : Finset V} (hG : G.IsAcyclic)
    (hl : ∀ v ∈ leaves, v ≠ o ∧ ∀ x, ¬G.Adj x v) : (withLeaves G o leaves).IsAcyclic := by
  classical
  induction leaves using Finset.induction with
  | empty =>
    have hbot : withLeaves G o ∅ = G := by
      ext u v
      rw [withLeaves_adj]
      simp
    rwa [hbot]
  | insert x leaves hx ih =>
    obtain ⟨hxo, hxG⟩ := hl x (Finset.mem_insert_self x leaves)
    have hsup : withLeaves G o (insert x leaves) = withLeaves G o leaves ⊔ SimpleGraph.edge o x := by
      ext u v
      rw [SimpleGraph.sup_adj, withLeaves_adj, withLeaves_adj, SimpleGraph.edge_adj,
        Finset.mem_insert, Finset.mem_insert]
      tauto
    rw [hsup]
    refine isAcyclic_sup_leaf (ih fun v hv => hl v (Finset.mem_insert_of_mem hv)) ?_ hxo.symm
    intro y hy
    rcases withLeaves_adj.1 hy with hy | ⟨-, ⟨-, hy⟩ | ⟨rfl, -⟩⟩
    · exact hxG y hy
    · exact hx hy
    · exact hxo rfl

end LnConv
