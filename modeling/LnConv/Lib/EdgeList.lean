import Mathlib.Data.Finset.Sym
import Mathlib.Data.List.Nodup

/-!
# Lists of undirected edges

An undirected graph that is built edge by edge. It is simple if no edge is a loop and none is there
twice, in either direction; then the degree of a vertex counts its neighbours.
-/

namespace LnConv

variable {V : Type*}

/-- The edge without its direction. -/
def undirected (e : V × V) : Sym2 V := s(e.1, e.2)

structure SimpleEdges (es : List (V × V)) : Prop where
  loopless : ∀ e ∈ es, e.1 ≠ e.2
  nodup : (es.map undirected).Nodup

theorem SimpleEdges.nil : SimpleEdges ([] : List (V × V)) := ⟨by simp, .nil⟩

/-- A new edge that is no loop. -/
theorem SimpleEdges.concat {es : List (V × V)} {e : V × V} (h : SimpleEdges es) (hl : e.1 ≠ e.2)
    (hnew : undirected e ∉ es.map undirected) : SimpleEdges (es ++ [e]) where
  loopless x hx := by
    rcases List.mem_append.1 hx with hx | hx
    · exact h.loopless x hx
    · rwa [List.mem_singleton.1 hx]
  nodup := by
    rw [List.map_append, List.nodup_append]
    refine ⟨h.nodup, List.nodup_singleton _, fun a ha b hb hab => ?_⟩
    rw [List.map_singleton, List.mem_singleton] at hb
    exact hnew (hb ▸ hab ▸ ha)

theorem SimpleEdges.of_cons {es : List (V × V)} {e : V × V} (h : SimpleEdges (e :: es)) :
    SimpleEdges es where
  loopless x hx := h.loopless x (List.mem_cons_of_mem e hx)
  nodup := (List.nodup_cons.1 h.nodup).2

variable [DecidableEq V]

def edgeDegree (es : List (V × V)) (v : V) : Nat := es.countP fun e => e.1 = v ∨ e.2 = v

theorem edgeDegree_append (es es' : List (V × V)) (v : V) :
    edgeDegree (es ++ es') v = edgeDegree es v + edgeDegree es' v := List.countP_append

/-- The neighbours of a vertex, out of the edges that leave it and those that enter it. -/
def adjacent (es : List (V × V)) (v : V) : Finset V :=
  ((es.filter (·.1 = v)).map Prod.snd ++ (es.filter (·.2 = v)).map Prod.fst).toFinset

theorem mem_adjacent {es : List (V × V)} {v w : V} :
    w ∈ adjacent es v ↔ s(v, w) ∈ es.map undirected := by
  simp only [adjacent, undirected, List.mem_toFinset, List.mem_append, List.mem_map,
    List.mem_filter, decide_eq_true_eq, Prod.exists, Sym2.eq_iff]
  constructor
  · rintro (⟨a, b, ⟨he, rfl⟩, rfl⟩ | ⟨a, b, ⟨he, rfl⟩, rfl⟩)
    · exact ⟨a, b, he, .inl ⟨rfl, rfl⟩⟩
    · exact ⟨a, b, he, .inr ⟨rfl, rfl⟩⟩
  · rintro ⟨a, b, he, ⟨rfl, rfl⟩ | ⟨rfl, rfl⟩⟩
    · exact .inl ⟨a, b, ⟨he, rfl⟩, rfl⟩
    · exact .inr ⟨a, b, ⟨he, rfl⟩, rfl⟩

/-- What one more edge does to the neighbours of a vertex. -/
theorem adjacent_cons (e : V × V) (es : List (V × V)) (v : V) (h : e.1 ≠ e.2) :
    adjacent (e :: es) v = if e.1 = v then insert e.2 (adjacent es v)
      else if e.2 = v then insert e.1 (adjacent es v) else adjacent es v := by
  ext w
  have hcons : w ∈ adjacent (e :: es) v ↔ s(v, w) = s(e.1, e.2) ∨ w ∈ adjacent es v := by
    rw [mem_adjacent, mem_adjacent, List.map_cons, List.mem_cons]
    rfl
  rw [hcons, Sym2.eq_iff]
  split
  · next h₁ =>
    subst h₁
    rw [Finset.mem_insert]
    exact or_congr_left ⟨fun hw => hw.elim And.right fun hw => absurd hw.1 h, fun hw => .inl ⟨rfl, hw⟩⟩
  · next h₁ =>
    split
    · next h₂ =>
      subst h₂
      rw [Finset.mem_insert]
      exact or_congr_left ⟨fun hw => hw.elim (fun hw => absurd hw.1.symm h) And.right,
        fun hw => .inr ⟨rfl, hw⟩⟩
    · next h₂ =>
      exact or_iff_right fun hw => hw.elim (fun hw => h₁ hw.1.symm) fun hw => h₂ hw.1.symm

/-- In a simple graph the degree is the number of neighbours. -/
theorem SimpleEdges.card_adjacent {es : List (V × V)} (h : SimpleEdges es) (v : V) :
    (adjacent es v).card = edgeDegree es v := by
  induction es with
  | nil => rfl
  | cons e es ih =>
    have hne := h.loopless e List.mem_cons_self
    have hnew : undirected e ∉ es.map undirected := (List.nodup_cons.1 h.nodup).1
    unfold edgeDegree at ih ⊢
    rw [adjacent_cons e es v hne, List.countP_cons, ← ih h.of_cons]
    by_cases h₁ : e.1 = v
    · have hnot : e.2 ∉ adjacent es v := by
        rw [mem_adjacent, ← h₁]
        exact hnew
      rw [if_pos h₁, Finset.card_insert_of_notMem hnot]
      simp [h₁]
    · by_cases h₂ : e.2 = v
      · have hnot : e.1 ∉ adjacent es v := by
          rw [mem_adjacent, ← h₂, Sym2.eq_swap]
          exact hnew
        rw [if_neg h₁, if_pos h₂, Finset.card_insert_of_notMem hnot]
        simp [h₂]
      · simp [h₁, h₂]

/-- Edges from one vertex to others give it the degree of their number, and each of them one. -/
theorem edgeDegree_star {u v : V} {vs : List V} (hvs : vs.Nodup) :
    edgeDegree (vs.map fun w => (u, w)) v =
      if u = v then vs.length else if v ∈ vs then 1 else 0 := by
  unfold edgeDegree
  rw [List.countP_map]
  split
  · next h =>
    subst h
    exact List.countP_eq_length.2 fun w _ => by simp
  · next h =>
    have hcount : (vs.countP ((fun e : V × V => decide (e.1 = v ∨ e.2 = v)) ∘ fun w => (u, w))) =
        vs.count v := by
      apply List.countP_congr
      intro w _
      simp [h]
    rw [hcount]
    split
    · next hv => exact List.count_eq_one_of_mem hvs hv
    · next hv => exact List.count_eq_zero_of_not_mem hv

end LnConv
