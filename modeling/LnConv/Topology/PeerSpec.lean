import LnConv.Lib.Loop
import LnConv.Topology.Synthetic

/-!
# What the construction of the peer graph depends on

Each phase is described by what it does to the set of peer edges. Phases 1 and 3 draw sets,
whatever the iteration orders; only the counterparties a hub keeps depend on them.
-/

namespace LnConv.Graph

namespace Topology

variable {A : Type} {t : Topology A}

def peerSet (t : Topology A) : Finset (Sym2 Nat) := (t.peerEdges.map fun e => s(e.1, e.2)).toFinset

theorem mem_peerSet {a b : Nat} :
    s(a, b) ∈ t.peerSet ↔ (a, b) ∈ t.peerEdges ∨ (b, a) ∈ t.peerEdges := by
  simp only [peerSet, List.mem_toFinset, List.mem_map, Prod.exists, Sym2.eq_iff]
  constructor
  · rintro ⟨x, y, h, ⟨rfl, rfl⟩ | ⟨rfl, rfl⟩⟩
    · exact .inl h
    · exact .inr h
  · rintro (h | h)
    · exact ⟨a, b, h, .inl ⟨rfl, rfl⟩⟩
    · exact ⟨b, a, h, .inr ⟨rfl, rfl⟩⟩

@[simp] theorem containsEdge_iff {a b : Nat} : t.containsEdge a b = true ↔ s(a, b) ∈ t.peerSet := by
  simp [containsEdge, mem_peerSet]

@[simp] theorem peerSet_addEdge {a b : Nat} :
    (t.addEdge a b).peerSet = insert s(a, b) t.peerSet := by
  ext e
  simp [peerSet, addEdge, eq_comm]

@[simp] theorem mem_neighbors {a b : Nat} : b ∈ t.neighbors a ↔ s(a, b) ∈ t.peerSet := by
  simp [neighbors, mem_peerSet]

theorem mem_counterparties {a b : Nat} : b ∈ t.counterparties a ↔
    b ≠ a ∧ ∃ e ∈ t.channels, (e.source = a ∧ e.target = b) ∨ (e.source = b ∧ e.target = a) := by
  simp only [counterparties, Finset.mem_erase, List.mem_toFinset, List.mem_append, List.mem_map,
    List.mem_filter, decide_eq_true_eq]
  refine and_congr_right fun _ => ⟨?_, ?_⟩
  · rintro (⟨e, ⟨he, hs⟩, ht⟩ | ⟨e, ⟨he, ht⟩, hs⟩)
    · exact ⟨e, he, .inl ⟨hs, ht⟩⟩
    · exact ⟨e, he, .inr ⟨hs, ht⟩⟩
  · rintro ⟨e, he, ⟨hs, ht⟩ | ⟨hs, ht⟩⟩
    · exact .inl ⟨e, ⟨he, hs⟩, ht⟩
    · exact .inr ⟨e, ⟨he, ht⟩, hs⟩

theorem counterparties_comm {a b : Nat} : b ∈ t.counterparties a ↔ a ∈ t.counterparties b := by
  simp only [mem_counterparties, ne_comm (a := b), or_comm]

theorem counterparties_lt {a b : Nat} (h : b ∈ t.counterparties a) : b < t.nodes.length := by
  obtain ⟨-, e, he, ⟨-, rfl⟩ | ⟨rfl, -⟩⟩ := mem_counterparties.1 h
  · exact (t.channels_lt e he).2
  · exact (t.channels_lt e he).1

theorem not_mem_counterparties_self {a : Nat} : a ∉ t.counterparties a :=
  fun h => (mem_counterparties.1 h).1 rfl

/-- The cap of a vertex's own algorithm. -/
def maxPeer (t : Topology A) (maxPeerFor : A → Nat) (nx : Nat) : Nat :=
  (t.nodes[nx]?).elim 0 fun node => maxPeerFor node.algo

/-- A vertex with more counterparties than its cap. -/
def IsHub (t : Topology A) (maxPeerFor : A → Nat) (nx : Nat) : Prop :=
  (t.counterparties nx).card > t.maxPeer maxPeerFor nx

instance (maxPeerFor : A → Nat) (nx : Nat) : Decidable (t.IsHub maxPeerFor nx) :=
  inferInstanceAs (Decidable (_ > _))

theorem IsHub.lt {maxPeerFor : A → Nat} {nx : Nat} (h : t.IsHub maxPeerFor nx) :
    nx < t.nodes.length := by
  obtain ⟨ny, hy⟩ := Finset.card_pos.1 (Nat.zero_lt_of_lt h)
  exact counterparties_lt (counterparties_comm.1 hy)

end Topology

/-! ## Drawing -/

theorem HashOrder.length_iter {o : HashOrder} {site : Site} {s : Finset Nat} :
    (o.iter site s).length = s.card := by
  rw [← List.toFinset_card_of_nodup (o.nodup site s), o.toFinset]

section Draw

variable [IndexSample] {xs : List Nat} {rng : Rng} {amount : Nat}

theorem mem_of_mem_chooseMultiple {x : Nat} (h : x ∈ (chooseMultiple xs rng amount).1) : x ∈ xs := by
  obtain ⟨i, -, hi⟩ := List.mem_filterMap.1 h
  exact List.mem_of_getElem? hi

theorem nodup_chooseMultiple (h : xs.Nodup) : (chooseMultiple xs rng amount).1.Nodup := by
  apply (IndexSample.nodup rng xs.length amount).filterMap
  intro i j x hi hj
  exact (List.getElem?_inj (List.getElem?_eq_some_iff.1 hi).1 h).1 (hi.trans hj.symm)

theorem length_chooseMultiple : (chooseMultiple xs rng amount).1.length = min amount xs.length := by
  rw [← IndexSample.length rng xs.length amount]
  unfold chooseMultiple
  rw [List.length_filterMap_eq_countP, List.countP_eq_length]
  intro i hi
  rw [List.getElem?_eq_getElem (IndexSample.lt rng xs.length amount i hi)]
  rfl

end Draw

/-- The set that `pick_strangers` draws. -/
def pickSet (fuel n : Nat) (excluded : Finset Nat) (count : Nat) (rng : Rng) :
    Option (Finset Nat × Rng) :=
  pickLoop n excluded (min count (n - excluded.card)) fuel ∅ rng

theorem pickStrangers_map {fuel : Nat} {o : HashOrder} {site : Site} {n : Nat}
    {excluded : Finset Nat} {count : Nat} {rng : Rng} :
    (pickStrangers fuel o site n excluded count rng).map (fun r => (r.1.toFinset, r.2)) =
      pickSet fuel n excluded count rng := by
  unfold pickStrangers pickSet
  cases h : pickLoop n excluded (min count (n - excluded.card)) fuel ∅ rng with
  | none => simp [h]
  | some r => simp [h, o.toFinset]

theorem pickStrangers_nodup {fuel : Nat} {o : HashOrder} {site : Site} {n : Nat}
    {excluded : Finset Nat} {count : Nat} {rng : Rng} {r : List Nat × Rng}
    (h : pickStrangers fuel o site n excluded count rng = some r) : r.1.Nodup := by
  obtain ⟨p, -, hr⟩ := Option.bind_eq_some_iff.1 h
  cases hr
  exact o.nodup _ _

/-- Nothing excluded is picked. -/
theorem pickLoop_disjoint {n target : Nat} {excluded : Finset Nat} {fuel : Nat}
    {picked : Finset Nat} {rng : Rng} {r : Finset Nat × Rng}
    (h : pickLoop n excluded target fuel picked rng = some r) (hd : Disjoint excluded picked) :
    Disjoint excluded r.1 := by
  induction fuel generalizing picked rng with
  | zero =>
    unfold pickLoop at h
    split at h
    · cases h
    · cases h
      exact hd
  | succ fuel ih =>
    unfold pickLoop at h
    split at h
    · obtain ⟨⟨c, rng₁⟩, -, h⟩ := Option.bind_eq_some_iff.1 h
      dsimp only at h
      split at h
      · exact ih h hd
      · next hc =>
        apply ih h
        rw [Finset.disjoint_insert_right]
        exact ⟨fun hm => hc (.inl hm), hd⟩
    · cases h
      exact hd

/-! ## Phase 1 -/

section Picks

variable [IndexSample] {A : Type} {fuel : Nat} {o : HashOrder} {t : Topology A}
  {kFor maxPeerFor : A → Nat} {nx : Nat} {rng rng' : Rng} {p : NodePicks}

/-- The strangers of a vertex and the generator after it. -/
def pickShape (fuel : Nat) (t : Topology A) (kFor maxPeerFor : A → Nat) (nx : Nat) (rng : Rng) :
    Option (Finset Nat × Rng) :=
  t.nodes[nx]?.bind fun node =>
    let c := (t.counterparties nx).card
    let isHub := decide (c > maxPeerFor node.algo)
    let rng := if isHub then (IndexSample.sample rng c (maxPeerFor node.algo)).2 else rng
    let count := strangerCount isHub (kFor node.algo) c
    if count > 0 then pickSet fuel t.nodes.length (insert nx (t.counterparties nx)) count rng
    else some (∅, rng)

theorem pickNode_map : (pickNode fuel o t kFor maxPeerFor nx rng).map
    (fun r => (r.1.strangers.toFinset, r.2)) = pickShape fuel t kFor maxPeerFor nx rng := by
  unfold pickNode pickShape
  cases t.nodes[nx]? with
  | none => rfl
  | some node =>
    have hkept : ∀ isHub : Bool, (if isHub then
        chooseMultiple (o.iter (.counterparties nx) (t.counterparties nx)) rng
          (maxPeerFor node.algo)
        else (o.iter (.counterparties nx) (t.counterparties nx), rng)).2 = if isHub then
          (IndexSample.sample rng (t.counterparties nx).card (maxPeerFor node.algo)).2 else rng := by
      intro isHub
      cases isHub with
      | false => rfl
      | true => simp [chooseMultiple, o.length_iter]
    simp only [Option.bind_some, o.length_iter, hkept, Option.map_map]
    generalize strangerCount _ _ _ = count
    by_cases hc : count > 0
    · rw [if_pos hc, if_pos hc, ← pickStrangers_map (o := o)]
      rfl
    · rw [if_neg hc, if_neg hc]
      rfl

/-- What the picks of a vertex are, up to the choice a hub makes. -/
structure NodePicks.Of (t : Topology A) (maxPeerFor : A → Nat) (nx : Nat) (p : NodePicks) : Prop where
  isHub : p.isHub = decide (t.IsHub maxPeerFor nx)
  kept_nodup : p.keptCounterparties.Nodup
  kept_subset : p.keptCounterparties.toFinset ⊆ t.counterparties nx
  kept_length : t.IsHub maxPeerFor nx → p.keptCounterparties.length = t.maxPeer maxPeerFor nx
  kept_all : ¬t.IsHub maxPeerFor nx → p.keptCounterparties.toFinset = t.counterparties nx
  strangers_nodup : p.strangers.Nodup
  strangers_hub : t.IsHub maxPeerFor nx → p.strangers = []

theorem pickNode_spec (h : pickNode fuel o t kFor maxPeerFor nx rng = some (p, rng')) :
    p.Of t maxPeerFor nx ∧ (t.IsHub maxPeerFor nx → p.keptCounterparties =
      (chooseMultiple (o.iter (.counterparties nx) (t.counterparties nx)) rng
        (t.maxPeer maxPeerFor nx)).1) := by
  obtain ⟨node, hn, h⟩ := Option.bind_eq_some_iff.1 h
  have hmax : maxPeerFor node.algo = t.maxPeer maxPeerFor nx := by rw [Topology.maxPeer, hn]; rfl
  obtain ⟨⟨strangers, rng₁⟩, hs, h⟩ := Option.map_eq_some_iff.1 h
  cases h
  rw [o.length_iter, hmax] at hs
  rw [o.length_iter, hmax]
  have hstrangers : strangers.Nodup := by
    split at hs
    · exact pickStrangers_nodup hs
    · cases hs
      exact List.nodup_nil
  by_cases hub : t.IsHub maxPeerFor nx
  · have hcard : (t.counterparties nx).card > t.maxPeer maxPeerFor nx := hub
    simp only [hcard, decide_true, if_true] at hs ⊢
    refine ⟨⟨by simp [hub], nodup_chooseMultiple (o.nodup _ _), fun x hx => ?_, fun _ => ?_,
      fun hn => absurd hub hn, hstrangers, fun _ => ?_⟩, fun _ => trivial⟩
    · rw [← o.toFinset (.counterparties nx) (t.counterparties nx), List.mem_toFinset]
      exact mem_of_mem_chooseMultiple (List.mem_toFinset.1 hx)
    · rw [length_chooseMultiple, o.length_iter]
      omega
    · cases hs
      rfl
  · have hcard : ¬(t.counterparties nx).card > t.maxPeer maxPeerFor nx := hub
    simp only [hcard, decide_false, Bool.false_eq_true, if_false] at hs ⊢
    exact ⟨⟨by simp [hub], o.nodup _ _, (o.toFinset _ _).le, fun hn => absurd hn hub,
      fun _ => o.toFinset _ _, hstrangers, fun hn => absurd hn hub⟩, fun hn => absurd hn hub⟩

/-- Phase 1 without the counterparties kept. -/
def pickShapes (fuel : Nat) (t : Topology A) (kFor maxPeerFor : A → Nat) (n : Nat) (rng : Rng) :
    Option (List (Finset Nat) × Rng) :=
  (List.range n).foldlM
    (fun s nx => (pickShape fuel t kFor maxPeerFor nx s.2).map fun r => (s.1 ++ [r.1], r.2)) ([], rng)

theorem pickNodes_succ {n : Nat} : pickNodes fuel o t kFor maxPeerFor (n + 1) rng =
    (pickNodes fuel o t kFor maxPeerFor n rng).bind fun s =>
      (pickNode fuel o t kFor maxPeerFor n s.2).map fun r => (s.1 ++ [r.1], r.2) := by
  unfold pickNodes
  rw [List.range_succ, List.foldlM_append]
  simp

theorem pickShapes_succ {n : Nat} : pickShapes fuel t kFor maxPeerFor (n + 1) rng =
    (pickShapes fuel t kFor maxPeerFor n rng).bind fun s =>
      (pickShape fuel t kFor maxPeerFor n s.2).map fun r => (s.1 ++ [r.1], r.2) := by
  unfold pickShapes
  rw [List.range_succ, List.foldlM_append]
  simp

/-- The strangers and the generator do not depend on the iteration orders. -/
theorem pickNodes_map {n : Nat} : (pickNodes fuel o t kFor maxPeerFor n rng).map
    (fun r => (r.1.map fun p => p.strangers.toFinset, r.2)) =
      pickShapes fuel t kFor maxPeerFor n rng := by
  induction n with
  | zero => rfl
  | succ n ih =>
    rw [pickNodes_succ, pickShapes_succ, ← ih]
    cases pickNodes fuel o t kFor maxPeerFor n rng with
    | none => rfl
    | some s =>
      simp only [Option.bind_some, Option.map_some, ← pickNode_map (o := o), Option.map_map]
      cases pickNode fuel o t kFor maxPeerFor n s.2 with
      | none => rfl
      | some r => simp

/-- The picks of a vertex were made when the generator had served the vertices before it. -/
theorem pickNodes_spec {n : Nat} {r : List NodePicks × Rng}
    (h : pickNodes fuel o t kFor maxPeerFor n rng = some r) : r.1.length = n ∧
      ∀ nx p, r.1[nx]? = some p → ∃ s rng', pickShapes fuel t kFor maxPeerFor nx rng = some s ∧
        pickNode fuel o t kFor maxPeerFor nx s.2 = some (p, rng') := by
  induction n generalizing r with
  | zero =>
    cases h
    exact ⟨rfl, fun nx p hp => by simp at hp⟩
  | succ n ih =>
    rw [pickNodes_succ] at h
    obtain ⟨s, hs, h⟩ := Option.bind_eq_some_iff.1 h
    obtain ⟨⟨p, rng'⟩, hp, h⟩ := Option.map_eq_some_iff.1 h
    cases h
    obtain ⟨hlen, hpicks⟩ := ih hs
    refine ⟨by simp [hlen], fun nx q hq => ?_⟩
    rcases Nat.lt_trichotomy nx s.1.length with hlt | rfl | hgt
    · rw [List.getElem?_append_left hlt] at hq
      exact hpicks nx q hq
    · rw [List.getElem?_concat_length, Option.some.injEq] at hq
      subst hq
      rw [hlen]
      exact ⟨_, rng', by rw [← pickNodes_map (o := o), hs]; rfl, hp⟩
    · rw [List.getElem?_eq_none (by simp; omega)] at hq
      cases hq

end Picks

/-! ## Phase 2 -/

section Edges

variable {A : Type} {enforceHubCap : Bool} {hubKept : List (Option (Finset Nat))}

def NodePicks.all (p : NodePicks) : List Nat := p.keptCounterparties ++ p.strangers

/-- How many of a vertex's picks are dropped. -/
def NodePicks.drops (enforceHubCap : Bool) (hubKept : List (Option (Finset Nat))) (nx : Nat)
    (p : NodePicks) : Nat := p.all.countP fun ny => !edgeAllowed enforceHubCap hubKept nx ny

theorem mem_peerSet_addPick {nx ny : Nat} {b : Building A} {e : Sym2 Nat} :
    e ∈ (addPick enforceHubCap hubKept nx b ny).topology.peerSet ↔
      e ∈ b.topology.peerSet ∨ (edgeAllowed enforceHubCap hubKept nx ny ∧ e = s(nx, ny)) := by
  unfold addPick
  cases hal : edgeAllowed enforceHubCap hubKept nx ny with
  | false => simp
  | true =>
    by_cases hc : b.topology.containsEdge nx ny
    · have hm := Topology.containsEdge_iff.1 hc
      simp only [hc, Bool.not_true, Bool.false_eq_true, if_false, true_and]
      exact ⟨.inl, fun h => h.elim id fun he => he ▸ hm⟩
    · simp [hc, or_comm]

theorem dropped_addPick {nx ny : Nat} {b : Building A} :
    (addPick enforceHubCap hubKept nx b ny).droppedPerNode = b.droppedPerNode.modify nx
      (· + if !edgeAllowed enforceHubCap hubKept nx ny then 1 else 0) := by
  unfold addPick
  cases hal : edgeAllowed enforceHubCap hubKept nx ny with
  | false => rfl
  | true =>
    have hid : b.droppedPerNode.modify nx (fun x => x) = b.droppedPerNode := List.modify_id nx _
    by_cases hc : b.topology.containsEdge nx ny <;> simp [hc, hid]

theorem foldl_addPick (nx : Nat) (l : List Nat) (b : Building A) :
    (∀ e, e ∈ (l.foldl (addPick enforceHubCap hubKept nx) b).topology.peerSet ↔
      e ∈ b.topology.peerSet ∨ ∃ ny ∈ l, edgeAllowed enforceHubCap hubKept nx ny ∧ e = s(nx, ny)) ∧
    (l.foldl (addPick enforceHubCap hubKept nx) b).droppedPerNode = b.droppedPerNode.modify nx
      (· + l.countP fun ny => !edgeAllowed enforceHubCap hubKept nx ny) := by
  induction l generalizing b with
  | nil => exact ⟨by simp, (List.modify_id nx b.droppedPerNode).symm⟩
  | cons ny l ih =>
    obtain ⟨he, hd⟩ := ih (addPick enforceHubCap hubKept nx b ny)
    refine ⟨fun e => ?_, ?_⟩
    · rw [List.foldl_cons, he, mem_peerSet_addPick]
      simp only [List.mem_cons, exists_eq_or_imp, or_assoc]
    · rw [List.foldl_cons, hd, dropped_addPick, List.modify_modify_eq, List.countP_cons]
      congr 1
      funext x
      show x + _ + _ = x + (_ + _)
      omega

theorem addPicks_concat (picks : List NodePicks) (p : NodePicks) (b : Building A) :
    addPicks enforceHubCap hubKept (picks ++ [p]) b =
      p.all.foldl (addPick enforceHubCap hubKept picks.length)
        (addPicks enforceHubCap hubKept picks b) := by
  unfold addPicks
  rw [List.zipIdx_append, List.foldl_append, List.zipIdx_singleton, List.foldl_cons, List.foldl_nil,
    Nat.zero_add]
  rfl

theorem mem_peerSet_addPicks {picks : List NodePicks} {b : Building A} {e : Sym2 Nat} :
    e ∈ (addPicks enforceHubCap hubKept picks b).topology.peerSet ↔ e ∈ b.topology.peerSet ∨
      ∃ nx p, picks[nx]? = some p ∧
        ∃ ny ∈ p.all, edgeAllowed enforceHubCap hubKept nx ny ∧ e = s(nx, ny) := by
  induction picks using List.reverseRecOn with
  | nil => simp [addPicks]
  | append_singleton picks p ih =>
    rw [addPicks_concat, (foldl_addPick _ _ _).1, ih, or_assoc]
    refine or_congr_right ⟨?_, ?_⟩
    · rintro (⟨nx, q, hq, h⟩ | h)
      · exact ⟨nx, q, by rw [List.getElem?_append_left (List.getElem?_eq_some_iff.1 hq).1, hq], h⟩
      · exact ⟨picks.length, p, List.getElem?_concat_length, h⟩
    · rintro ⟨nx, q, hq, h⟩
      rcases Nat.lt_trichotomy nx picks.length with hlt | rfl | hgt
      · rw [List.getElem?_append_left hlt] at hq
        exact .inl ⟨nx, q, hq, h⟩
      · rw [List.getElem?_concat_length, Option.some.injEq] at hq
        exact .inr (hq ▸ h)
      · rw [List.getElem?_eq_none (by simp; omega)] at hq
        cases hq

theorem dropped_addPicks {picks : List NodePicks} {b : Building A} (j : Nat) :
    (addPicks enforceHubCap hubKept picks b).droppedPerNode[j]? = b.droppedPerNode[j]?.map
      (· + (picks[j]?).elim 0 (NodePicks.drops enforceHubCap hubKept j)) := by
  induction picks using List.reverseRecOn with
  | nil => simp [addPicks]
  | append_singleton picks p ih =>
    rw [addPicks_concat, (foldl_addPick _ _ _).2, List.getElem?_modify, ih, Option.map_eq_map,
      Option.map_map]
    congr 1
    funext x
    show ite _ _ _ = x + _
    rcases Nat.lt_trichotomy j picks.length with hlt | rfl | hgt
    · rw [if_neg (by omega), List.getElem?_append_left hlt]
    · rw [if_pos rfl, List.getElem?_concat_length, List.getElem?_eq_none (Nat.le_refl _)]
      rfl
    · rw [if_neg (by omega), List.getElem?_eq_none (by omega),
        List.getElem?_eq_none (by simp; omega)]

theorem drops_of_mem_zipIdx {picks : List NodePicks} {b : Building A} {n : Nat}
    (hb : b.droppedPerNode = List.replicate n 0) {x : Nat × Nat}
    (hx : x ∈ (addPicks enforceHubCap hubKept picks b).droppedPerNode.zipIdx) :
    x.1 = (picks[x.2]?).elim 0 (NodePicks.drops enforceHubCap hubKept x.2) := by
  have hd := List.mem_zipIdx_iff_getElem?.1 hx
  rw [dropped_addPicks, hb, Option.map_eq_some_iff] at hd
  obtain ⟨y, hy, hd⟩ := hd
  rw [← hd, (List.mem_replicate.1 (List.mem_of_getElem? hy)).2, Nat.zero_add]

end Edges

/-! ## Phase 3 -/

section Replacements

variable {A : Type} {hubKept : List (Option (Finset Nat))}

theorem mem_rejecting {nx i : Nat} :
    i ∈ rejecting hubKept nx ↔ ∃ kept, hubKept[i]? = some (some kept) ∧ nx ∉ kept := by
  simp only [rejecting, Finset.mem_filter, Finset.mem_range, Option.any_eq_true,
    Option.join_eq_some_iff, decide_eq_true_eq]
  refine ⟨fun h => h.2, ?_⟩
  rintro ⟨kept, hk, hn⟩
  exact ⟨(List.getElem?_eq_some_iff.1 hk).1, kept, hk, hn⟩

theorem peerSet_foldl_addReplacement (nx : Nat) (l : List Nat) (s : Topology A × PeerBuildStats) :
    (l.foldl (addReplacement nx) s).1.peerSet = s.1.peerSet ∪ l.toFinset.image (s(nx, ·)) := by
  induction l generalizing s with
  | nil => simp
  | cons ny l ih =>
    rw [List.foldl_cons, ih, List.toFinset_cons, Finset.image_insert, Finset.union_insert,
      ← Finset.insert_union]
    congr 1
    unfold addReplacement
    by_cases hc : s.1.containsEdge nx ny
    · simp [hc, Finset.insert_eq_of_mem (Topology.containsEdge_iff.1 hc)]
    · simp [hc]

/-- The set of edges and the generator. -/
def edgeView (s : (Topology A × PeerBuildStats) × Rng) : Finset (Sym2 Nat) × Rng :=
  (s.1.1.peerSet, s.2)

theorem replaceFor_view {fuel : Nat} {o : HashOrder} {n : Nat}
    {s : (Topology A × PeerBuildStats) × Rng} {x : Nat × Nat} (hx : x.1 ≠ 0) :
    (replaceFor hubKept fuel o n s x).map edgeView =
      (pickSet fuel n (insert x.2 (s.1.1.neighbors x.2) ∪ rejecting hubKept x.2) x.1 s.2).map
        fun r => (s.1.1.peerSet ∪ r.1.image (s(x.2, ·)), r.2) := by
  unfold replaceFor
  rw [if_neg hx, ← pickStrangers_map (o := o), Option.map_map]
  simp only [Option.bind_eq_bind]
  cases pickStrangers fuel o (.replacements x.2) n
      (insert x.2 (s.1.1.neighbors x.2) ∪ rejecting hubKept x.2) x.1 s.2 with
  | none => rfl
  | some r => simp [edgeView, peerSet_foldl_addReplacement]

/-- The replacements depend on the set of edges, and on the hubs rejecting a vertex with drops. -/
theorem foldlM_replaceFor_view {kept kept' : List (Option (Finset Nat))} {fuel : Nat}
    {o o' : HashOrder} {n : Nat} {l : List (Nat × Nat)}
    (hrej : ∀ x ∈ l, x.1 ≠ 0 → rejecting kept x.2 = rejecting kept' x.2)
    {s s' : (Topology A × PeerBuildStats) × Rng} (hs : edgeView s = edgeView s') :
    (l.foldlM (replaceFor kept fuel o n) s).map edgeView =
      (l.foldlM (replaceFor kept' fuel o' n) s').map edgeView := by
  refine foldlM_view_congr (fun s s' x hx he => ?_) hs
  obtain ⟨hset, hrng⟩ := Prod.mk.inj he
  by_cases h0 : x.1 = 0
  · simp [replaceFor, h0, he]
  · have hnb : s.1.1.neighbors x.2 = s'.1.1.neighbors x.2 := by
      ext ny
      rw [Topology.mem_neighbors, Topology.mem_neighbors, hset]
    rw [replaceFor_view h0, replaceFor_view h0, hnb, hset, hrng, hrej x hx h0]

/-- A replacement joins a vertex with drops to one that does not reject it. -/
theorem foldlM_replaceFor_mem {fuel : Nat} {o : HashOrder} {n : Nat} {l : List (Nat × Nat)}
    {s s' : (Topology A × PeerBuildStats) × Rng}
    (h : l.foldlM (replaceFor hubKept fuel o n) s = some s') :
    s.1.1.peerSet ⊆ s'.1.1.peerSet ∧ ∀ e ∈ s'.1.1.peerSet, e ∈ s.1.1.peerSet ∨
      ∃ x ∈ l, x.1 ≠ 0 ∧ ∃ ny, ny ∉ rejecting hubKept x.2 ∧ e = s(x.2, ny) := by
  refine foldlM_invariant (P := fun r => s.1.1.peerSet ⊆ r.1.1.peerSet ∧
    ∀ e ∈ r.1.1.peerSet, e ∈ s.1.1.peerSet ∨ ∃ x ∈ l, x.1 ≠ 0 ∧
      ∃ ny, ny ∉ rejecting hubKept x.2 ∧ e = s(x.2, ny)) (fun r x hx r' hr hstep => ?_)
    ⟨fun _ => id, fun _ => .inl⟩ h
  by_cases h0 : x.1 = 0
  · unfold replaceFor at hstep
    rw [if_pos h0] at hstep
    cases hstep
    exact hr
  · have hview := congrArg (Option.map edgeView) hstep
    rw [replaceFor_view h0, Option.map_some, Option.map_eq_some_iff] at hview
    obtain ⟨p, hp, hview⟩ := hview
    have hset : r.1.1.peerSet ∪ p.1.image (s(x.2, ·)) = r'.1.1.peerSet := (Prod.mk.inj hview).1
    have hd := pickLoop_disjoint hp (Finset.disjoint_empty_right _)
    rw [← hset]
    refine ⟨hr.1.trans Finset.subset_union_left, fun e he => ?_⟩
    rcases Finset.mem_union.1 he with he | he
    · exact hr.2 e he
    · obtain ⟨ny, hny, rfl⟩ := Finset.mem_image.1 he
      refine .inr ⟨x, hx, h0, ny, fun hm => ?_, rfl⟩
      exact Finset.disjoint_left.1 hd (Finset.mem_union_right _ hm) hny

end Replacements

end LnConv.Graph
