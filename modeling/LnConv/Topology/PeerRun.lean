import LnConv.Lib.EdgeList
import LnConv.PeerGraph

/-!
# The construction of the peer graph, step by step

What each phase draws and counts. Phase 1 plans the picks of every vertex, phase 2 makes edges of the
picks that are allowed and counts the others, and phase 3 gives each vertex in turn new edges for its
dropped picks. The graph stays simple throughout.
-/

namespace LnConv.Graph

variable {A : Type} {t : Topology A} {kFor maxPeerFor : A → Nat} {rng : Rng}

/-! ## Strangers -/

theorem pickLoop_result {n target : Nat} {excluded : Finset Nat} {fuel : Nat}
    {picked : Finset Nat} {r : Finset Nat × Rng}
    (h : pickLoop n excluded target fuel picked rng = some r)
    (hp : picked ⊆ Finset.range n \ excluded) (hle : picked.card ≤ target) :
    r.1 ⊆ Finset.range n \ excluded ∧ r.1.card = target := by
  induction fuel generalizing picked rng with
  | zero =>
    unfold pickLoop at h
    split at h
    · cases h
    · next hge =>
      cases h
      exact ⟨hp, Nat.le_antisymm hle (Nat.le_of_not_lt hge)⟩
  | succ fuel ih =>
    unfold pickLoop at h
    split at h
    · next hlt =>
      obtain ⟨⟨c, rng₁⟩, hc, h⟩ := Option.bind_eq_some_iff.1 h
      dsimp only at h
      split at h
      · exact ih h hp hle
      · next hnew =>
        obtain ⟨hce, hcp⟩ := not_or.1 hnew
        have hcn : c < n := by
          unfold Rng.randomRange at hc
          split at hc
          · cases hc
          · next hn =>
            cases hc
            exact Nat.mod_lt _ (Nat.pos_of_ne_zero hn)
        refine ih h ?_ ?_
        · rw [Finset.insert_subset_iff]
          exact ⟨Finset.mem_sdiff.2 ⟨Finset.mem_range.2 hcn, hce⟩, hp⟩
        · rw [Finset.card_insert_of_notMem hcp]
          omega
    · next hge =>
      cases h
      exact ⟨hp, Nat.le_antisymm hle (Nat.le_of_not_lt hge)⟩

/-- As many distinct vertices as asked for, or all that are not excluded. -/
theorem pickStrangers_spec {fuel n count : Nat} {o : HashOrder} {site : Site}
    {excluded : Finset Nat} {r : List Nat × Rng}
    (h : pickStrangers fuel o site n excluded count rng = some r) :
    r.1.Nodup ∧ (∀ y ∈ r.1, y < n ∧ y ∉ excluded) ∧ r.1.length = min count (n - excluded.card) := by
  obtain ⟨⟨picked, rng'⟩, hp, h⟩ := Option.bind_eq_some_iff.1 h
  cases h
  obtain ⟨hsub, hcard⟩ := pickLoop_result hp (Finset.empty_subset _) (Nat.zero_le _)
  refine ⟨o.nodup _ _, fun y hy => ?_, ?_⟩
  · have hmem : y ∈ (o.iter site picked).toFinset := List.mem_toFinset.2 hy
    rw [o.toFinset] at hmem
    obtain ⟨hn, he⟩ := Finset.mem_sdiff.1 (hsub hmem)
    exact ⟨Finset.mem_range.1 hn, he⟩
  · rw [o.length_iter]
    exact hcard

/-! ## The plan of a vertex -/

namespace Topology

/-- The number of peers that a vertex's own algorithm asks for. -/
def wanted (t : Topology A) (kFor : A → Nat) (nx : Nat) : Nat :=
  (t.nodes[nx]?).elim 0 fun node => kFor node.algo

/-- How many picks a vertex plans: a hub up to its cap, another one its counterparties, and half of
what is missing in strangers, as far as there are strangers. -/
def planned (t : Topology A) (kFor maxPeerFor : A → Nat) (nx : Nat) : Nat :=
  let c := (t.counterparties nx).card
  if c > t.maxPeer maxPeerFor nx then t.maxPeer maxPeerFor nx
  else if t.wanted kFor nx ≤ c then c
  else c + min ((t.wanted kFor nx - c + 1) / 2) (t.nodes.length - 1 - c)

end Topology

/-- A vertex's strangers are new to it, and its picks as many as planned. -/
structure NodePicks.Plan (t : Topology A) (kFor maxPeerFor : A → Nat) (nx : Nat) (p : NodePicks) :
    Prop extends p.Of t maxPeerFor nx where
  strangers_new : ∀ y ∈ p.strangers, y < t.nodes.length ∧ y ≠ nx ∧ y ∉ t.counterparties nx
  length_all : p.all.length = t.planned kFor maxPeerFor nx

section Picks

variable {fuel nx : Nat} {o : HashOrder} {p : NodePicks} {rng' : Rng}

theorem pickNode_plan [IndexSample] (h : pickNode fuel o t kFor maxPeerFor nx rng = some (p, rng')) :
    p.Plan t kFor maxPeerFor nx := by
  have hof := (pickNode_spec h).1
  obtain ⟨node, hn, h⟩ := Option.bind_eq_some_iff.1 h
  have hmax : maxPeerFor node.algo = t.maxPeer maxPeerFor nx := by rw [Topology.maxPeer, hn]; rfl
  have hk : kFor node.algo = t.wanted kFor nx := by rw [Topology.wanted, hn]; rfl
  obtain ⟨⟨strangers, rng₁⟩, hs, h⟩ := Option.map_eq_some_iff.1 h
  rw [o.length_iter, hmax, hk] at hs
  have hstr : p.strangers = strangers := by cases h; rfl
  have hinsert : (insert nx (t.counterparties nx)).card = (t.counterparties nx).card + 1 :=
    Finset.card_insert_of_notMem Topology.not_mem_counterparties_self
  have hdrawn : (∀ y ∈ strangers, y < t.nodes.length ∧ y ∉ insert nx (t.counterparties nx)) ∧
      strangers.length = min (strangerCount (decide (t.IsHub maxPeerFor nx)) (t.wanted kFor nx)
        (t.counterparties nx).card) (t.nodes.length - 1 - (t.counterparties nx).card) := by
    split at hs
    · obtain ⟨-, hnew, hlen⟩ := pickStrangers_spec hs
      refine ⟨hnew, hlen.trans ?_⟩
      rw [hinsert]
      congr 1
      omega
    · next hzero =>
      cases hs
      refine ⟨by simp, ?_⟩
      have h0 : strangerCount (decide (t.IsHub maxPeerFor nx)) (t.wanted kFor nx)
          (t.counterparties nx).card = 0 := Nat.eq_zero_of_not_pos hzero
      rw [h0]
      simp
  refine ⟨hof, fun y hy => ?_, ?_⟩
  · rw [hstr] at hy
    obtain ⟨hlt, hnot⟩ := hdrawn.1 y hy
    rw [Finset.mem_insert, not_or] at hnot
    exact ⟨hlt, hnot⟩
  · rw [NodePicks.all, List.length_append, hstr, hdrawn.2]
    unfold Topology.planned strangerCount
    by_cases hub : t.IsHub maxPeerFor nx
    · have hgt : (t.counterparties nx).card > t.maxPeer maxPeerFor nx := hub
      simp only [hub, decide_true, if_true, hgt]
      rw [hof.kept_length hub]
      omega
    · have hle : ¬(t.counterparties nx).card > t.maxPeer maxPeerFor nx := hub
      have hkept : p.keptCounterparties.length = (t.counterparties nx).card := by
        rw [← hof.kept_all hub, List.toFinset_card_of_nodup hof.kept_nodup]
      simp only [hub, decide_false, Bool.false_eq_true, if_false, hle]
      rw [hkept]
      split
      · omega
      · rfl

theorem NodePicks.Plan.nodup_all (h : p.Plan t kFor maxPeerFor nx) : p.all.Nodup := by
  rw [NodePicks.all, List.nodup_append]
  refine ⟨h.kept_nodup, h.strangers_nodup, fun a ha b hb hab => ?_⟩
  subst hab
  exact (h.strangers_new a hb).2.2 (h.kept_subset (List.mem_toFinset.2 ha))

theorem NodePicks.Plan.all_lt (h : p.Plan t kFor maxPeerFor nx) {y : Nat} (hy : y ∈ p.all) :
    y < t.nodes.length ∧ y ≠ nx := by
  rcases List.mem_append.1 hy with hy | hy
  · have hc := h.kept_subset (List.mem_toFinset.2 hy)
    exact ⟨Topology.counterparties_lt hc, (Topology.mem_counterparties.1 hc).1⟩
  · exact ⟨(h.strangers_new y hy).1, (h.strangers_new y hy).2.1⟩

/-- The plans of all vertices. -/
structure Plans (t : Topology A) (kFor maxPeerFor : A → Nat) (ps : List NodePicks) : Prop where
  length : ps.length = t.nodes.length
  of : ∀ nx (p : NodePicks), ps[nx]? = some p → p.Plan t kFor maxPeerFor nx

theorem Plans.picksOf {ps : List NodePicks} (h : Plans t kFor maxPeerFor ps) :
    PicksOf t maxPeerFor ps := ⟨h.length, fun nx p hp => (h.of nx p hp).toOf⟩

theorem pickNodes_plans [IndexSample] {r : List NodePicks × Rng}
    (h : pickNodes fuel o t kFor maxPeerFor t.nodes.length rng = some r) :
    Plans t kFor maxPeerFor r.1 := by
  obtain ⟨hlen, hpicks⟩ := pickNodes_spec h
  refine ⟨hlen, fun nx p hp => ?_⟩
  obtain ⟨s, rng', -, hn⟩ := hpicks nx p hp
  exact pickNode_plan hn

end Picks

/-! ## Phase 2 -/

/-- A simple graph on `n` vertices. -/
structure PeersOk (n : Nat) (t : Topology A) : Prop where
  simple : SimpleEdges t.peerEdges
  lt : ∀ e ∈ t.peerEdges, e.1 < n ∧ e.2 < n

theorem PeersOk.addEdge {n a b : Nat} (h : PeersOk n t) (ha : a < n) (hb : b < n) (hab : a ≠ b)
    (hnew : s(a, b) ∉ t.peerSet) : PeersOk n (t.addEdge a b) where
  simple := h.simple.concat hab fun hm => hnew (List.mem_toFinset.2 hm)
  lt e he := by
    rcases List.mem_append.1 he with he | he
    · exact h.lt e he
    · rw [List.mem_singleton.1 he]
      exact ⟨ha, hb⟩

theorem PeersOk.card_peerSet {n : Nat} (h : PeersOk n t) :
    t.peerSet.card = t.peerEdges.length := by
  have hcard := List.toFinset_card_of_nodup h.simple.nodup
  rw [List.length_map] at hcard
  exact hcard

theorem PeersOk.card_neighbors {n : Nat} (h : PeersOk n t) (v : Nat) :
    (t.neighbors v).card = edgeDegree t.peerEdges v := h.simple.card_adjacent v

/-- The picks in the order phase 2 goes through them. -/
def requests (ps : List NodePicks) : List (Nat × Nat) :=
  ps.zipIdx.flatMap fun p => p.1.all.map fun ny => (p.2, ny)

theorem mem_requests {ps : List NodePicks} {q : Nat × Nat} :
    q ∈ requests ps ↔ ∃ p, ps[q.1]? = some p ∧ q.2 ∈ p.all := by
  unfold requests
  rw [List.mem_flatMap]
  constructor
  · rintro ⟨⟨p, nx⟩, hp, hq⟩
    obtain ⟨ny, hny, rfl⟩ := List.mem_map.1 hq
    exact ⟨p, List.mem_zipIdx_iff_getElem?.1 hp, hny⟩
  · rintro ⟨p, hp, hq⟩
    exact ⟨(p, q.1), List.mem_zipIdx_iff_getElem?.2 hp, List.mem_map.2 ⟨q.2, hq, rfl⟩⟩

theorem nodup_requests {ps : List NodePicks} (h : Plans t kFor maxPeerFor ps) :
    (requests ps).Nodup := by
  unfold requests
  rw [List.nodup_flatMap]
  constructor
  · intro p hp
    have hplan := h.of p.2 p.1 (List.mem_zipIdx_iff_getElem?.1 hp)
    exact hplan.nodup_all.map fun a b hab => congrArg Prod.snd hab
  · have hnd : (ps.zipIdx.map Prod.snd).Nodup := List.nodup_zipIdx_map_snd ps
    refine (List.pairwise_map.1 hnd).imp fun {p p'} hne => ?_
    show List.Disjoint _ _
    intro q hq hq'
    obtain ⟨y, -, rfl⟩ := List.mem_map.1 hq
    obtain ⟨y', -, he⟩ := List.mem_map.1 hq'
    exact hne (congrArg Prod.fst he).symm

section Edges

variable {enforceHubCap : Bool} {hubKept : List (Option (Finset Nat))} {n : Nat}

theorem addPicks_eq_foldl (ps : List NodePicks) (b : Building A) :
    addPicks enforceHubCap hubKept ps b =
      (requests ps).foldl (fun b q => addPick enforceHubCap hubKept q.1 b q.2) b := by
  unfold addPicks requests
  rw [List.foldl_flatMap]
  simp only [List.foldl_map]
  rfl

/-- The requests that are not allowed. -/
def rejections (enforceHubCap : Bool) (hubKept : List (Option (Finset Nat)))
    (qs : List (Nat × Nat)) : Nat := qs.countP fun q => !edgeAllowed enforceHubCap hubKept q.1 q.2

/-- What phase 2 keeps and counts. -/
structure PhaseTwo (enforceHubCap : Bool) (hubKept : List (Option (Finset Nat))) (n : Nat)
    (qs : List (Nat × Nat)) (b b' : Building A) : Prop where
  nodes : b'.topology.nodes = b.topology.nodes
  peersOk : PeersOk n b.topology → PeersOk n b'.topology
  rejected : b'.stats.hubRejectedEdges =
    b.stats.hubRejectedEdges + rejections enforceHubCap hubKept qs
  added : b'.stats.replacementsAdded = b.stats.replacementsAdded
  length : b'.droppedPerNode.length = b.droppedPerNode.length
  dropped : (∀ q ∈ qs, q.1 < b.droppedPerNode.length) → b'.droppedPerNode.sum =
    b.droppedPerNode.sum + rejections enforceHubCap hubKept qs

theorem sum_modify_succ (l : List Nat) (i : Nat) (hi : i < l.length) :
    (l.modify i (· + 1)).sum = l.sum + 1 := by
  induction l generalizing i with
  | nil => cases hi
  | cons x l ih =>
    cases i with
    | zero =>
      rw [List.modify_zero_cons, List.sum_cons, List.sum_cons]
      omega
    | succ i =>
      rw [List.modify_succ_cons, List.sum_cons, List.sum_cons, ih i (Nat.lt_of_succ_lt_succ hi)]
      omega

theorem phaseTwo_addPick {q : Nat × Nat} (hq : q.1 < n ∧ q.2 < n ∧ q.1 ≠ q.2) (b : Building A) :
    PhaseTwo enforceHubCap hubKept n [q] b (addPick enforceHubCap hubKept q.1 b q.2) := by
  have hcount : rejections enforceHubCap hubKept [q] =
      if !edgeAllowed enforceHubCap hubKept q.1 q.2 then 1 else 0 := by
    simp [rejections, List.countP_cons]
  unfold addPick
  cases hal : edgeAllowed enforceHubCap hubKept q.1 q.2 with
  | false =>
    rw [hal] at hcount
    refine ⟨rfl, id, by rw [hcount]; rfl, rfl, by simp, fun hlt => ?_⟩
    rw [hcount]
    exact sum_modify_succ _ _ (hlt q (List.mem_singleton_self q))
  | true =>
    rw [hal] at hcount
    by_cases hc : b.topology.containsEdge q.1 q.2
    · simp only [Bool.not_true, Bool.false_eq_true, if_false, hc]
      exact ⟨rfl, id, by rw [hcount]; rfl, rfl, rfl, fun _ => by rw [hcount]; rfl⟩
    · simp only [Bool.not_true, Bool.false_eq_true, if_false, hc, Bool.not_false, if_true]
      refine ⟨rfl, fun h => h.addEdge hq.1 hq.2.1 hq.2.2 ?_, by rw [hcount]; rfl, rfl, rfl,
        fun _ => by rw [hcount]; rfl⟩
      rwa [Topology.containsEdge_iff] at hc

theorem phaseTwo_foldl {qs : List (Nat × Nat)} (hqs : ∀ q ∈ qs, q.1 < n ∧ q.2 < n ∧ q.1 ≠ q.2)
    (b : Building A) : PhaseTwo enforceHubCap hubKept n qs b
      (qs.foldl (fun b q => addPick enforceHubCap hubKept q.1 b q.2) b) := by
  induction qs generalizing b with
  | nil => exact ⟨rfl, id, rfl, rfl, rfl, fun _ => rfl⟩
  | cons q qs ih =>
    have h₁ : PhaseTwo enforceHubCap hubKept n [q] b (addPick enforceHubCap hubKept q.1 b q.2) :=
      phaseTwo_addPick (hqs q List.mem_cons_self) b
    have h₂ := ih (fun x hx => hqs x (List.mem_cons_of_mem q hx))
      (addPick enforceHubCap hubKept q.1 b q.2)
    have hsplit : rejections enforceHubCap hubKept (q :: qs) =
        rejections enforceHubCap hubKept [q] + rejections enforceHubCap hubKept qs := by
      unfold rejections
      rw [← List.countP_append, List.singleton_append]
    refine ⟨h₂.nodes.trans h₁.nodes, fun h => h₂.peersOk (h₁.peersOk h), ?_,
      h₂.added.trans h₁.added, h₂.length.trans h₁.length, fun hlt => ?_⟩
    · rw [List.foldl_cons, h₂.rejected, h₁.rejected, hsplit, Nat.add_assoc]
    · rw [List.foldl_cons, h₂.dropped fun x hx => ?_, h₁.dropped fun x hx => ?_, hsplit,
        Nat.add_assoc]
      · rw [List.mem_singleton.1 hx]
        exact hlt q List.mem_cons_self
      · rw [h₁.length]
        exact hlt x (List.mem_cons_of_mem q hx)

theorem Plans.requests_lt {ps : List NodePicks} (h : Plans t kFor maxPeerFor ps) {q : Nat × Nat}
    (hq : q ∈ requests ps) : q.1 < t.nodes.length ∧ q.2 < t.nodes.length ∧ q.1 ≠ q.2 := by
  obtain ⟨p, hp, hmem⟩ := mem_requests.1 hq
  obtain ⟨hlt, hne⟩ := (h.of q.1 p hp).all_lt hmem
  exact ⟨h.length ▸ (List.getElem?_eq_some_iff.1 hp).1, hlt, hne.symm⟩

/-- A hub that rejects a vertex does not pick it. -/
theorem Plans.not_requested_back {ps : List NodePicks} (h : Plans t kFor maxPeerFor ps)
    {q : Nat × Nat} (hrej : ¬edgeAllowed enforceHubCap (hubKeptOf enforceHubCap ps) q.1 q.2) :
    q.swap ∉ requests ps := by
  intro hback
  obtain ⟨p, hp, hmem⟩ := mem_requests.1 hback
  refine hrej (edgeAllowed_iff.2 fun _ p' hp' hub => ?_)
  have heq : p = p' := Option.some.inj (hp.symm.trans hp')
  rw [← heq] at hub ⊢
  exact ((h.of _ p hp).mem_all_of_hub (h.picksOf.hub_of_isHub hp hub) hmem).1

theorem undirected_eq {q q' : Nat × Nat} (h : undirected q = undirected q') :
    q = q' ∨ q = q'.swap := by
  rcases Sym2.eq_iff.1 h with ⟨h₁, h₂⟩ | ⟨h₁, h₂⟩
  · exact .inl (Prod.ext h₁ h₂)
  · exact .inr (Prod.ext h₁ h₂)

/-- Each rejection is one edge less. -/
theorem Plans.card_edges {ps : List NodePicks} (h : Plans t kFor maxPeerFor ps)
    (enforceHubCap : Bool) :
    ((requests ps).toFinset.image undirected).card =
      (((requests ps).filter fun q => edgeAllowed enforceHubCap (hubKeptOf enforceHubCap ps) q.1
        q.2).toFinset.image undirected).card +
      rejections enforceHubCap (hubKeptOf enforceHubCap ps) (requests ps) := by
  set allowed := fun q : Nat × Nat => edgeAllowed enforceHubCap (hubKeptOf enforceHubCap ps) q.1 q.2
  have hnd := nodup_requests h
  have hback : ∀ q ∈ requests ps, ∀ q' ∈ requests ps, allowed q' = false →
      undirected q = undirected q' → q = q' := by
    intro q hq q' _ hal he
    rcases undirected_eq he with he | he
    · exact he
    · have hrej : ¬edgeAllowed enforceHubCap (hubKeptOf enforceHubCap ps) q'.1 q'.2 := by
        rw [Bool.not_eq_true]
        exact hal
      exact absurd (he ▸ hq) (h.not_requested_back hrej)
  have hcount : rejections enforceHubCap (hubKeptOf enforceHubCap ps) (requests ps) =
      (((requests ps).filter fun q => !allowed q).toFinset.image undirected).card := by
    rw [Finset.card_image_of_injOn, List.toFinset_card_of_nodup (hnd.filter _),
      ← List.countP_eq_length_filter]
    · rfl
    · intro q hq q' hq' he
      rw [Finset.mem_coe, List.mem_toFinset, List.mem_filter, Bool.not_eq_true'] at hq hq'
      exact hback q hq.1 q' hq'.1 hq'.2 he
  rw [hcount, ← Finset.card_union_of_disjoint, ← Finset.image_union]
  · congr 2
    ext q
    simp only [Finset.mem_union, List.mem_toFinset, List.mem_filter, Bool.not_eq_true']
    cases allowed q <;> simp
  · rw [Finset.disjoint_left]
    intro e he he'
    obtain ⟨q, hq, rfl⟩ := Finset.mem_image.1 he
    obtain ⟨q', hq', he'⟩ := Finset.mem_image.1 he'
    rw [List.mem_toFinset, List.mem_filter] at hq hq'
    rw [Bool.not_eq_true'] at hq'
    obtain rfl := hback q hq.1 q' hq'.1 hq'.2 he'.symm
    rw [hq.2] at hq'
    exact Bool.noConfusion hq'.2

/-- The edges that phase 2 makes on an empty graph. -/
theorem peerSet_addPicks (ps : List NodePicks) {b : Building A} (hb : b.topology.peerEdges = []) :
    (addPicks enforceHubCap hubKept ps b).topology.peerSet =
      ((requests ps).filter fun q => edgeAllowed enforceHubCap hubKept q.1 q.2).toFinset.image
        undirected := by
  ext e
  have hempty : e ∉ b.topology.peerSet := by
    unfold Topology.peerSet
    simp [hb]
  rw [mem_peerSet_addPicks, or_iff_right hempty, Finset.mem_image]
  constructor
  · rintro ⟨nx, p, hp, ny, hny, hal, rfl⟩
    refine ⟨(nx, ny), ?_, rfl⟩
    rw [List.mem_toFinset, List.mem_filter]
    exact ⟨mem_requests.2 ⟨p, hp, hny⟩, hal⟩
  · rintro ⟨q, hq, rfl⟩
    rw [List.mem_toFinset, List.mem_filter] at hq
    obtain ⟨p, hp, hmem⟩ := mem_requests.1 hq.1
    exact ⟨q.1, p, hp, q.2, hmem, hq.2, rfl⟩

end Edges

/-! ## Phase 3 -/

/-- A turn of phase 3: the vertex, how many of its picks were dropped, which vertices it may get
instead, and those it draws. -/
structure Turn where
  node : Nat
  dropped : Nat
  eligible : Finset Nat
  drawn : List Nat

/-- The vertices that are neither the vertex itself nor its peers nor hubs that reject it. -/
def eligible (hubKept : List (Option (Finset Nat))) (n : Nat) (t : Topology A) (nx : Nat) :
    Finset Nat := Finset.range n \ (insert nx (t.neighbors nx) ∪ rejecting hubKept nx)

/-- The turns of phase 3; what a turn draws are the ends of the edges it adds. -/
def turnsOf (hubKept : List (Option (Finset Nat))) (fuel : Nat) (o : HashOrder) (n : Nat) :
    (Topology A × PeerBuildStats) × Rng → List (Nat × Nat) → List Turn
  | _, [] => []
  | s, x :: l => (replaceFor hubKept fuel o n s x).elim [] fun s' =>
    ⟨x.2, x.1, eligible hubKept n s.1.1 x.2,
      (s'.1.1.peerEdges.drop s.1.1.peerEdges.length).map Prod.snd⟩ :: turnsOf hubKept fuel o n s' l

section Turns

variable {hubKept : List (Option (Finset Nat))} {n : Nat}

/-- All vertices drawn are new peers. -/
theorem foldl_addReplacement_new {nx : Nat} {ys : List Nat} (hnd : ys.Nodup)
    {s : Topology A × PeerBuildStats} (hs : PeersOk n s.1) (hnx : nx < n)
    (hnew : ∀ y ∈ ys, y < n ∧ nx ≠ y ∧ s(nx, y) ∉ s.1.peerSet) :
    let s' := ys.foldl (addReplacement nx) s
    PeersOk n s'.1 ∧ s'.1.nodes = s.1.nodes ∧
      s'.1.peerEdges = s.1.peerEdges ++ ys.map (fun y => (nx, y)) ∧
      s'.2.replacementsAdded = s.2.replacementsAdded + ys.length ∧
      s'.2.hubRejectedEdges = s.2.hubRejectedEdges := by
  induction ys generalizing s with
  | nil => exact ⟨hs, rfl, by simp, rfl, rfl⟩
  | cons y ys ih =>
    obtain ⟨hy, hne, hfree⟩ := hnew y List.mem_cons_self
    obtain ⟨hy', hnd⟩ := List.nodup_cons.1 hnd
    obtain ⟨s₁, hstep, hedge, hadd, hrej⟩ : ∃ s₁, addReplacement nx s y = s₁ ∧
        s₁.1 = s.1.addEdge nx y ∧ s₁.2.replacementsAdded = s.2.replacementsAdded + 1 ∧
        s₁.2.hubRejectedEdges = s.2.hubRejectedEdges := by
      have hc : s.1.containsEdge nx y = false := by
        rwa [← Bool.not_eq_true, Topology.containsEdge_iff]
      unfold addReplacement
      rw [hc]
      exact ⟨_, rfl, rfl, rfl, rfl⟩
    have hok : PeersOk n s₁.1 := hedge ▸ hs.addEdge hnx hy hne hfree
    have hfree' : ∀ z ∈ ys, z < n ∧ nx ≠ z ∧ s(nx, z) ∉ s₁.1.peerSet := by
      intro z hz
      obtain ⟨hz₁, hz₂, hz₃⟩ := hnew z (List.mem_cons_of_mem y hz)
      refine ⟨hz₁, hz₂, ?_⟩
      rw [hedge, Topology.peerSet_addEdge, Finset.mem_insert, not_or]
      refine ⟨fun he => ?_, hz₃⟩
      rcases Sym2.eq_iff.1 he with ⟨-, rfl⟩ | ⟨-, he⟩
      · exact hy' hz
      · exact hz₂ he.symm
    dsimp only
    rw [List.foldl_cons, hstep]
    obtain ⟨h₁, h₂, h₃, h₄, h₅⟩ := ih hnd hok hfree'
    refine ⟨h₁, ?_, ?_, ?_, h₅.trans hrej⟩
    · rw [h₂, hedge]
      rfl
    · rw [h₃, hedge]
      simp [Topology.addEdge]
    · rw [h₄, hadd, List.length_cons]
      omega

/-- A turn draws distinct eligible vertices, one for each dropped pick as far as there are any. -/
structure Turn.Ok (n : Nat) (x : Turn) : Prop where
  node_lt : x.node < n
  nodup : x.drawn.Nodup
  subset : ∀ y ∈ x.drawn, y ∈ x.eligible
  length : x.drawn.length = min x.dropped x.eligible.card
  ne : x.node ∉ x.eligible

/-- What a turn does. -/
structure TurnStep (hubKept : List (Option (Finset Nat))) (n : Nat) (x : Turn)
    (s s' : Topology A × PeerBuildStats) : Prop where
  ok : x.Ok n
  pool : x.eligible = eligible hubKept n s.1 x.node
  peersOk : PeersOk n s'.1
  nodes : s'.1.nodes = s.1.nodes
  edges : s'.1.peerEdges = s.1.peerEdges ++ x.drawn.map fun y => (x.node, y)
  added : s'.2.replacementsAdded = s.2.replacementsAdded + x.drawn.length
  rejected : s'.2.hubRejectedEdges = s.2.hubRejectedEdges

theorem not_mem_eligible_self {nx : Nat} : nx ∉ eligible hubKept n t nx := by
  simp [eligible]

theorem replaceFor_turn {fuel : Nat} {o : HashOrder} {s s' : (Topology A × PeerBuildStats) × Rng}
    {x : Nat × Nat} (h : replaceFor hubKept fuel o n s x = some s') (hs : PeersOk n s.1.1)
    (hx : x.2 < n) (hk : hubKept.length ≤ n) : TurnStep hubKept n
      ⟨x.2, x.1, eligible hubKept n s.1.1 x.2,
        (s'.1.1.peerEdges.drop s.1.1.peerEdges.length).map Prod.snd⟩ s.1 s'.1 := by
  unfold replaceFor at h
  split at h
  · next h0 =>
    cases h
    rw [List.drop_length, h0]
    exact ⟨⟨hx, .nil, by simp, by simp, not_mem_eligible_self⟩, rfl, hs, rfl, by simp, rfl, rfl⟩
  obtain ⟨⟨picked, rng'⟩, hp, h⟩ := Option.bind_eq_some_iff.1 h
  cases h
  obtain ⟨hnd, hnew, hlen⟩ := pickStrangers_spec hp
  have hexcl : insert x.2 (s.1.1.neighbors x.2) ∪ rejecting hubKept x.2 ⊆ Finset.range n := by
    intro y hy
    rw [Finset.mem_range]
    rcases Finset.mem_union.1 hy with hy | hy
    · rcases Finset.mem_insert.1 hy with rfl | hy
      · exact hx
      · rcases Topology.mem_peerSet.1 (Topology.mem_neighbors.1 hy) with he | he
        · exact (hs.lt _ he).2
        · exact (hs.lt _ he).1
    · exact (Finset.mem_range.1 (Finset.mem_filter.1 hy).1).trans_le hk
  have hfree : ∀ y ∈ picked, y < n ∧ x.2 ≠ y ∧ s(x.2, y) ∉ s.1.1.peerSet := by
    intro y hy
    obtain ⟨hlt, hnot⟩ := hnew y hy
    rw [Finset.mem_union, Finset.mem_insert, not_or, not_or] at hnot
    exact ⟨hlt, fun he => hnot.1.1 he.symm, fun he => hnot.1.2 (Topology.mem_neighbors.2 he)⟩
  obtain ⟨hok, hnodes, hedges, hadded, hrej⟩ := foldl_addReplacement_new hnd hs hx hfree
  have hdrawn : ((picked.foldl (addReplacement x.2) s.1).1.peerEdges.drop
      s.1.1.peerEdges.length).map Prod.snd = picked := by
    rw [hedges, List.drop_left, List.map_map]
    exact List.map_id picked
  dsimp only
  rw [hdrawn]
  refine ⟨⟨hx, hnd, fun y hy => ?_, ?_, not_mem_eligible_self⟩, rfl, hok, hnodes, hedges, hadded,
    hrej⟩
  · exact Finset.mem_sdiff.2 ⟨Finset.mem_range.2 (hnew y hy).1, (hnew y hy).2⟩
  · rw [hlen, eligible, Finset.card_sdiff_of_subset hexcl, Finset.card_range]

/-- What phase 3 does, turn by turn. -/
structure PhaseThree (n : Nat) (l : List (Nat × Nat)) (turns : List Turn)
    (s s' : Topology A × PeerBuildStats) : Prop where
  order : turns.map (fun x => (x.dropped, x.node)) = l
  ok : ∀ x ∈ turns, x.Ok n
  peersOk : PeersOk n s'.1
  nodes : s'.1.nodes = s.1.nodes
  edges : s'.1.peerEdges = s.1.peerEdges ++ turns.flatMap fun x => x.drawn.map fun y => (x.node, y)
  added : s'.2.replacementsAdded = s.2.replacementsAdded + (turns.map fun x => x.drawn.length).sum
  rejected : s'.2.hubRejectedEdges = s.2.hubRejectedEdges

theorem phaseThree {fuel : Nat} {o : HashOrder} {s s' : (Topology A × PeerBuildStats) × Rng}
    {l : List (Nat × Nat)} (h : l.foldlM (replaceFor hubKept fuel o n) s = some s')
    (hs : PeersOk n s.1.1) (hl : ∀ x ∈ l, x.2 < n) (hk : hubKept.length ≤ n) :
    PhaseThree n l (turnsOf hubKept fuel o n s l) s.1 s'.1 := by
  induction l generalizing s with
  | nil =>
    cases h
    exact ⟨rfl, by simp [turnsOf], hs, rfl, by simp [turnsOf], by simp [turnsOf], rfl⟩
  | cons x l ih =>
    rw [List.foldlM_cons, Option.bind_eq_bind, Option.bind_eq_some_iff] at h
    obtain ⟨s₁, h₁, h⟩ := h
    obtain ⟨turn, hturn, hx, ht⟩ : ∃ turn, turnsOf hubKept fuel o n s (x :: l) =
        turn :: turnsOf hubKept fuel o n s₁ l ∧ (turn.dropped, turn.node) = x ∧
          TurnStep hubKept n turn s.1 s₁.1 := by
      refine ⟨_, ?_, ?_, replaceFor_turn h₁ hs (hl x List.mem_cons_self) hk⟩
      · rw [turnsOf, h₁]
        rfl
      · rfl
    have hr := ih h ht.peersOk fun y hy => hl y (List.mem_cons_of_mem x hy)
    rw [hturn]
    refine ⟨?_, ?_, hr.peersOk, hr.nodes.trans ht.nodes, ?_, ?_, hr.rejected.trans ht.rejected⟩
    · rw [List.map_cons, hr.order, hx]
    · intro y hy
      rcases List.mem_cons.1 hy with rfl | hy
      · exact ht.ok
      · exact hr.ok y hy
    · rw [hr.edges, ht.edges, List.flatMap_cons, List.append_assoc]
    · rw [hr.added, ht.added, List.map_cons, List.sum_cons, Nat.add_assoc]

end Turns

/-! ## The whole construction -/

section Whole

variable [IndexSample] {fuel : Nat} {o : HashOrder} {enforceHubCap : Bool}

/-- The state after phase 2, from the picks. -/
def afterPicks (enforceHubCap : Bool) (t : Topology A) (ps : List NodePicks) : Building A :=
  addPicks enforceHubCap (hubKeptOf enforceHubCap ps) ps
    ⟨t, List.replicate t.nodes.length 0, ⟨0, 0⟩⟩

/-- The turns of phase 3 of a construction with the cap. -/
def phase3Turns (fuel : Nat) (o : HashOrder) (t : Topology A) (kFor maxPeerFor : A → Nat)
    (rng : Rng) : List Turn :=
  if t.nodes.length < 2 then []
  else (pickNodes fuel o t kFor maxPeerFor t.nodes.length rng).elim [] fun r =>
    let b := afterPicks true t r.1
    turnsOf (hubKeptOf true r.1) fuel o t.nodes.length ((b.topology, b.stats), r.2)
      b.droppedPerNode.zipIdx

omit [IndexSample] in
theorem Plans.phaseTwo {ps : List NodePicks} (h : Plans t kFor maxPeerFor ps)
    (enforceHubCap : Bool) : PhaseTwo enforceHubCap (hubKeptOf enforceHubCap ps) t.nodes.length
      (requests ps) ⟨t, List.replicate t.nodes.length 0, ⟨0, 0⟩⟩
      (afterPicks enforceHubCap t ps) := by
  unfold afterPicks
  rw [addPicks_eq_foldl]
  exact phaseTwo_foldl (fun q hq => h.requests_lt hq) _

omit [IndexSample] in
theorem PeersOk.of_empty {n : Nat} (hE : t.peerEdges = []) : PeersOk n t where
  simple := hE ▸ SimpleEdges.nil
  lt := by simp [hE]

/-- A construction without the cap ends with phase 2. -/
theorem buildPeerGraph_false {r : List NodePicks × Rng} (hn : ¬t.nodes.length < 2)
    (hp : pickNodes fuel o t kFor maxPeerFor t.nodes.length rng = some r) :
    buildPeerGraph fuel o t kFor maxPeerFor rng false =
      some ((afterPicks false t r.1).topology, (afterPicks false t r.1).stats) := by
  unfold buildPeerGraph
  rw [if_neg hn]
  simp only [hp]
  rfl

/-- A construction with the cap goes on with the turns of phase 3. -/
theorem buildPeerGraph_true {s : Topology A × PeerBuildStats} (hn : ¬t.nodes.length < 2)
    (hE : t.peerEdges = [])
    (h : buildPeerGraph fuel o t kFor maxPeerFor rng true = some s) :
    ∃ r, pickNodes fuel o t kFor maxPeerFor t.nodes.length rng = some r ∧
      PhaseThree t.nodes.length (afterPicks true t r.1).droppedPerNode.zipIdx
        (phase3Turns fuel o t kFor maxPeerFor rng)
        ((afterPicks true t r.1).topology, (afterPicks true t r.1).stats) s := by
  unfold buildPeerGraph at h
  rw [if_neg hn] at h
  obtain ⟨r, hr, h⟩ := Option.bind_eq_some_iff.1 h
  dsimp only at h
  rw [if_pos rfl] at h
  obtain ⟨s', hs', rfl⟩ := Option.map_eq_some_iff.1 h
  have hplans := pickNodes_plans hr
  have htwo := hplans.phaseTwo true
  refine ⟨r, hr, ?_⟩
  have hturns : phase3Turns fuel o t kFor maxPeerFor rng =
      turnsOf (hubKeptOf true r.1) fuel o t.nodes.length
        (((afterPicks true t r.1).topology, (afterPicks true t r.1).stats), r.2)
        (afterPicks true t r.1).droppedPerNode.zipIdx := by
    unfold phase3Turns
    rw [if_neg hn, hr]
    rfl
  rw [hturns]
  refine phaseThree hs' (htwo.peersOk (.of_empty hE)) (fun x hx => ?_) ?_
  · have hlt := (List.getElem?_eq_some_iff.1 (List.mem_zipIdx_iff_getElem?.1 hx)).1
    rwa [htwo.length, List.length_replicate] at hlt
  · unfold hubKeptOf
    rw [if_pos rfl, List.length_map, hplans.length]

end Whole

end LnConv.Graph
