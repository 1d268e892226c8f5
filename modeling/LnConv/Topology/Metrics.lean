import LnConv.Topology.Synthetic
import Mathlib.Algebra.BigOperators.Fin
import Mathlib.Algebra.BigOperators.Field
import Mathlib.Algebra.Order.BigOperators.Group.Finset
import Mathlib.Combinatorics.SimpleGraph.Metric
import Mathlib.Data.Set.Card

/-!
# Topology stats

`statsUndirected` runs a shortest-path search from every vertex of a graph, or from a sample of
them, and adds up what they reach. The searches are a parameter, in the order of their hash map.
Means are rationals.
-/

namespace LnConv.Graph

/-- An undirected graph; it may have loops and parallel edges. -/
structure UnGraph (n : Nat) where
  edges : List (Fin n × Fin n)

structure GraphMetrics where
  n : Nat
  edges : Nat
  minDegree : Nat
  maxDegree : Nat
  meanDegree : ℚ
  diameter : Nat
  meanPathLength : ℚ
  bfsSources : Nat
  exact : Bool
  connected : Bool
  largestComponentSeen : Nat

variable {n : Nat}

namespace UnGraph

/-- The edges of a vertex; a loop is one of them. -/
def degree (g : UnGraph n) (v : Fin n) : Nat := g.edges.countP fun e => e.1 = v ∨ e.2 = v

/-- Who is adjacent to whom. -/
def graph (g : UnGraph n) : SimpleGraph (Fin n) := .fromRel fun u v => (u, v) ∈ g.edges

end UnGraph

/-- `dijkstra` with unit weights: the vertices reached, each with its distance. -/
structure UnitDijkstra (g : UnGraph n) where
  dists : Fin n → List (Fin n × Nat)
  nodup : ∀ s, ((dists s).map Prod.fst).Nodup
  mem_iff : ∀ s v d, (v, d) ∈ dists s ↔ g.graph.Reachable s v ∧ d = g.graph.dist s v

/-- The accumulators of the loop over sources. -/
structure PathSums where
  maxDist : Nat
  totalDist : Nat
  totalPairs : Nat
  largestComponent : Nat
  connected : Bool

namespace PathSums

def addDist (acc : PathSums) (d : Nat) : PathSums :=
  { acc with
    maxDist := max acc.maxDist d
    totalDist := acc.totalDist + d
    totalPairs := acc.totalPairs + 1 }

def addSource (dists : Fin n → List (Fin n × Nat)) (acc : PathSums) (src : Fin n) : PathSums :=
  let reachable := (dists src).length
  let acc := (dists src).foldl (fun acc x => acc.addDist x.2) acc
  { acc with
    largestComponent := max acc.largestComponent reachable
    connected := if reachable < n then false else acc.connected }

def sumPaths (dists : Fin n → List (Fin n × Nat)) (sources : List (Fin n)) : PathSums :=
  sources.foldl (addSource dists) ⟨0, 0, 0, 0, true⟩

end PathSums

open PathSums in
def statsUndirected [IndexSample] (g : UnGraph n) (search : UnitDijkstra g) (rng : Rng)
    (maxExactN sampleSources : Nat) : GraphMetrics :=
  let degs := (List.finRange n).map g.degree
  let exact := decide (n ≤ maxExactN)
  let sources :=
    if exact then List.finRange n
    else (IndexSample.sample rng n (min sampleSources n)).1.filterMap fun i =>
      if h : i < n then some ⟨i, h⟩ else none
  let sums := sumPaths search.dists sources
  { n := n
    edges := g.edges.length
    minDegree := degs.min?.getD 0
    maxDegree := degs.max?.getD 0
    meanDegree := (degs.sum : ℚ) / (max n 1 : Nat)
    diameter := sums.maxDist
    meanPathLength :=
      if sums.totalPairs > 0 then (sums.totalDist : ℚ) / (sums.totalPairs : ℚ) else 0
    bfsSources := sources.length
    exact := exact
    connected := sums.connected
    largestComponentSeen := sums.largestComponent }

/-! ## The loops -/

namespace PathSums

theorem foldl_addDist (ds : List (Fin n × Nat)) (acc : PathSums) :
    let acc' := ds.foldl (fun acc x => acc.addDist x.2) acc
    (∀ d, acc'.maxDist ≤ d ↔ acc.maxDist ≤ d ∧ ∀ x ∈ ds, x.2 ≤ d) ∧
      acc'.totalDist = acc.totalDist + (ds.map Prod.snd).sum ∧
      acc'.totalPairs = acc.totalPairs + ds.length ∧
      acc'.largestComponent = acc.largestComponent ∧ acc'.connected = acc.connected := by
  induction ds generalizing acc with
  | nil => simp
  | cons x ds ih =>
    obtain ⟨hmax, hdist, hpairs, hlargest, hconn⟩ := ih (acc.addDist x.2)
    refine ⟨fun d => ?_, ?_, ?_, hlargest, hconn⟩
    · rw [List.foldl_cons, hmax]
      simp only [addDist, max_le_iff, List.mem_cons, forall_eq_or_imp, and_assoc]
    · rw [List.foldl_cons, hdist, List.map_cons, List.sum_cons, ← Nat.add_assoc]
      rfl
    · rw [List.foldl_cons, hpairs, List.length_cons]
      simp only [addDist]
      omega

theorem foldl_addSource (dists : Fin n → List (Fin n × Nat)) (sources : List (Fin n))
    (acc : PathSums) :
    let acc' := sources.foldl (addSource dists) acc
    (∀ d, acc'.maxDist ≤ d ↔ acc.maxDist ≤ d ∧ ∀ s ∈ sources, ∀ x ∈ dists s, x.2 ≤ d) ∧
      acc'.totalDist = acc.totalDist +
        (sources.map fun s => ((dists s).map Prod.snd).sum).sum ∧
      acc'.totalPairs = acc.totalPairs + (sources.map fun s => (dists s).length).sum ∧
      (∀ d, acc'.largestComponent ≤ d ↔
        acc.largestComponent ≤ d ∧ ∀ s ∈ sources, (dists s).length ≤ d) ∧
      (acc'.connected = true ↔ acc.connected = true ∧ ∀ s ∈ sources, n ≤ (dists s).length) := by
  induction sources generalizing acc with
  | nil => simp
  | cons s sources ih =>
    obtain ⟨hmax, hdist, hpairs, hlargest, hconn⟩ := ih (acc.addSource dists s)
    obtain ⟨hmax₁, hdist₁, hpairs₁, hlargest₁, hconn₁⟩ := foldl_addDist (dists s) acc
    refine ⟨fun d => ?_, ?_, ?_, fun d => ?_, ?_⟩
    · rw [List.foldl_cons, hmax]
      simp only [addSource, hmax₁, List.mem_cons, forall_eq_or_imp, and_assoc]
    · rw [List.foldl_cons, hdist]
      simp only [addSource, hdist₁, List.map_cons, List.sum_cons, Nat.add_assoc]
    · rw [List.foldl_cons, hpairs]
      simp only [addSource, hpairs₁, List.map_cons, List.sum_cons, Nat.add_assoc]
    · rw [List.foldl_cons, hlargest]
      simp only [addSource, hlargest₁, max_le_iff, List.mem_cons, forall_eq_or_imp, and_assoc]
    · rw [List.foldl_cons, hconn]
      simp only [addSource, hconn₁, List.mem_cons, forall_eq_or_imp]
      split
      · next hlt => simp [Nat.not_le.2 hlt]
      · next hge => simp [Nat.not_lt.1 hge]

end PathSums

/-! ## What the searches find -/

namespace UnitDijkstra

variable {g : UnGraph n} (search : UnitDijkstra g)

def reached (s : Fin n) : Finset (Fin n) := ((search.dists s).map Prod.fst).toFinset

theorem mem_reached {s v : Fin n} : v ∈ search.reached s ↔ g.graph.Reachable s v := by
  rw [reached, List.mem_toFinset, List.mem_map]
  constructor
  · rintro ⟨⟨v, d⟩, hx, rfl⟩
    exact ((search.mem_iff s v d).1 hx).1
  · intro h
    exact ⟨(v, g.graph.dist s v), (search.mem_iff s v _).2 ⟨h, rfl⟩, rfl⟩

theorem self_mem_reached (s : Fin n) : s ∈ search.reached s := search.mem_reached.2 .rfl

theorem length_dists (s : Fin n) : (search.dists s).length = (search.reached s).card := by
  rw [reached, List.toFinset_card_of_nodup (search.nodup s), List.length_map]

theorem sum_dists (s : Fin n) :
    ((search.dists s).map Prod.snd).sum = ∑ v ∈ search.reached s, g.graph.dist s v := by
  have hdist : (search.dists s).map Prod.snd =
      ((search.dists s).map Prod.fst).map (g.graph.dist s) := by
    rw [List.map_map]
    exact List.map_congr_left fun x hx => ((search.mem_iff s x.1 x.2).1 hx).2
  rw [hdist, reached, List.sum_toFinset _ (search.nodup s)]

end UnitDijkstra

/-- The ordered pairs of different vertices that reach each other. -/
noncomputable def UnGraph.pairs (g : UnGraph n) : Finset (Fin n × Fin n) :=
  @Finset.filter _ (fun p => p.1 ≠ p.2 ∧ g.graph.Reachable p.1 p.2) (Classical.decPred _) Finset.univ

theorem UnGraph.mem_pairs {g : UnGraph n} {p : Fin n × Fin n} :
    p ∈ g.pairs ↔ p.1 ≠ p.2 ∧ g.graph.Reachable p.1 p.2 :=
  (@Finset.mem_filter _ _ (Classical.decPred _) _ _).trans (and_iff_right (Finset.mem_univ p))

theorem UnGraph.pairs_eq (g : UnGraph n)
    [DecidablePred fun p : Fin n × Fin n => p.1 ≠ p.2 ∧ g.graph.Reachable p.1 p.2] :
    g.pairs = Finset.univ.filter fun p => p.1 ≠ p.2 ∧ g.graph.Reachable p.1 p.2 := by
  ext p
  rw [mem_pairs, Finset.mem_filter]
  exact (and_iff_right (Finset.mem_univ p)).symm

noncomputable def UnGraph.meanDistance (g : UnGraph n) : ℚ :=
  ((∑ p ∈ g.pairs, g.graph.dist p.1 p.2 : Nat) : ℚ) / g.pairs.card

namespace UnitDijkstra

variable {g : UnGraph n} (search : UnitDijkstra g)

theorem sum_reached (f : Fin n → Fin n → Nat) :
    ∑ s, ∑ v ∈ search.reached s, f s v = ∑ s, f s s + ∑ p ∈ g.pairs, f p.1 p.2 := by
  classical
  rw [UnGraph.pairs_eq, Finset.sum_filter, Fintype.sum_prod_type, ← Finset.sum_add_distrib]
  refine Finset.sum_congr rfl fun s _ => ?_
  rw [← Finset.add_sum_erase _ _ (search.self_mem_reached s), ← Finset.sum_filter]
  congr 2
  ext v
  simp [search.mem_reached, eq_comm]

/-- All the distances of the graph are added up, none of them from a vertex to itself. -/
theorem totalDist_eq : (PathSums.sumPaths search.dists (List.finRange n)).totalDist =
    ∑ p ∈ g.pairs, g.graph.dist p.1 p.2 := by
  have hsum := search.sum_reached g.graph.dist
  simp only [SimpleGraph.dist_self, Finset.sum_const_zero, Nat.zero_add] at hsum
  rw [← hsum, PathSums.sumPaths, (PathSums.foldl_addSource ..).2.1, Nat.zero_add,
    Fin.sum_univ_def]
  exact congrArg List.sum (List.map_congr_left fun s _ => search.sum_dists s)

/-- But each vertex is counted as a pair with itself. -/
theorem totalPairs_eq : (PathSums.sumPaths search.dists (List.finRange n)).totalPairs =
    n + g.pairs.card := by
  have hsum := search.sum_reached fun _ _ => 1
  simp only [Finset.sum_const, smul_eq_mul, Nat.mul_one, Finset.card_univ, Fintype.card_fin] at hsum
  rw [← hsum, PathSums.sumPaths, (PathSums.foldl_addSource ..).2.2.1, Nat.zero_add,
    Fin.sum_univ_def]
  exact congrArg List.sum (List.map_congr_left fun s _ => search.length_dists s)

theorem sumPaths_maxDist (d : Nat) :
    (PathSums.sumPaths search.dists (List.finRange n)).maxDist ≤ d ↔
      ∀ u v, g.graph.Reachable u v → g.graph.dist u v ≤ d := by
  rw [PathSums.sumPaths, (PathSums.foldl_addSource ..).1]
  simp only [Nat.zero_le, true_and, List.mem_finRange, forall_const]
  constructor
  · intro h u v huv
    exact h u (v, g.graph.dist u v) ((search.mem_iff u v _).2 ⟨huv, rfl⟩)
  · rintro h s ⟨v, d⟩ hx
    obtain ⟨hsv, rfl⟩ := (search.mem_iff s v d).1 hx
    exact h s v hsv

theorem ncard_reachable (s : Fin n) :
    {v | g.graph.Reachable s v}.ncard = (search.reached s).card := by
  rw [← Set.ncard_coe_finset]
  congr 1
  ext v
  simp [search.mem_reached]

theorem sumPaths_largestComponent (k : Nat) :
    (PathSums.sumPaths search.dists (List.finRange n)).largestComponent ≤ k ↔
      ∀ u, {v | g.graph.Reachable u v}.ncard ≤ k := by
  rw [PathSums.sumPaths, (PathSums.foldl_addSource ..).2.2.2.1]
  simp [search.ncard_reachable, search.length_dists]

theorem sumPaths_connected :
    (PathSums.sumPaths search.dists (List.finRange n)).connected = true ↔
      ∀ u v, g.graph.Reachable u v := by
  rw [PathSums.sumPaths, (PathSums.foldl_addSource ..).2.2.2.2]
  simp only [true_and, List.mem_finRange, forall_const, search.length_dists]
  refine forall_congr' fun s => ?_
  have hall : n ≤ (search.reached s).card ↔ search.reached s = Finset.univ := by
    rw [← Finset.card_eq_iff_eq_univ, Fintype.card_fin]
    have hle := Finset.card_le_univ (search.reached s)
    rw [Fintype.card_fin] at hle
    omega
  rw [hall, Finset.eq_univ_iff_forall]
  exact forall_congr' fun v => search.mem_reached

end UnitDijkstra

/-! ## What the stats say -/

/-- The stats are those of the graph. -/
structure Describes (g : UnGraph n) (m : GraphMetrics) : Prop where
  diameter : IsGreatest {d | ∃ u v, g.graph.Reachable u v ∧ g.graph.dist u v = d} m.diameter
  connected : m.connected = true ↔ ∀ u v, g.graph.Reachable u v
  largest : IsGreatest (Set.range fun u => {v | g.graph.Reachable u v}.ncard)
    m.largestComponentSeen
  mean : m.meanPathLength = g.meanDistance

theorem isGreatest_of_le_iff {S : Set Nat} {m : Nat} (hne : S.Nonempty)
    (h : ∀ d, m ≤ d ↔ ∀ x ∈ S, x ≤ d) : IsGreatest S m := by
  have hub : m ∈ upperBounds S := (h m).1 (Nat.le_refl m)
  have hsup := Nat.sSup_mem hne ⟨m, hub⟩
  have hle : m ≤ sSup S := (h _).2 fun x hx => le_csSup ⟨m, hub⟩ hx
  exact ⟨Nat.le_antisymm hle (hub hsup) ▸ hsup, hub⟩

theorem UnGraph.pairs_eq_empty_iff (g : UnGraph n) :
    g.pairs = ∅ ↔ ∀ e ∈ g.edges, e.1 = e.2 := by
  constructor
  · intro h e he
    by_contra hne
    have hadj : g.graph.Adj e.1 e.2 := ⟨hne, .inl he⟩
    have hmem : (e.1, e.2) ∈ g.pairs := UnGraph.mem_pairs.2 ⟨hne, hadj.reachable⟩
    rw [h] at hmem
    exact absurd hmem (Finset.notMem_empty _)
  · intro h
    have hbot : g.graph = ⊥ := by
      ext u v
      constructor
      · rintro ⟨hne, he | he⟩
        · exact absurd (h _ he) hne
        · exact absurd (h _ he).symm hne
      · exact False.elim
    refine Finset.eq_empty_of_forall_notMem fun p hp => ?_
    obtain ⟨hne, hreach⟩ := UnGraph.mem_pairs.1 hp
    rw [hbot, SimpleGraph.reachable_bot] at hreach
    exact hne hreach

/-- Each pair is at least one apart. -/
theorem UnGraph.card_pairs_le (g : UnGraph n) :
    g.pairs.card ≤ ∑ p ∈ g.pairs, g.graph.dist p.1 p.2 := by
  rw [Finset.card_eq_sum_ones]
  refine Finset.sum_le_sum fun p hp => ?_
  obtain ⟨hne, hreach⟩ := UnGraph.mem_pairs.1 hp
  exact hreach.pos_dist_of_ne hne

section stats

variable [IndexSample] {g : UnGraph n} (search : UnitDijkstra g) (rng : Rng)
  {maxExactN : Nat} (sampleSources : Nat)

theorem statsUndirected_sums (hexact : n ≤ maxExactN) :
    let m := statsUndirected g search rng maxExactN sampleSources
    let sums := PathSums.sumPaths search.dists (List.finRange n)
    m.diameter = sums.maxDist ∧ m.connected = sums.connected ∧
      m.largestComponentSeen = sums.largestComponent ∧
      m.meanPathLength =
        if sums.totalPairs > 0 then (sums.totalDist : ℚ) / (sums.totalPairs : ℚ) else 0 := by
  simp [statsUndirected, hexact]

/-- The mean is over the pairs of the graph and the vertices as well. -/
theorem meanPathLength_eq (hn : 0 < n) (hexact : n ≤ maxExactN) :
    (statsUndirected g search rng maxExactN sampleSources).meanPathLength =
      ((∑ p ∈ g.pairs, g.graph.dist p.1 p.2 : Nat) : ℚ) / ((n + g.pairs.card : Nat) : ℚ) := by
  rw [(statsUndirected_sums search rng sampleSources hexact).2.2.2, search.totalDist_eq,
    search.totalPairs_eq, if_pos (Nat.add_pos_left hn _)]

theorem meanPathLength_eq_iff (hn : 0 < n) (hexact : n ≤ maxExactN) :
    (statsUndirected g search rng maxExactN sampleSources).meanPathLength = g.meanDistance ↔
      ∀ e ∈ g.edges, e.1 = e.2 := by
  rw [meanPathLength_eq search rng sampleSources hn hexact, UnGraph.meanDistance,
    ← g.pairs_eq_empty_iff, ← Finset.card_eq_zero]
  have hle := g.card_pairs_le
  constructor
  · intro heq
    by_contra hne
    have hpos : 0 < g.pairs.card := Nat.pos_of_ne_zero hne
    rw [div_eq_div_iff (by exact_mod_cast (by omega : n + g.pairs.card ≠ 0))
      (by exact_mod_cast hne)] at heq
    have heq : (∑ p ∈ g.pairs, g.graph.dist p.1 p.2) * g.pairs.card =
        (∑ p ∈ g.pairs, g.graph.dist p.1 p.2) * (n + g.pairs.card) := by exact_mod_cast heq
    have := Nat.eq_of_mul_eq_mul_left (by omega) heq
    omega
  · intro hzero
    rw [Finset.card_eq_zero.1 hzero]
    simp

/-- Of the four stats only the mean can be wrong, and it is as soon as two vertices are joined:
each vertex is counted as a pair with itself, at distance 0. -/
theorem statsUndirected_describes_iff (hn : 2 ≤ n) (hexact : n ≤ maxExactN) :
    Describes g (statsUndirected g search rng maxExactN sampleSources) ↔
      ∀ e ∈ g.edges, e.1 = e.2 := by
  have hpos : 0 < n := by omega
  obtain ⟨hdiameter, hconnected, hlargest, -⟩ := statsUndirected_sums search rng sampleSources hexact
  rw [← meanPathLength_eq_iff search rng sampleSources hpos hexact]
  refine ⟨fun h => h.mean, fun hmean => ⟨?_, ?_, ?_, hmean⟩⟩
  · rw [hdiameter]
    refine isGreatest_of_le_iff ⟨_, ⟨0, hpos⟩, ⟨0, hpos⟩, .rfl, rfl⟩ fun d => ?_
    rw [search.sumPaths_maxDist]
    exact ⟨fun h x ⟨u, v, huv, hx⟩ => hx ▸ h u v huv, fun h u v huv => h _ ⟨u, v, huv, rfl⟩⟩
  · rw [hconnected, search.sumPaths_connected]
  · rw [hlargest]
    refine isGreatest_of_le_iff ⟨_, ⟨0, hpos⟩, rfl⟩ fun k => ?_
    rw [search.sumPaths_largestComponent]
    rw [Set.forall_mem_range]

end stats

/-- The first positions, in order. -/
@[reducible] def firstSample : IndexSample where
  sample rng len amount := ((List.range len).take amount, rng)
  nodup _ _ _ := List.nodup_range.sublist (List.take_sublist ..)
  lt _ _ _ i hi := List.mem_range.1 (List.mem_of_mem_take hi)
  length _ _ _ := by simp
  outcome _ _ _ := rfl

/-- Two vertices and the edge between them. -/
def pairGraph : UnGraph 2 := ⟨[(0, 1)]⟩

theorem pairGraph_adj {u v : Fin 2} (h : u ≠ v) : pairGraph.graph.Adj u v := by
  refine ⟨h, ?_⟩
  revert u v
  decide

def pairSearch : UnitDijkstra pairGraph where
  dists s := if s = 0 then [(0, 0), (1, 1)] else [(1, 0), (0, 1)]
  nodup s := by revert s; decide
  mem_iff s v d := by
    have hreach : pairGraph.graph.Reachable s v := by
      by_cases h : s = v
      · rw [h]
      · exact (pairGraph_adj h).reachable
    have hdist : pairGraph.graph.dist s v = if s = v then 0 else 1 := by
      split
      · next h => rw [h, SimpleGraph.dist_self]
      · next h => exact SimpleGraph.dist_eq_one_iff_adj.2 (pairGraph_adj h)
    rw [hdist, and_iff_right hreach]
    revert s v
    simp [Fin.forall_fin_two]

/-- The two vertices are 1 apart, and the mean is 1/2. -/
theorem pair_mean_halved :
    (@statsUndirected 2 firstSample pairGraph pairSearch ⟨id, 0⟩ 2000 1000).meanPathLength = 1 / 2 ∧
    ¬ Describes pairGraph (@statsUndirected 2 firstSample pairGraph pairSearch ⟨id, 0⟩ 2000 1000) := by
  refine ⟨by decide +kernel, fun h => ?_⟩
  have hloop := (@meanPathLength_eq_iff 2 firstSample pairGraph pairSearch ⟨id, 0⟩ 2000 1000
    (by decide) (by decide)).1 h.mean (0, 1) (by decide)
  exact absurd hloop (by decide)

/-- Two vertices without an edge. -/
def noEdges : UnGraph 2 := ⟨[]⟩

theorem noEdges_graph : noEdges.graph = ⊥ := by
  ext u v
  simp [noEdges, UnGraph.graph]

def noEdgesSearch : UnitDijkstra noEdges where
  dists s := [(s, 0)]
  nodup s := by simp
  mem_iff s v d := by
    rw [noEdges_graph, SimpleGraph.reachable_bot, List.mem_singleton, Prod.mk.injEq, eq_comm]
    refine and_congr_right fun h => ?_
    rw [h, SimpleGraph.dist_self]

theorem statsUndirected_describes_iff_sample :
    Describes noEdges (@statsUndirected 2 firstSample noEdges noEdgesSearch ⟨id, 0⟩ 2000 1000) :=
  (@statsUndirected_describes_iff 2 firstSample noEdges noEdgesSearch ⟨id, 0⟩ 2000 1000
    (by decide) (by decide)).2 (by decide)

end LnConv.Graph
