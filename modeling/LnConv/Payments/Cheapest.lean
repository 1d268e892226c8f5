import Mathlib.Algebra.Order.Group.Nat
import LnConv.Lib.Labels
import LnConv.Payments.Check

/-!
# The cheapest path

What an edge costs depends on the amount and the time lock that arrive at its node, so on the
candidate of that node. The search sets labels: it visits the nodes in the order of the weights
of their candidates, and a visit leaves the candidates of the visited nodes alone. The source
does not check for that; it follows from the order of the queue, where no weight overflows.
-/

namespace LnConv.Payments

variable {n k : Nat}

namespace ChannelWeight

theorem toNat_add {w o : ChannelWeight} (h : w.toNat + o.toNat < 2 ^ 64) :
    (w.add o).toNat = w.toNat + o.toNat := by
  have hinf : infinityWeight.toNat = 2 ^ 64 - 1 := rfl
  unfold add
  split_ifs with hi
  · rcases hi with rfl | rfl
    · omega
    · omega
  · rw [UInt64.toNat_add]
    exact Nat.mod_eq_of_lt h

theorem add_comm (w o : ChannelWeight) : w.add o = o.add w := by
  unfold add
  exact if_congr or_comm rfl (UInt64.add_comm w o)

end ChannelWeight

namespace DistanceMap

variable {m m' : DistanceMap n} {w key : UInt64} {u v : Fin n}

/-- The node is filed under the distance. -/
def At (m : DistanceMap n) (w : UInt64) (v : Fin n) : Prop := ∃ l, (w, l) ∈ m.entries ∧ v ∈ l

theorem at_iff_of_append {a b : List (UInt64 × List (Fin n))} {l : List (Fin n)}
    (h : m.entries = a ++ (key, l) :: b) :
    m.At w v ↔ (∃ r, (w, r) ∈ a ++ b ∧ v ∈ r) ∨ w = key ∧ v ∈ l := by
  unfold At
  rw [h]
  constructor
  · rintro ⟨r, hr, hv⟩
    rcases List.mem_append.1 hr with hr | hr
    · exact .inl ⟨r, List.mem_append_left _ hr, hv⟩
    · rcases List.mem_cons.1 hr with heq | hr
      · cases heq
        exact .inr ⟨rfl, hv⟩
      · exact .inl ⟨r, List.mem_append_right _ hr, hv⟩
  · rintro (⟨r, hr, hv⟩ | ⟨rfl, hv⟩)
    · exact ⟨r, List.perm_middle.mem_iff.2 (List.mem_cons_of_mem _ hr), hv⟩
    · exact ⟨l, List.mem_append_right _ List.mem_cons_self, hv⟩

theorem at_push : At (push m key u) w v ↔ m.At w v ∨ w = key ∧ v = u := by
  unfold push
  split
  · next l hl =>
    obtain ⟨a, b, hm, hp⟩ := SortedMap.put_of_get_eq_some hl (l ++ [u])
    rw [at_iff_of_append hp, at_iff_of_append hm, List.mem_append, List.mem_singleton, and_or_left,
      or_assoc]
  · next hl =>
    obtain ⟨a, b, hm, hp⟩ := SortedMap.put_of_get_eq_none hl [u]
    rw [at_iff_of_append hp, List.mem_singleton]
    unfold At
    rw [hm]

/-- The next node is filed under the least distance, and the others stay. -/
theorem nextToVisit_least (h : m.Filled) (hnext : m.nextToVisit = some (some v, m')) :
    ∃ w, m.At w v ∧ (∀ x y, m.At x y → w ≤ x) ∧ (∀ x y, m'.At x y → m.At x y) ∧
      ∀ x y, y ≠ v → m.At x y → m'.At x y := by
  rcases nextToVisit_entries h with ⟨-, hnone⟩ | ⟨w, v', l, entries, m'', he, hsome, hrest⟩
  · cases hnone.symm.trans hnext
  · cases hsome.symm.trans hnext
    have hat : ∀ x y, m.At x y ↔ (∃ r, (x, r) ∈ entries ∧ y ∈ r) ∨ x = w ∧ y ∈ v :: l :=
      fun x y => at_iff_of_append (a := []) he
    have hat' : ∀ x y, m'.At x y ↔ (∃ r, (x, r) ∈ entries ∧ y ∈ r) ∨ x = w ∧ y ∈ l := by
      intro x y
      cases l with
      | nil =>
        unfold At
        rw [hrest, if_pos rfl]
        simp
      | cons u l => exact at_iff_of_append (a := []) (hrest.trans (if_neg (List.cons_ne_nil _ _)))
    have hsorted := m.sorted
    rw [he] at hsorted
    refine ⟨w, (hat w v).2 (.inr ⟨rfl, List.mem_cons_self⟩), fun x y hxy => ?_, fun x y hxy => ?_,
      fun x y hne hxy => ?_⟩
    · rcases (hat x y).1 hxy with ⟨r, hr, -⟩ | ⟨rfl, -⟩
      · exact UInt64.le_of_lt (List.rel_of_pairwise_cons hsorted hr)
      · exact UInt64.le_refl x
    · exact (hat x y).2 (((hat' x y).1 hxy).imp_right fun h => ⟨h.1, List.mem_cons_of_mem _ h.2⟩)
    · exact (hat' x y).2 (((hat x y).1 hxy).imp_right fun h =>
        ⟨h.1, (List.mem_cons.1 h.2).resolve_left hne⟩)

end DistanceMap

/-- A path with a hop before the first one of another. -/
structure PaymentPath.Extends (q p : PaymentPath n) (e : GraphChannel n) (weight : ChannelWeight) :
    Prop where
  hops : q.hops = e :: p.hops
  amounts : q.amounts = p.aggAmt :: p.amounts
  aggWeight : q.aggWeight = p.aggWeight.add weight

theorem PaymentPath.addHop_eq_some {p q : PaymentPath n} {c : GraphChannel n} {aggAmount : UInt64}
    {aggTime : UInt16} (h : p.addHop c aggAmount aggTime = some q) :
    q.hops = c :: p.hops ∧ q.amounts = aggAmount :: p.amounts ∧ q.aggWeight = p.aggWeight := by
  unfold addHop at h
  dsimp only at h
  split at h
  · next hnil =>
    cases h
    exact ⟨congrArg _ hnil.symm, rfl, rfl⟩
  · split_ifs at h
    cases h
    exact ⟨rfl, rfl, rfl⟩

namespace LightingNetworkSimulation

variable (sim : LightingNetworkSimulation n k) (srcNode : Fin n) (maxTimeLock : UInt16)

/-- An edge, as the source sees it, over which a neighbor can forward the amount of a candidate to
its node. -/
def PricedEdge (p : PaymentPath n) (currentNode toNode : Fin n) (e : GraphChannel n)
    (weight : ChannelWeight) : Prop :=
  currentNode ≠ srcNode ∧ weight < infinityWeight ∧
    (∃ edge ∈ sim.g.between currentNode toNode, sim.seenEdge srcNode edge toNode = some (some e)) ∧
    e.price p.aggAmt (maxTimeLock - p.aggTime) currentNode toNode srcNode = some (some weight)

def Priced (p : PaymentPath n) (currentNode toNode : Fin n) (weight : ChannelWeight) : Prop :=
  ∃ e, sim.PricedEdge srcNode maxTimeLock p currentNode toNode e weight

/-- The costs of the edges at the candidates of their nodes. -/
def cost (candidateMap : Fin n → Option (PaymentPath n)) (u w : Fin n) (c : Nat) : Prop :=
  ∃ p weight, candidateMap u = some p ∧ sim.Priced srcNode maxTimeLock p u w weight ∧
    c = weight.toNat

def labels (s : Search n) : Labels (Fin n) Nat where
  label v := (s.candidateMap v).map fun p => p.aggWeight.toNat
  settled v := v ∈ s.visited
  edge := sim.cost srcNode maxTimeLock s.candidateMap

variable {sim srcNode maxTimeLock} {currentNode toNode : Fin n} {p : PaymentPath n}

theorem tryEdge_cheapest {amount : UInt64} {currMaxTimeLock : UInt16} {edge : GraphChannel n}
    {cheapest r : ChannelWeight × Option (GraphChannel n)}
    (h : sim.tryEdge amount currMaxTimeLock currentNode toNode srcNode cheapest edge = some r) :
    (r = cheapest ∨ ∃ e, sim.seenEdge srcNode edge toNode = some (some e) ∧
      e.price amount currMaxTimeLock currentNode toNode srcNode = some (some r.1) ∧
      r.2 = some e ∧ r.1 < cheapest.1) ∧
    ∀ e weight, sim.seenEdge srcNode edge toNode = some (some e) →
      e.price amount currMaxTimeLock currentNode toNode srcNode = some (some weight) →
      r.1 ≤ weight := by
  unfold tryEdge at h
  cases hseen : sim.seenEdge srcNode edge toNode with
  | none =>
    rw [hseen] at h
    cases h
  | some seen =>
    rw [hseen] at h
    simp only [Option.bind_eq_bind, Option.bind_some] at h
    cases seen with
    | none =>
      cases h
      exact ⟨.inl rfl, nofun⟩
    | some e =>
      dsimp only at h
      cases hprice : e.price amount currMaxTimeLock currentNode toNode srcNode with
      | none =>
        rw [hprice] at h
        cases h
      | some price =>
        rw [hprice] at h
        simp only [Option.bind_some] at h
        cases price with
        | none =>
          cases h
          refine ⟨.inl rfl, fun e' weight he hw => ?_⟩
          cases he
          cases hprice.symm.trans hw
        | some weight =>
          cases h
          refine ⟨?_, fun e' weight' he hw => ?_⟩
          · split_ifs with hlt
            · exact .inr ⟨e, rfl, hprice, rfl, hlt⟩
            · exact .inl rfl
          · cases he
            cases hprice.symm.trans hw
            split_ifs with hlt
            · exact UInt64.le_refl weight
            · exact UInt64.not_lt.1 hlt

/-- The edge found is priced, and no edge costs less. -/
theorem findCheapestEdge_cheapest {candidateMap : Fin n → Option (PaymentPath n)}
    (hp : candidateMap currentNode = some p) {cheapest : ChannelWeight}
    {found : Option (GraphChannel n)}
    (h : sim.findCheapestEdge maxTimeLock currentNode toNode srcNode candidateMap =
      some (cheapest, found)) :
    (∀ e, found = some e → sim.PricedEdge srcNode maxTimeLock p currentNode toNode e cheapest) ∧
    ∀ weight, sim.Priced srcNode maxTimeLock p currentNode toNode weight →
      found.isSome ∧ cheapest ≤ weight := by
  unfold findCheapestEdge at h
  rw [hp] at h
  dsimp only at h
  split_ifs at h with hsrc
  · cases h
    exact ⟨nofun, fun _ ⟨_, hw⟩ => absurd hsrc hw.1⟩
  · have hloop := foldlM_forall (P := fun r => (r.2 = none → r.1 = infinityWeight) ∧
        ∀ e, r.2 = some e → sim.PricedEdge srcNode maxTimeLock p currentNode toNode e r.1)
      (Q := fun edge r => ∀ e weight, sim.seenEdge srcNode edge toNode = some (some e) →
        e.price p.aggAmt (maxTimeLock - p.aggTime) currentNode toNode srcNode = some (some weight) →
        r.1 ≤ weight)
      (fun r edge hedge r' hr hr' => ?_) ⟨fun _ => rfl, fun _ he => by cases he⟩ h
    · obtain ⟨⟨hnone, hsome⟩, hleast, -⟩ := hloop
      refine ⟨hsome, fun weight ⟨e, _, hinf, ⟨edge, hedge, he⟩, hw⟩ => ?_⟩
      have hle := hleast edge hedge e weight he hw
      refine ⟨Option.isSome_iff_ne_none.2 fun hr => ?_, hle⟩
      dsimp only at hnone hle
      rw [hnone hr] at hle
      exact absurd hinf (UInt64.not_lt.2 hle)
    · obtain ⟨hcases, hle⟩ := tryEdge_cheapest hr'
      rcases hcases with rfl | ⟨e, he, hw, hfound, hlt⟩
      · exact ⟨hr, hle, fun _ hy => hy⟩
      · have hinf : r.1 ≤ infinityWeight := UInt64.le_iff_toNat_le.2 (Nat.le_pred_of_lt r.1.toNat_lt)
        refine ⟨⟨fun hnone => ?_, fun e' he' => ?_⟩, hle, fun y hy e' weight he' hw' => ?_⟩
        · cases hfound.symm.trans hnone
        · cases hfound.symm.trans he'
          exact ⟨hsrc, UInt64.lt_of_lt_of_le hlt hinf, ⟨edge, hedge, he⟩, hw⟩
        · exact UInt64.le_trans (UInt64.le_of_lt hlt) (hy e' weight he' hw')

/-- A neighbor's candidate is kept, where it is cheap enough, or replaced by a cheaper one. -/
theorem relax_cases {s t : Search n}
    (h : sim.relax srcNode maxTimeLock currentNode p s toNode = some t) :
    ∃ cheapest found,
      sim.findCheapestEdge maxTimeLock currentNode toNode srcNode s.candidateMap =
        some (cheapest, found) ∧
      ((t = s ∧ (found.isSome → ∃ old, s.candidateMap toNode = some old ∧
        old.aggWeight ≤ p.aggWeight.add cheapest)) ∨
      ∃ e q, found = some e ∧ q.Extends p e cheapest ∧
        (∀ old, s.candidateMap toNode = some old → q.aggWeight < old.aggWeight) ∧
        t = { s with
          candidateMap := Function.update s.candidateMap toNode (some q)
          distanceMap := s.distanceMap.push q.aggWeight toNode }) := by
  unfold relax at h
  rw [Option.bind_eq_bind, Option.bind_eq_some_iff] at h
  obtain ⟨⟨cheapest, found⟩, hfind, h⟩ := h
  refine ⟨cheapest, found, hfind, ?_⟩
  cases found with
  | none =>
    cases h
    exact .inl ⟨rfl, nofun⟩
  | some e =>
    dsimp only at h
    rw [ChannelWeight.add_comm cheapest] at h
    simp only [Option.bind_eq_bind, Option.bind_eq_some_iff] at h
    obtain ⟨fee, -, timeLock, -, h⟩ := h
    split_ifs at h with hold
    · cases h
      obtain ⟨old, hcand, hle⟩ := (Option.any_eq_true _ _).1 hold
      exact .inl ⟨rfl, fun _ => ⟨old, hcand, of_decide_eq_true hle⟩⟩
    · rw [Option.bind_eq_some_iff] at h
      obtain ⟨newPath, hnew, h⟩ := h
      obtain ⟨hhops, hamounts, hweight⟩ := PaymentPath.addHop_eq_some hnew
      split_ifs at h
      cases h
      refine .inr ⟨e, { newPath with
        aggWeight := newPath.aggWeight.add cheapest
        aggAmt := newPath.aggAmt + fee
        aggTime := newPath.aggTime + timeLock }, rfl, ⟨hhops, hamounts, ?_⟩, fun old hcand => ?_, rfl⟩
      · exact congrArg (ChannelWeight.add · cheapest) hweight
      · have hlt := of_decide_eq_false
          ((Option.any_eq_false _ _).1 (Bool.eq_false_iff.2 hold) old hcand)
        dsimp only
        rw [hweight]
        exact UInt64.not_le.1 hlt

variable (sim) in
/-- The weight of the edge found can be added. -/
def FoundAdds (maxTimeLock : UInt16) (currentNode toNode srcNode : Fin n)
    (candidateMap : Fin n → Option (PaymentPath n)) (aggWeight : ChannelWeight) : Prop :=
  ∀ found ∈ sim.findCheapestEdge maxTimeLock currentNode toNode srcNode candidateMap,
    found.2.isSome → aggWeight.toNat + found.1.toNat < 2 ^ 64

/-- What a neighbor's candidate weighs, where the weights can be added. -/
theorem relax_weight {s t : Search n} (hp : s.candidateMap currentNode = some p)
    (hadds : sim.FoundAdds maxTimeLock currentNode toNode srcNode s.candidateMap p.aggWeight)
    (h : sim.relax srcNode maxTimeLock currentNode p s toNode = some t) :
    (t = s ∨ ∃ q weight, t = { s with
        candidateMap := Function.update s.candidateMap toNode (some q)
        distanceMap := s.distanceMap.push q.aggWeight toNode } ∧
      sim.Priced srcNode maxTimeLock p currentNode toNode weight ∧
      q.aggWeight.toNat = p.aggWeight.toNat + weight.toNat ∧
      ∀ old, s.candidateMap toNode = some old → q.aggWeight < old.aggWeight) ∧
    ∀ weight, sim.Priced srcNode maxTimeLock p currentNode toNode weight →
      ∃ q, t.candidateMap toNode = some q ∧ q.aggWeight.toNat ≤ p.aggWeight.toNat + weight.toNat := by
  obtain ⟨cheapest, found, hfind, hcases⟩ := relax_cases h
  obtain ⟨hpriced, hleast⟩ := findCheapestEdge_cheapest hp hfind
  have hsum : found.isSome → (p.aggWeight.add cheapest).toNat =
      p.aggWeight.toNat + cheapest.toNat := fun hf => ChannelWeight.toNat_add (hadds _ hfind hf)
  rcases hcases with ⟨rfl, hold⟩ | ⟨e, q, rfl, hq, hlt, rfl⟩
  · refine ⟨.inl rfl, fun weight hw => ?_⟩
    obtain ⟨hfound, hle⟩ := hleast weight hw
    obtain ⟨old, hcand, hcheap⟩ := hold hfound
    refine ⟨old, hcand, (UInt64.le_iff_toNat_le.1 hcheap).trans ?_⟩
    rw [hsum hfound]
    exact Nat.add_le_add_left (UInt64.le_iff_toNat_le.1 hle) _
  · have hweight : q.aggWeight.toNat = p.aggWeight.toNat + cheapest.toNat := by
      rw [hq.aggWeight, hsum rfl]
    refine ⟨.inr ⟨q, cheapest, rfl, ⟨e, hpriced e rfl⟩, hweight, hlt⟩, fun weight hw => ?_⟩
    refine ⟨q, Function.update_self .., ?_⟩
    rw [hweight]
    exact Nat.add_le_add_left (UInt64.le_iff_toNat_le.1 (hleast weight hw).2) _

/-- The nodes with a candidate are queued unless they are done, and none too early. -/
structure Queued (done : Finset (Fin n)) (s : Search n) : Prop where
  filed : ∀ v q, v ∉ done → s.candidateMap v = some q → s.distanceMap.At q.aggWeight v
  le : ∀ w v, s.distanceMap.At w v → ∃ q, s.candidateMap v = some q ∧ q.aggWeight ≤ w

theorem Queued.update {done : Finset (Fin n)} {s : Search n} (h : Queued done s) {v : Fin n}
    {q : PaymentPath n} (hq : ∀ old, s.candidateMap v = some old → q.aggWeight < old.aggWeight) :
    Queued done { s with
      candidateMap := Function.update s.candidateMap v (some q)
      distanceMap := s.distanceMap.push q.aggWeight v } := by
  refine ⟨fun u r hu hr => ?_, fun w u hat => ?_⟩
  · refine DistanceMap.at_push.2 ?_
    dsimp only at hr
    by_cases huv : u = v
    · rw [huv, Function.update_self] at hr
      cases hr
      exact .inr ⟨rfl, huv⟩
    · rw [Function.update_of_ne huv] at hr
      exact .inl (h.filed u r hu hr)
  · dsimp only
    by_cases huv : u = v
    · rw [huv, Function.update_self]
      refine ⟨q, rfl, ?_⟩
      rcases DistanceMap.at_push.1 hat with hold | ⟨rfl, -⟩
      · obtain ⟨old, hcand, hle⟩ := h.le w u hold
        exact UInt64.le_trans (UInt64.le_of_lt (hq old (huv ▸ hcand))) hle
      · exact UInt64.le_refl _
    · rw [Function.update_of_ne huv]
      exact h.le w u ((DistanceMap.at_push.1 hat).resolve_right fun hnew => huv hnew.2)

variable (sim srcNode maxTimeLock) in
/-- What the visit of a node makes of a search. -/
structure Visiting (s : Search n) (currentNode : Fin n) (p : PaymentPath n) (t : Search n) : Prop where
  visited : t.visited = s.visited
  lower : ∀ w q, s.candidateMap w = some q →
    ∃ q', t.candidateMap w = some q' ∧ q'.aggWeight ≤ q.aggWeight
  source : ∀ w, t.candidateMap w = s.candidateMap w ∨ ∃ q weight, t.candidateMap w = some q ∧
    sim.Priced srcNode maxTimeLock p currentNode w weight ∧
    q.aggWeight.toNat = p.aggWeight.toNat + weight.toNat ∧
    ∀ old, s.candidateMap w = some old → q.aggWeight < old.aggWeight
  queued : Queued (insert currentNode s.visited) t

/-- Candidates that weigh no more than that of the node visited stay. -/
theorem Visiting.kept {s t : Search n} (h : sim.Visiting srcNode maxTimeLock s currentNode p t)
    {v : Fin n} {q : PaymentPath n} (hq : s.candidateMap v = some q)
    (hle : q.aggWeight ≤ p.aggWeight) : t.candidateMap v = some q := by
  rcases h.source v with hsame | ⟨q', weight, -, -, hsum, hlt⟩
  · exact hsame.trans hq
  · have hlt := UInt64.lt_iff_toNat_lt.1 (hlt q hq)
    have hle := UInt64.le_iff_toNat_le.1 hle
    omega

/-- The edges to a neighbor are relaxed. -/
def Relaxed (sim : LightingNetworkSimulation n k) (srcNode : Fin n) (maxTimeLock : UInt16)
    (currentNode : Fin n) (p : PaymentPath n) (w : Fin n) (t : Search n) : Prop :=
  ∀ weight, sim.Priced srcNode maxTimeLock p currentNode w weight →
    ∃ q, t.candidateMap w = some q ∧ q.aggWeight.toNat ≤ p.aggWeight.toNat + weight.toNat

theorem Visiting.relax {s t t' : Search n} (h : sim.Visiting srcNode maxTimeLock s currentNode p t)
    (hp : s.candidateMap currentNode = some p)
    (hadds : sim.FoundAdds maxTimeLock currentNode toNode srcNode s.candidateMap p.aggWeight)
    (hr : sim.relax srcNode maxTimeLock currentNode p t toNode = some t') :
    sim.Visiting srcNode maxTimeLock s currentNode p t' ∧
      sim.Relaxed srcNode maxTimeLock currentNode p toNode t' ∧
      ∀ w, sim.Relaxed srcNode maxTimeLock currentNode p w t →
        sim.Relaxed srcNode maxTimeLock currentNode p w t' := by
  have hpt : t.candidateMap currentNode = some p := h.kept hp (UInt64.le_refl _)
  have hadds' : sim.FoundAdds maxTimeLock currentNode toNode srcNode t.candidateMap p.aggWeight := by
    unfold FoundAdds
    rw [findCheapestEdge_congr (hpt.trans hp.symm)]
    exact hadds
  obtain ⟨rfl | ⟨q, weight, rfl, hpriced, hsum, hlt⟩, hrelaxed⟩ := relax_weight hpt hadds' hr
  · exact ⟨h, hrelaxed, fun _ hw => hw⟩
  · have hlower : ∀ w r, t.candidateMap w = some r →
        ∃ r', Function.update t.candidateMap toNode (some q) w = some r' ∧
          r'.aggWeight ≤ r.aggWeight := by
      intro w r hr
      by_cases hw : w = toNode
      · rw [hw, Function.update_self]
        exact ⟨q, rfl, UInt64.le_of_lt (hlt r (hw ▸ hr))⟩
      · rw [Function.update_of_ne hw]
        exact ⟨r, hr, UInt64.le_refl _⟩
    refine ⟨⟨h.visited, fun w r hr => ?_, fun w => ?_, h.queued.update hlt⟩, hrelaxed,
      fun w hw weight' hw' => ?_⟩
    · obtain ⟨r', hr', hle⟩ := h.lower w r hr
      obtain ⟨r'', hr'', hle'⟩ := hlower w r' hr'
      exact ⟨r'', hr'', UInt64.le_trans hle' hle⟩
    · dsimp only
      by_cases hw : w = toNode
      · rw [hw, Function.update_self]
        refine .inr ⟨q, weight, rfl, hpriced, hsum, fun old hold => ?_⟩
        obtain ⟨r, hr, hle⟩ := h.lower toNode old hold
        exact UInt64.lt_of_lt_of_le (hlt r hr) hle
      · rw [Function.update_of_ne hw]
        exact h.source w
    · obtain ⟨r, hr, hle⟩ := hw weight' hw'
      obtain ⟨r', hr', hle'⟩ := hlower w r hr
      exact ⟨r', hr', (UInt64.le_iff_toNat_le.1 hle').trans hle⟩

/-- A visit relaxes all edges of the node. -/
theorem visiting_of_foldlM {s t : Search n} (hp : s.candidateMap currentNode = some p)
    (hqueued : Queued (insert currentNode s.visited) s)
    (hadds : ∀ w, sim.FoundAdds maxTimeLock currentNode w srcNode s.candidateMap p.aggWeight)
    (h : ((sim.g.neighbors currentNode).map Prod.fst).foldlM
      (sim.relax srcNode maxTimeLock currentNode p) s = some t) :
    sim.Visiting srcNode maxTimeLock s currentNode p t ∧
      ∀ w, sim.Relaxed srcNode maxTimeLock currentNode p w t := by
  obtain ⟨hvisiting, hrelaxed, -⟩ := foldlM_forall
    (P := fun t => sim.Visiting srcNode maxTimeLock s currentNode p t)
    (Q := fun w t => sim.Relaxed srcNode maxTimeLock currentNode p w t)
    (fun _ w _ _ ht hr => ht.relax hp (hadds w) hr)
    ⟨rfl, fun w q hq => ⟨q, hq, UInt64.le_refl _⟩, fun _ => .inl rfl, hqueued⟩ h
  refine ⟨hvisiting, fun w weight ⟨e, hw⟩ => ?_⟩
  obtain ⟨edge, hedge, -⟩ := hw.2.2.1
  obtain ⟨cs, hcs, -⟩ := ChannelGraph.mem_neighbors_of_mem_between hedge
  exact hrelaxed w (List.mem_map_of_mem hcs) weight ⟨e, hw⟩

theorem labels_eq_some {s : Search n} {v : Fin n} {d : Nat} :
    (sim.labels srcNode maxTimeLock s).label v = some d ↔
      ∃ q, s.candidateMap v = some q ∧ q.aggWeight.toNat = d := Option.map_eq_some_iff

variable {dst : Fin n}

/-- What holds of a search that has visited its nodes in the order of their weights. -/
structure Ordered (sim : LightingNetworkSimulation n k) (src dst : Fin n) (maxTimeLock : UInt16)
    (s : Search n) : Prop where
  source : src ∉ s.visited
  queued : Queued s.visited s
  valid : (sim.labels src maxTimeLock s).Valid dst

theorem ordered_start (sim : LightingNetworkSimulation n k) (src dst : Fin n) (amount : UInt64)
    (maxTimeLock : UInt16) : sim.Ordered src dst maxTimeLock (.start src dst amount) := by
  have hcand : ∀ v p, (Search.start src dst amount).candidateMap v = some p ↔
      v = dst ∧ p = newPaymentPath amount src dst := by
    intro v p
    unfold Search.start
    dsimp only
    by_cases hv : v = dst
    · rw [hv, Function.update_self, Option.some_inj, eq_comm, and_iff_right rfl]
    · rw [Function.update_of_ne hv]
      exact ⟨nofun, fun h => absurd h.1 hv⟩
  refine ⟨Finset.notMem_empty _, ⟨fun v q _ hq => ?_, fun w v hat => ?_⟩,
    Labels.valid_of_root (fun v d => ?_) fun v => Finset.notMem_empty v⟩
  · obtain ⟨rfl, rfl⟩ := (hcand v q).1 hq
    exact ⟨[v], List.mem_singleton.2 rfl, List.mem_singleton.2 rfl⟩
  · obtain ⟨l, hl, hv⟩ := hat
    cases List.mem_singleton.1 hl
    exact ⟨_, (hcand v _).2 ⟨List.mem_singleton.1 hv, rfl⟩, UInt64.le_refl _⟩
  · rw [labels_eq_some]
    constructor
    · rintro ⟨q, hq, rfl⟩
      obtain ⟨rfl, rfl⟩ := (hcand v q).1 hq
      exact ⟨rfl, rfl⟩
    · rintro ⟨rfl, rfl⟩
      exact ⟨_, (hcand v _).2 ⟨rfl, rfl⟩, rfl⟩

theorem Visiting.kept_of_visited {s t : Search n}
    (h : sim.Visiting srcNode maxTimeLock s currentNode p t)
    (hvalid : (sim.labels srcNode maxTimeLock s).Valid dst) (hp : s.candidateMap currentNode = some p)
    (hfresh : currentNode ∉ s.visited) {v : Fin n} (hv : v ∈ s.visited) :
    t.candidateMap v = s.candidateMap v := by
  obtain ⟨d, hd⟩ := Option.isSome_iff_exists.1 (hvalid.labelled v hv)
  obtain ⟨q, hq, rfl⟩ := labels_eq_some.1 hd
  have hle := hvalid.ordered v currentNode _ _ hv hfresh hd (labels_eq_some.2 ⟨p, hp, rfl⟩)
  exact (h.kept hq (UInt64.le_iff_toNat_le.2 hle)).trans hq.symm

/-- The visit of a node with the least weight settles it. -/
theorem Visiting.settles {s t : Search n} (h : sim.Visiting srcNode maxTimeLock s currentNode p t)
    (hvalid : (sim.labels srcNode maxTimeLock s).Valid dst) (hp : s.candidateMap currentNode = some p)
    (hfresh : currentNode ∉ s.visited)
    (hleast : ∀ v q, v ∉ s.visited → s.candidateMap v = some q → p.aggWeight ≤ q.aggWeight)
    (hrelaxed : ∀ w, sim.Relaxed srcNode maxTimeLock currentNode p w t) :
    (sim.labels srcNode maxTimeLock s).Settles
      (sim.labels srcNode maxTimeLock { t with visited := insert currentNode t.visited })
      currentNode p.aggWeight.toNat := by
  have hpt : t.candidateMap currentNode = some p := h.kept hp (UInt64.le_refl _)
  have hkept : ∀ v, v = currentNode ∨ v ∈ s.visited → t.candidateMap v = s.candidateMap v := by
    rintro v (rfl | hv)
    · exact hpt.trans hp.symm
    · exact h.kept_of_visited hvalid hp hfresh hv
  have hsettled : ∀ v, v ∈ insert currentNode t.visited ↔ v = currentNode ∨ v ∈ s.visited :=
    fun v => by rw [Finset.mem_insert, h.visited]
  refine ⟨hfresh, labels_eq_some.2 ⟨p, hp, rfl⟩, fun v d hv hd => ?_, hsettled, fun v hv => ?_,
    fun w d hd => ?_, fun w => ?_, fun w c hc => ?_⟩
  · obtain ⟨q, hq, rfl⟩ := labels_eq_some.1 hd
    exact UInt64.le_iff_toNat_le.1 (hleast v q hv hq)
  · have hsame := hkept v ((hsettled v).1 hv)
    unfold labels cost
    dsimp only
    rw [hsame]
    exact ⟨rfl, rfl⟩
  · obtain ⟨q, hq, rfl⟩ := labels_eq_some.1 hd
    obtain ⟨q', hq', hle⟩ := h.lower w q hq
    exact ⟨_, labels_eq_some.2 ⟨q', hq', rfl⟩, UInt64.le_iff_toNat_le.1 hle⟩
  · rcases h.source w with hsame | ⟨q, weight, hq, hpriced, hsum, -⟩
    · left
      unfold labels
      dsimp only
      rw [hsame]
    · exact .inr ⟨weight.toNat, ⟨p, weight, hpt, hpriced, rfl⟩, labels_eq_some.2 ⟨q, hq, hsum⟩⟩
  · obtain ⟨p', weight, hp', hpriced, rfl⟩ := hc
    cases hpt.symm.trans hp'
    obtain ⟨q, hq, hle⟩ := hrelaxed w weight hpriced
    exact ⟨_, labels_eq_some.2 ⟨q, hq, rfl⟩, hle⟩

variable (sim srcNode maxTimeLock) in
/-- The next visit, if it is one, finds edges whose weights can be added. -/
def WeightsAdd (s : Search n) : Prop :=
  ∀ r ∈ s.distanceMap.nextToVisit, ∀ v ∈ r.1, v ∉ s.visited → ∀ p ∈ s.candidateMap v,
    ∀ w, sim.FoundAdds maxTimeLock v w srcNode s.candidateMap p.aggWeight

/-- A round ends the search, passes over a node, or visits it. -/
theorem step_cases {src : Fin n} {s : Search n} {r : Search n ⊕ PaymentPath n}
    (h : sim.step src dst maxTimeLock s = some r) :
    ∃ next m, s.distanceMap.nextToVisit = some (next, m) ∧
      ((next = none ∧ r = .inr (newPaymentPath 0 src dst)) ∨
      ∃ v, next = some v ∧ ((v ∈ s.visited ∧ r = .inl { s with distanceMap := m }) ∨
        v ∉ s.visited ∧ ∃ p t, s.candidateMap v = some p ∧
          ((sim.g.neighbors v).map Prod.fst).foldlM (sim.relax src maxTimeLock v p)
            { s with distanceMap := m } = some t ∧
          ((v = src ∧ ∃ q, t.candidateMap src = some q ∧ r = .inr q) ∨
            v ≠ src ∧ r = .inl { t with visited := insert v t.visited }))) := by
  unfold step at h
  rw [Option.bind_eq_bind, Option.bind_eq_some_iff] at h
  obtain ⟨⟨next, m⟩, hnext, h⟩ := h
  refine ⟨next, m, hnext, ?_⟩
  cases next with
  | none =>
    cases h
    exact .inl ⟨rfl, rfl⟩
  | some v =>
    right
    dsimp only at h
    refine ⟨v, rfl, ?_⟩
    split_ifs at h with hv hsrc
    · cases h
      exact .inl ⟨hv, rfl⟩
    · simp only [Option.bind_eq_bind, Option.bind_eq_some_iff] at h
      obtain ⟨p, hp, t, ht, h⟩ := h
      obtain ⟨q, hq, rfl⟩ := Option.map_eq_some_iff.1 h
      exact .inr ⟨hv, p, t, hp, ht, .inl ⟨hsrc, q, hq, rfl⟩⟩
    · simp only [Option.bind_eq_bind, Option.bind_eq_some_iff] at h
      obtain ⟨p, hp, t, ht, h⟩ := h
      cases h
      exact .inr ⟨hv, p, t, hp, ht, .inr ⟨hsrc, rfl⟩⟩

variable {src : Fin n} {s : Search n}

/-- The next node has a candidate of the least weight, unless it has been visited. -/
theorem Ordered.pop (h : sim.Ordered src dst maxTimeLock s) (hf : s.distanceMap.Filled) {v : Fin n}
    {m : DistanceMap n} (hnext : s.distanceMap.nextToVisit = some (some v, m)) :
    Queued (insert v s.visited) { s with distanceMap := m } ∧
      ∀ p, v ∉ s.visited → s.candidateMap v = some p →
        ∀ u q, u ∉ s.visited → s.candidateMap u = some q → p.aggWeight ≤ q.aggWeight := by
  obtain ⟨w, hat, hleast, hsub, hkeep⟩ := DistanceMap.nextToVisit_least hf hnext
  refine ⟨⟨fun u q hu hq => ?_, fun x u hux => h.queued.le x u (hsub x u hux)⟩,
    fun p _ hp u q hu hq => ?_⟩
  · obtain ⟨hne, hu⟩ := not_or.1 (mt Finset.mem_insert.2 hu)
    exact hkeep _ u hne (h.queued.filed u q hu hq)
  · obtain ⟨p', hp', hle⟩ := h.queued.le w v hat
    cases hp.symm.trans hp'
    exact UInt64.le_trans hle (hleast _ u (h.queued.filed u q hu hq))

/-- The visited nodes keep their candidates. -/
def Keeps (s t : Search n) : Prop :=
  ∀ v ∈ s.visited, v ∈ t.visited ∧ t.candidateMap v = s.candidateMap v

theorem Keeps.trans {t r : Search n} (h : Keeps s t) (h' : Keeps t r) : Keeps s r := fun v hv =>
  ⟨(h' v (h v hv).1).1, (h' v (h v hv).1).2.trans (h v hv).2⟩

theorem Ordered.step (h : sim.Ordered src dst maxTimeLock s) (hf : s.distanceMap.Filled)
    (hadds : sim.WeightsAdd src maxTimeLock s) {s' : Search n}
    (hstep : sim.step src dst maxTimeLock s = some (.inl s')) :
    sim.Ordered src dst maxTimeLock s' ∧ Keeps s s' := by
  obtain ⟨next, m, hnext, ⟨-, heq⟩ | ⟨v, rfl, ⟨hv, heq⟩ | ⟨hv, p, t, hp, ht, hend⟩⟩⟩ := step_cases hstep
  · cases heq
  · cases heq
    have hq := (h.pop hf hnext).1
    rw [Finset.insert_eq_self.2 hv] at hq
    exact ⟨⟨h.source, hq, h.valid⟩, fun u hu => ⟨hu, rfl⟩⟩
  · obtain ⟨-, q, -, heq⟩ | ⟨hsrc, heq⟩ := hend
    · cases heq
    · cases heq
      obtain ⟨hqueued, hleast⟩ := h.pop hf hnext
      obtain ⟨hvisiting, hrelaxed⟩ := visiting_of_foldlM (s := { s with distanceMap := m }) hp
        hqueued (hadds _ hnext v rfl hv p hp) ht
      have hsettles := hvisiting.settles h.valid hp hv (hleast p hv hp) hrelaxed
      refine ⟨⟨?_, ⟨?_, hvisiting.queued.le⟩, hsettles.valid h.valid⟩, fun u hu => ?_⟩
      · dsimp only
        rw [hvisiting.visited]
        exact fun hmem => (Finset.mem_insert.1 hmem).elim (fun he => hsrc he.symm) h.source
      · dsimp only
        rw [hvisiting.visited]
        exact hvisiting.queued.filed
      · dsimp only
        rw [hvisiting.visited]
        exact ⟨Finset.mem_insert_of_mem hu, hvisiting.kept_of_visited h.valid hp hv hu⟩

/-- The walks from the destination that leave each node at its candidate. -/
def Alternative (sim : LightingNetworkSimulation n k) (src dst : Fin n) (maxTimeLock : UInt16)
    (s : Search n) (v : Fin n) (c : Nat) : Prop :=
  Walk (sim.cost src maxTimeLock s.candidateMap) dst v c

/-- What a search may return in its last round. -/
def Best (sim : LightingNetworkSimulation n k) (src dst : Fin n) (maxTimeLock : UInt16)
    (s : Search n) (q : PaymentPath n) : Prop :=
  (s.candidateMap src = some q ∧
    IsLeast {c | sim.Alternative src dst maxTimeLock s src c} q.aggWeight.toNat) ∨
  (q = newPaymentPath 0 src dst ∧ ∀ c, ¬ sim.Alternative src dst maxTimeLock s src c)

theorem Ordered.best (h : sim.Ordered src dst maxTimeLock s) (hf : s.distanceMap.Filled)
    (hadds : sim.WeightsAdd src maxTimeLock s) {q : PaymentPath n}
    (hstep : sim.step src dst maxTimeLock s = some (.inr q)) : sim.Best src dst maxTimeLock s q := by
  obtain ⟨next, m, hnext, ⟨rfl, heq⟩ | ⟨v, rfl, ⟨-, heq⟩ | ⟨hv, p, t, hp, ht, hend⟩⟩⟩ :=
    step_cases hstep
  · cases heq
    refine .inr ⟨rfl, fun c hc => h.source (h.valid.settled_of_walk (fun v hv => ?_) hc)⟩
    -- a node with a candidate that has not been visited would be next
    by_contra hunvisited
    obtain ⟨d, hd⟩ := Option.isSome_iff_exists.1 hv
    obtain ⟨r, hr, -⟩ := labels_eq_some.1 hd
    obtain ⟨l, hl, -⟩ := h.queued.filed v r hunvisited hr
    rcases DistanceMap.nextToVisit_entries hf with ⟨hnil, -⟩ | ⟨w, u, l', entries, m', -, hsome, -⟩
    · rw [hnil] at hl
      cases hl
    · cases hsome.symm.trans hnext
  · cases heq
  · obtain ⟨rfl, r, hr, heq⟩ | ⟨-, heq⟩ := hend
    · cases heq
      obtain ⟨hqueued, hleast⟩ := h.pop hf hnext
      obtain ⟨hvisiting, -⟩ := visiting_of_foldlM (s := { s with distanceMap := m }) hp hqueued
        (hadds _ hnext v rfl hv p hp) ht
      have hsame : t.candidateMap v = some p := hvisiting.kept hp (UInt64.le_refl _)
      cases hsame.symm.trans hr
      refine .inl ⟨hp, h.valid.isLeast_next hv (labels_eq_some.2 ⟨_, hp, rfl⟩) fun u d hu hd => ?_⟩
      obtain ⟨q, hq, rfl⟩ := labels_eq_some.1 hd
      exact UInt64.le_iff_toNat_le.1 (hleast _ hv hp u q hu hq)
    · cases heq

variable {amount : UInt64}

theorem search_best {fuel : Nat} (hI : Invariant sim src dst amount maxTimeLock s.visited s)
    (h : sim.Ordered src dst maxTimeLock s) (hfuel : remaining s < fuel)
    (hfit : ∀ t ∈ sim.states src dst maxTimeLock fuel s, sim.FeesFit src maxTimeLock t)
    (hadds : ∀ t ∈ sim.states src dst maxTimeLock fuel s, sim.WeightsAdd src maxTimeLock t) :
    ∃ t ∈ sim.states src dst maxTimeLock fuel s, ∃ q,
      sim.search src dst maxTimeLock fuel s = some q ∧ sim.Ordered src dst maxTimeLock t ∧
      sim.Best src dst maxTimeLock t q ∧
      ∀ r ∈ sim.states src dst maxTimeLock fuel s, Keeps r t := by
  induction fuel generalizing s with
  | zero => exact absurd hfuel (Nat.not_lt_zero _)
  | succ fuel ih =>
    unfold states at hfit hadds ⊢
    obtain ⟨hs, hrest⟩ := List.forall_mem_cons.1 hfit
    obtain ⟨hw, hwrest⟩ := List.forall_mem_cons.1 hadds
    unfold search
    rcases step_spec hI hs with ⟨s', hstep, hI', hlt⟩ | ⟨q, hstep, -⟩
    · rw [hstep] at hrest hwrest ⊢
      obtain ⟨h', hkeeps⟩ := h.step hI.filled hw hstep
      obtain ⟨t, ht, q, hq, hordered, hbest, hkept⟩ := ih hI' h' (by omega) hrest hwrest
      refine ⟨t, List.mem_cons_of_mem _ ht, q, hq, hordered, hbest,
        List.forall_mem_cons.2 ⟨hkeeps.trans (hkept s' ?_), hkept⟩⟩
      obtain ⟨fuel, rfl⟩ := Nat.exists_eq_succ_of_ne_zero (by omega : fuel ≠ 0)
      exact List.mem_cons_self
    · rw [hstep]
      exact ⟨s, List.mem_cons_self, q, rfl, h, h.best hI.filled hw hstep,
        List.forall_mem_singleton.2 fun v hv => ⟨hv, rfl⟩⟩

/-- No weight overflows in the search. -/
def NoWeightOverflow (sim : LightingNetworkSimulation n k) (src dst : Fin n) (maxTimeLock : UInt16)
    (amount : UInt64) : Prop :=
  ∀ s ∈ sim.states src dst maxTimeLock (rounds n) (.start src dst amount),
    sim.WeightsAdd src maxTimeLock s

instance {candidateMap : Fin n → Option (PaymentPath n)} {aggWeight : ChannelWeight} :
    Decidable (sim.FoundAdds maxTimeLock currentNode toNode srcNode candidateMap aggWeight) :=
  inferInstanceAs (Decidable (∀ found ∈ sim.findCheapestEdge _ _ _ _ _, found.2.isSome → _))

instance : DecidablePred (sim.WeightsAdd src maxTimeLock) := fun s =>
  inferInstanceAs (Decidable (∀ r ∈ s.distanceMap.nextToVisit, ∀ v ∈ r.1, v ∉ s.visited →
    ∀ p ∈ s.candidateMap v, ∀ w, sim.FoundAdds _ _ w _ _ _))

instance : Decidable (sim.NoWeightOverflow src dst maxTimeLock amount) :=
  inferInstanceAs (Decidable (∀ s ∈ sim.states _ _ _ _ _, _))

/-- The search ends in a state in which the candidates of all visited nodes are final and of the
least weight, and returns the cheapest path, or the empty one if no path leads to the source. -/
theorem findPaymentPath_cheapest (sim : LightingNetworkSimulation n k) {src dst : Fin n}
    (hne : src ≠ dst) (amount : UInt64) (maxTimeLockDelta : UInt16)
    (hfit : sim.NoOverflow src dst maxTimeLockDelta amount)
    (hadds : sim.NoWeightOverflow src dst maxTimeLockDelta amount) :
    ∃ t ∈ sim.states src dst maxTimeLockDelta (rounds n) (.start src dst amount), ∃ p,
      sim.findPaymentPath src dst amount maxTimeLockDelta = some p ∧
      (∀ s ∈ sim.states src dst maxTimeLockDelta (rounds n) (.start src dst amount),
        ∀ v ∈ s.visited, ∃ q, s.candidateMap v = some q ∧ t.candidateMap v = some q ∧
          IsLeast {c | sim.Alternative src dst maxTimeLockDelta t v c} q.aggWeight.toNat) ∧
      ((t.candidateMap src = some p ∧
        IsLeast {c | sim.Alternative src dst maxTimeLockDelta t src c} p.aggWeight.toNat) ∨
      (p = newPaymentPath 0 src dst ∧
        ∀ c, ¬ sim.Alternative src dst maxTimeLockDelta t src c)) := by
  obtain ⟨t, ht, p, hp, hordered, hbest, hkept⟩ := search_best
    (invariant_start sim src dst amount maxTimeLockDelta)
    (ordered_start sim src dst amount maxTimeLockDelta) (remaining_start src dst amount) hfit hadds
  refine ⟨t, ht, p, ?_, fun s hs v hv => ?_, hbest⟩
  · unfold findPaymentPath
    rw [if_neg hne, hp]
  · obtain ⟨hvt, hsame⟩ := hkept s hs v hv
    obtain ⟨d, hd⟩ := Option.isSome_iff_exists.1 (hordered.valid.labelled v hvt)
    obtain ⟨q, hq, rfl⟩ := labels_eq_some.1 hd
    exact ⟨q, hsame.symm.trans hq, hq, hordered.valid.isLeast hvt hd⟩

theorem findPaymentPath_cheapest_ring :
    ∃ t p, ring.findPaymentPath 0 3 1000 144 = some p ∧ p.hops.map (·.channelID) = [0, 1, 2] ∧
      IsLeast {c | ring.Alternative 0 3 144 t 0 c} p.aggWeight.toNat := by
  have hne : (0 : Fin 4) ≠ 3 := by decide
  obtain ⟨t, -, p, hp, -, hbest⟩ := findPaymentPath_cheapest ring hne 1000 144 (by decide +kernel)
    (by decide +kernel)
  have hhops : (ring.findPaymentPath 0 3 1000 144).map (·.hops.map (·.channelID)) =
      some [0, 1, 2] := by decide +kernel
  rw [hp, Option.map_some, Option.some.injEq] at hhops
  rcases hbest with ⟨-, hleast⟩ | ⟨rfl, -⟩
  · exact ⟨t, p, hp, hhops, hleast⟩
  · cases hhops

end LightingNetworkSimulation

end LnConv.Payments
