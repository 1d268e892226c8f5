import LnConv.Payments.Route

/-!
# Runs of the search

Every candidate of a node that is still to be visited is a route from it, whose other nodes
have been visited. A visit extends the candidate of one node to its neighbors; as that node was
not visited before, no node comes up twice. The rounds left are bounded by the nodes left and the
length of the queue.
-/

namespace LnConv.Payments

variable {n k : Nat} {sim : LightingNetworkSimulation n k} {src dst : Fin n} {amount : UInt64}
  {maxTimeLockDelta : UInt16}

theorem toNat_add_of_le_sub {a b c : UInt16} (hb : b ≤ c) (ha : a ≤ c - b) :
    (b + a).toNat = b.toNat + a.toNat ∧ b + a ≤ c := by
  rw [UInt16.le_iff_toNat_le, UInt16.toNat_sub_of_le _ _ hb] at ha
  have hb' := UInt16.le_iff_toNat_le.1 hb
  have hc := c.toNat_lt
  have hsum : (b + a).toNat = b.toNat + a.toNat := by
    rw [UInt16.toNat_add]
    exact Nat.mod_eq_of_lt (by omega)
  refine ⟨hsum, UInt16.le_iff_toNat_le.2 ?_⟩
  omega

/-- The path at the destination. -/
theorem route_newPaymentPath (sim : LightingNetworkSimulation n k) (src dst : Fin n) (amount : UInt64)
    (maxTimeLockDelta : UInt16) :
    Route sim src dst amount maxTimeLockDelta dst (newPaymentPath amount src dst) [] where
  source := rfl
  target := rfl
  hops := rfl
  amounts := rfl
  leads := ⟨rfl, rfl⟩
  simple := List.nodup_singleton _
  usable := List.forall_mem_nil _
  aggTime := rfl
  aggTime_le := UInt16.zero_le

namespace Route

variable {v : Fin n} {p : PaymentPath n} {legs : List (Leg n)}

/-- The first hop of a path has its first node as an endpoint. -/
theorem front_joins (h : Route sim src dst amount maxTimeLockDelta v p legs) :
    ∀ front, p.hops.head? = some front → ∃ w, front.Joins v w := by
  intro front hfront
  rw [h.hops] at hfront
  cases legs with
  | nil => cases hfront
  | cons l legs =>
    cases hfront
    refine ⟨l.next, ?_⟩
    rw [← h.leads.1]
    exact (h.usable l List.mem_cons_self).edge.joins

/-- A leg before the first one, with what it adds to the path. -/
theorem cons (h : Route sim src dst amount maxTimeLockDelta v p legs) {w : Fin n} {e : GraphChannel n}
    {policy : ChannelPolicy}
    (ho : (⟨w, v, e, policy, p.aggAmt⟩ : Leg n).Offered sim src (maxTimeLockDelta - p.aggTime))
    (hfit : policy.Fits p.aggAmt) (hw : w ∉ v :: legs.map Leg.next) (weight : ChannelWeight)
    (times : List UInt16) :
    Route sim src dst amount maxTimeLockDelta w { p with
      hops := e :: p.hops
      aggWeight := weight
      aggAmt := p.aggAmt + policy.getFee p.aggAmt
      aggTime := p.aggTime + policy.timeLockDelta
      amounts := p.aggAmt :: p.amounts
      times := times } (⟨w, v, e, policy, p.aggAmt⟩ :: legs) where
  source := h.source
  target := h.target
  hops := congrArg _ h.hops
  amounts := congrArg _ h.amounts
  leads := ⟨rfl, hfit.toNat_add, h.leads⟩
  simple := List.nodup_cons.2 ⟨hw, h.simple⟩
  usable := List.forall_mem_cons.2 ⟨ho.usable hfit, h.usable⟩
  aggTime := by
    rw [(toNat_add_of_le_sub h.aggTime_le ho.timeLock).1, h.aggTime, List.map_cons, List.sum_cons,
      Nat.add_comm]
  aggTime_le := (toNat_add_of_le_sub h.aggTime_le ho.timeLock).2

end Route

/-- What holds of a search that has visited the nodes of `done`. -/
structure Invariant (sim : LightingNetworkSimulation n k) (src dst : Fin n) (amount : UInt64)
    (maxTimeLockDelta : UInt16) (done : Finset (Fin n)) (s : Search n) : Prop where
  aggTime_le : ∀ v p, s.candidateMap v = some p → p.aggTime ≤ maxTimeLockDelta
  route : ∀ v p, s.candidateMap v = some p → v ∉ done →
    ∃ legs, Route sim src dst amount maxTimeLockDelta v p legs ∧ ∀ l ∈ legs, l.next ∈ done
  queued : ∀ v ∈ s.distanceMap.queue, (s.candidateMap v).isSome
  filled : s.distanceMap.Filled

theorem invariant_start (sim : LightingNetworkSimulation n k) (src dst : Fin n) (amount : UInt64)
    (maxTimeLockDelta : UInt16) :
    Invariant sim src dst amount maxTimeLockDelta ∅ (.start src dst amount) := by
  have hcand : ∀ v p, (Search.start src dst amount).candidateMap v = some p →
      v = dst ∧ p = newPaymentPath amount src dst := by
    intro v p hp
    unfold Search.start at hp
    dsimp only at hp
    by_cases hv : v = dst
    · rw [hv, Function.update_self] at hp
      exact ⟨hv, (Option.some.inj hp).symm⟩
    · rw [Function.update_of_ne hv] at hp
      cases hp
  refine ⟨fun v p hp => ?_, fun v p hp _ => ?_, fun v hv => ?_, ?_⟩
  · rw [(hcand v p hp).2]
    exact UInt16.zero_le
  · obtain ⟨rfl, rfl⟩ := hcand v p hp
    exact ⟨[], route_newPaymentPath .., List.forall_mem_nil _⟩
  · have hv : v = dst := List.mem_singleton.1 hv
    unfold Search.start
    dsimp only
    rw [hv, Function.update_self]
    rfl
  · exact List.forall_mem_singleton.2 (List.cons_ne_nil _ _)

/-- A node gets a new candidate, and is queued. -/
theorem Invariant.update {done : Finset (Fin n)} {s : Search n}
    (h : Invariant sim src dst amount maxTimeLockDelta done s) {w : Fin n} {q : PaymentPath n}
    (htime : q.aggTime ≤ maxTimeLockDelta)
    (hroute : w ∉ done → ∃ legs, Route sim src dst amount maxTimeLockDelta w q legs ∧
      ∀ l ∈ legs, l.next ∈ done) (weight : ChannelWeight) :
    Invariant sim src dst amount maxTimeLockDelta done { s with
      candidateMap := Function.update s.candidateMap w (some q)
      distanceMap := s.distanceMap.push weight w } := by
  refine ⟨fun v p hp => ?_, fun v p hp hv => ?_, fun v hv => ?_, h.filled.push weight w⟩
  · dsimp only at hp
    by_cases hvw : v = w
    · rw [hvw, Function.update_self] at hp
      cases hp
      exact htime
    · rw [Function.update_of_ne hvw] at hp
      exact h.aggTime_le v p hp
  · dsimp only at hp
    by_cases hvw : v = w
    · rw [hvw, Function.update_self] at hp
      cases hp
      rw [hvw] at hv ⊢
      exact hroute hv
    · rw [Function.update_of_ne hvw] at hp
      exact h.route v p hp hv
  · dsimp only at hv ⊢
    by_cases hvw : v = w
    · rw [hvw, Function.update_self]
      rfl
    · rw [Function.update_of_ne hvw]
      have hmem := (DistanceMap.queue_push weight w).mem_iff.1 hv
      exact h.queued v ((List.mem_cons.1 hmem).resolve_left hvw)

theorem Invariant.mono {done done' : Finset (Fin n)} {s : Search n}
    (h : Invariant sim src dst amount maxTimeLockDelta done s) (hsub : done ⊆ done') :
    Invariant sim src dst amount maxTimeLockDelta done' s where
  aggTime_le := h.aggTime_le
  route v p hp hv := by
    obtain ⟨legs, hr, hdone⟩ := h.route v p hp fun hmem => hv (hsub hmem)
    exact ⟨legs, hr, fun l hl => hsub (hdone l hl)⟩
  queued := h.queued
  filled := h.filled

/-- The first node is taken from the queue. -/
theorem Invariant.pop {done : Finset (Fin n)} {s : Search n}
    (h : Invariant sim src dst amount maxTimeLockDelta done s) {v : Fin n} {m : DistanceMap n}
    (hq : s.distanceMap.queue = v :: m.queue) (hf : m.Filled) :
    Invariant sim src dst amount maxTimeLockDelta done { s with distanceMap := m } where
  aggTime_le := h.aggTime_le
  route := h.route
  queued w hw := h.queued w (hq ▸ List.mem_cons_of_mem v hw)
  filled := hf

namespace LightingNetworkSimulation

/-- The fee of the edge found fits the amount. -/
def FoundFits (sim : LightingNetworkSimulation n k) (maxTimeLock : UInt16)
    (currentNode toNode srcNode : Fin n) (candidateMap : Fin n → Option (PaymentPath n))
    (amount : UInt64) : Prop :=
  ∀ found ∈ sim.findCheapestEdge maxTimeLock currentNode toNode srcNode candidateMap,
    ∀ e ∈ found.2, ∀ policy ∈ e.getPolicy toNode, policy.Fits amount

theorem relax_spec {done : Finset (Fin n)} {s : Search n} {u w : Fin n} {p : PaymentPath n}
    {legs : List (Leg n)} (hI : Invariant sim src dst amount maxTimeLockDelta (insert u done) s)
    (hp : s.candidateMap u = some p)
    (hr : Route sim src dst amount maxTimeLockDelta u p legs) (hdone : ∀ l ∈ legs, l.next ∈ done)
    (hfit : sim.FoundFits maxTimeLockDelta u w src s.candidateMap p.aggAmt) :
    ∃ s', sim.relax src maxTimeLockDelta u p s w = some s' ∧
      (Invariant sim src dst amount maxTimeLockDelta (insert u done) s' ∧
        s'.candidateMap u = some p ∧ s'.visited = s.visited) ∧
      s'.distanceMap.queue.length ≤ s.distanceMap.queue.length + 1 := by
  have hsame : ∃ s', some s = some s' ∧
      (Invariant sim src dst amount maxTimeLockDelta (insert u done) s' ∧
        s'.candidateMap u = some p ∧ s'.visited = s.visited) ∧
      s'.distanceMap.queue.length ≤ s.distanceMap.queue.length + 1 :=
    ⟨s, rfl, ⟨hI, hp, rfl⟩, Nat.le_succ _⟩
  obtain ⟨⟨weight, found⟩, hfind, hfound⟩ := findCheapestEdge_spec hp maxTimeLockDelta w src
  unfold relax
  rw [hfind]
  simp only [Option.bind_eq_bind, Option.bind_some]
  cases found with
  | none => exact hsame
  | some e =>
    obtain ⟨policy, ho⟩ := hfound e rfl
    obtain ⟨dir, hd, hpolicy⟩ := ho.edge.direction
    have hfits : policy.Fits p.aggAmt :=
      hfit _ hfind e rfl policy (by rw [GraphChannel.getPolicy_eq hd, hpolicy]; rfl)
    have hj : e.Joins w u := ho.edge.joins
    dsimp only at hd hpolicy ⊢
    rw [GraphChannel.getFee_eq hd, GraphChannel.getTimeLockDelta_eq hd, hpolicy,
      PaymentPath.addHop_eq hj hr.front_joins]
    simp only [Option.bind_some]
    split_ifs with hold hcap
    · exact hsame
    · exact absurd ho.capacity (UInt64.not_le.2 hcap)
    · have hwu : u ≠ w := hj.ne.symm
      have htime := (toNat_add_of_le_sub hr.aggTime_le ho.timeLock).2
      refine ⟨_, rfl, ⟨hI.update htime (fun hw => ?_) _, ?_, rfl⟩, ?_⟩
      · -- the nodes of the candidate have been visited, the neighbor has not
        have hnot : w ∉ u :: legs.map Leg.next := by
          intro hmem
          rcases List.mem_cons.1 hmem with rfl | hmem
          · exact hwu rfl
          · obtain ⟨l, hl, rfl⟩ := List.mem_map.1 hmem
            exact hw (Finset.mem_insert_of_mem (hdone l hl))
        refine ⟨_, hr.cons ho hfits hnot _ _, List.forall_mem_cons.2 ⟨?_, fun l hl => ?_⟩⟩
        · exact Finset.mem_insert_self _ _
        · exact Finset.mem_insert_of_mem (hdone l hl)
      · dsimp only
        rw [Function.update_of_ne hwu, hp]
      · exact (DistanceMap.queue_push _ _).length_eq.le

/-- A visit extends the candidate of a node to some of its neighbors. -/
theorem visit_spec {done : Finset (Fin n)} {s : Search n} {u : Fin n} {p : PaymentPath n}
    {legs : List (Leg n)} (hI : Invariant sim src dst amount maxTimeLockDelta (insert u done) s)
    (hp : s.candidateMap u = some p)
    (hr : Route sim src dst amount maxTimeLockDelta u p legs) (hdone : ∀ l ∈ legs, l.next ∈ done)
    (hfit : ∀ w, sim.FoundFits maxTimeLockDelta u w src s.candidateMap p.aggAmt) (l : List (Fin n)) :
    ∃ s', l.foldlM (sim.relax src maxTimeLockDelta u p) s = some s' ∧
      (Invariant sim src dst amount maxTimeLockDelta (insert u done) s' ∧
        s'.candidateMap u = some p ∧ s'.visited = s.visited) ∧
      s'.distanceMap.queue.length ≤ s.distanceMap.queue.length + l.length := by
  refine exists_foldlM_le (P := fun t =>
    Invariant sim src dst amount maxTimeLockDelta (insert u done) t ∧
      t.candidateMap u = some p ∧ t.visited = s.visited)
    (fun t => t.distanceMap.queue.length) (fun t w _ ht => ?_) ⟨hI, hp, rfl⟩
  obtain ⟨hIt, hpt, hvt⟩ := ht
  have hfitt : sim.FoundFits maxTimeLockDelta u w src t.candidateMap p.aggAmt := by
    unfold FoundFits
    rw [findCheapestEdge_congr (hpt.trans hp.symm)]
    exact hfit w
  obtain ⟨t', ht', ⟨hI', hp', hv'⟩, hlen⟩ := relax_spec hIt hpt hr hdone hfitt
  exact ⟨t', ht', ⟨hI', hp', hv'.trans hvt⟩, hlen⟩

variable (sim src dst maxTimeLockDelta)

/-- The next visit, if it is one, finds edges whose fees fit. -/
def FeesFit (s : Search n) : Prop :=
  ∀ r ∈ s.distanceMap.nextToVisit, ∀ v ∈ r.1, v ∉ s.visited → ∀ p ∈ s.candidateMap v,
    ∀ w, sim.FoundFits maxTimeLockDelta v w src s.candidateMap p.aggAmt

/-- No sum of an amount and a fee overflows in the search, nor does the fee. The other sums and
products may: weights and balances decide which path is returned, not what holds of it. -/
def NoOverflow (amount : UInt64) : Prop :=
  ∀ s ∈ sim.states src dst maxTimeLockDelta (rounds n) (.start src dst amount),
    sim.FeesFit src maxTimeLockDelta s

instance {maxTimeLock : UInt16} {currentNode toNode srcNode : Fin n}
    {candidateMap : Fin n → Option (PaymentPath n)} :
    Decidable (sim.FoundFits maxTimeLock currentNode toNode srcNode candidateMap amount) :=
  inferInstanceAs (Decidable (∀ found ∈ sim.findCheapestEdge _ _ _ _ _, ∀ e ∈ found.2,
    ∀ policy ∈ e.getPolicy _, _))

instance : DecidablePred (sim.FeesFit src maxTimeLockDelta) := fun s =>
  inferInstanceAs (Decidable (∀ r ∈ s.distanceMap.nextToVisit, ∀ v ∈ r.1, v ∉ s.visited →
    ∀ p ∈ s.candidateMap v, ∀ w, sim.FoundFits _ _ w _ _ _))

instance : Decidable (sim.NoOverflow src dst maxTimeLockDelta amount) :=
  inferInstanceAs (Decidable (∀ s ∈ sim.states _ _ _ _ _, _))

variable {sim src dst maxTimeLockDelta}

/-- An empty path, or a route from the source. -/
def Result (sim : LightingNetworkSimulation n k) (src dst : Fin n) (amount : UInt64)
    (maxTimeLockDelta : UInt16) (p : PaymentPath n) : Prop :=
  p = newPaymentPath 0 src dst ∨ ∃ legs, Route sim src dst amount maxTimeLockDelta src p legs

/-- Bounds the rounds that are left. -/
def remaining (s : Search n) : Nat :=
  (n - s.visited.card) * (n + 1) + s.distanceMap.queue.length

theorem step_spec {s : Search n} (hI : Invariant sim src dst amount maxTimeLockDelta s.visited s)
    (hfit : sim.FeesFit src maxTimeLockDelta s) :
    (∃ s', sim.step src dst maxTimeLockDelta s = some (.inl s') ∧
      Invariant sim src dst amount maxTimeLockDelta s'.visited s' ∧ remaining s' < remaining s) ∨
    ∃ p, sim.step src dst maxTimeLockDelta s = some (.inr p) ∧
      sim.Result src dst amount maxTimeLockDelta p := by
  rcases DistanceMap.nextToVisit_spec hI.filled with ⟨-, hnext⟩ | ⟨v, m, hnext, hq, hf⟩
  · right
    refine ⟨_, ?_, .inl rfl⟩
    unfold step
    rw [hnext]
    rfl
  · have hpop := hI.pop hq hf
    have hlen : s.distanceMap.queue.length = m.queue.length + 1 := by rw [hq, List.length_cons]
    unfold step
    rw [hnext]
    simp only [Option.bind_eq_bind, Option.bind_some]
    by_cases hv : v ∈ s.visited
    · left
      rw [if_pos hv]
      refine ⟨_, rfl, hpop, ?_⟩
      unfold remaining
      dsimp only
      omega
    · rw [if_neg hv]
      obtain ⟨p, hp⟩ := Option.isSome_iff_exists.1 (hI.queued v (hq ▸ List.mem_cons_self))
      obtain ⟨legs, hr, hdone⟩ := hI.route v p hp hv
      obtain ⟨s', hs', ⟨hI', hp', hvis⟩, hlen'⟩ := visit_spec
        (hpop.mono (Finset.subset_insert v _)) hp hr hdone
        (fun w => hfit _ hnext v rfl hv p hp w) ((sim.g.neighbors v).map Prod.fst)
      rw [hp, Option.bind_some, hs', Option.bind_some]
      by_cases hsrc : v = src
      · right
        subst hsrc
        rw [if_pos rfl, hp']
        exact ⟨p, rfl, .inr ⟨legs, hr⟩⟩
      · left
        rw [if_neg hsrc]
        refine ⟨_, rfl, ?_, ?_⟩
        · rw [hvis]
          exact ⟨hI'.aggTime_le, hI'.route, hI'.queued, hI'.filled⟩
        · have hcard : (insert v s.visited).card = s.visited.card + 1 :=
            Finset.card_insert_of_notMem hv
          have hle := Finset.card_le_univ (insert v s.visited)
          rw [hcard, Fintype.card_fin] at hle
          have hneighbors := sim.g.length_neighbors_le v
          obtain ⟨d, hd⟩ := Nat.exists_eq_add_of_le hle
          have hsub : n - s.visited.card = d + 1 := by omega
          have hsub' : n - (s.visited.card + 1) = d := by omega
          rw [List.length_map] at hlen'
          unfold remaining
          dsimp only at hlen' ⊢
          rw [hvis, hcard, hsub, hsub', Nat.succ_mul]
          omega

theorem search_spec {fuel : Nat} {s : Search n}
    (hI : Invariant sim src dst amount maxTimeLockDelta s.visited s) (hfuel : remaining s < fuel)
    (hfit : ∀ t ∈ sim.states src dst maxTimeLockDelta fuel s, sim.FeesFit src maxTimeLockDelta t) :
    (∃ p, sim.search src dst maxTimeLockDelta fuel s = some p ∧
      sim.Result src dst amount maxTimeLockDelta p) ∧
    ∀ t ∈ sim.states src dst maxTimeLockDelta fuel s,
      Invariant sim src dst amount maxTimeLockDelta t.visited t := by
  induction fuel generalizing s with
  | zero => exact absurd hfuel (Nat.not_lt_zero _)
  | succ fuel ih =>
    unfold states at hfit ⊢
    obtain ⟨hs, hrest⟩ := List.forall_mem_cons.1 hfit
    unfold search
    rcases step_spec hI hs with ⟨s', hstep, hI', hlt⟩ | ⟨p, hstep, hp⟩
    · rw [hstep] at hrest ⊢
      obtain ⟨hres, hinv⟩ := ih hI' (by omega) hrest
      exact ⟨hres, List.forall_mem_cons.2 ⟨hI, hinv⟩⟩
    · rw [hstep]
      exact ⟨⟨p, rfl, hp⟩, List.forall_mem_cons.2 ⟨hI, List.forall_mem_nil _⟩⟩

theorem remaining_start (src dst : Fin n) (amount : UInt64) :
    remaining (Search.start src dst amount) < rounds n := by
  unfold remaining rounds
  have hq : (Search.start src dst amount).distanceMap.queue.length = 1 := rfl
  have hv : (Search.start src dst amount).visited.card = 0 := rfl
  rw [hq, hv, Nat.sub_zero]
  omega

theorem findPaymentPath_spec (hne : src ≠ dst) (hfit : sim.NoOverflow src dst maxTimeLockDelta amount) :
    (∃ p, sim.findPaymentPath src dst amount maxTimeLockDelta = some p ∧
      sim.Result src dst amount maxTimeLockDelta p) ∧
    ∀ s ∈ sim.states src dst maxTimeLockDelta (rounds n) (.start src dst amount),
      Invariant sim src dst amount maxTimeLockDelta s.visited s := by
  unfold findPaymentPath
  rw [if_neg hne]
  exact search_spec (invariant_start ..) (remaining_start src dst amount) hfit

end LightingNetworkSimulation

end LnConv.Payments
