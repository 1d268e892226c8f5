import LnConv.Payments.Cheapest

/-!
# Payments

A payment searches a path and checks it, and is counted by its last status. The search reads the
balances at the source alone, and the source compares its own policy with itself, so the first
hop never fails. A failure to converge is a policy that a node on the path knows otherwise.
-/

namespace LnConv.Payments

variable {n k : Nat} {sim : LightingNetworkSimulation n k} {src dst : Fin n} {amount : UInt64}
  {maxTimeLock : UInt16}

/-- The source has the balance for the first hop and its fee. -/
def PaymentPath.Funded (src : Fin n) (p : PaymentPath n) : Prop :=
  ∀ e hops a amounts, p.hops = e :: hops → p.amounts = a :: amounts →
    ∃ fee balance, e.getFee a src = some fee ∧ e.getBalance src = some balance ∧
      a + fee ≤ balance * 1000

theorem GraphChannel.price_source {e : GraphChannel n} {u : Fin n} {weight : ChannelWeight}
    (h : e.price amount maxTimeLock u src src = some (some weight)) :
    ∃ fee balance, e.getFee amount src = some fee ∧ e.getBalance src = some balance ∧
      amount + fee ≤ balance * 1000 := by
  unfold price at h
  simp only [Option.bind_eq_bind, Option.bind_eq_some_iff, or_true, if_true] at h
  obtain ⟨disabled, -, h⟩ := h
  split_ifs at h with hdisabled
  · cases h
  · obtain ⟨fee, hfee, h⟩ := Option.bind_eq_some_iff.1 h
    split_ifs at h with hcapacity
    · cases h
    · obtain ⟨balance, hbalance, h⟩ := Option.bind_eq_some_iff.1 h
      split_ifs at h with hlow
      · cases h
      · exact ⟨fee, balance, hfee, hbalance, UInt64.not_lt.1 hlow⟩

namespace LightingNetworkSimulation

/-- What the rounds of a search keep, and its last one turns into the result. -/
theorem search_of_step {J : Search n → Prop} {R : PaymentPath n → Prop}
    (hstep : ∀ s r, J s → sim.step src dst maxTimeLock s = some r → Sum.elim J R r) {fuel : Nat}
    {s : Search n} {q : PaymentPath n} (hs : J s)
    (h : sim.search src dst maxTimeLock fuel s = some q) : R q := by
  induction fuel generalizing s with
  | zero => cases h
  | succ fuel ih =>
    unfold search at h
    obtain ⟨r, hr, h⟩ := Option.bind_eq_some_iff.1 h
    have hJ := hstep s r hs hr
    cases r with
    | inl s' => exact ih hJ h
    | inr q' =>
      cases h
      exact hJ

theorem funded_relax {s t : Search n} {u w : Fin n} {p : PaymentPath n}
    (hp : s.candidateMap u = some p) (hs : ∀ q, s.candidateMap src = some q → q.Funded src)
    (h : sim.relax src maxTimeLock u p s w = some t) :
    t.candidateMap u = some p ∧ ∀ q, t.candidateMap src = some q → q.Funded src := by
  obtain ⟨cheapest, found, hfind, ⟨rfl, -⟩ | ⟨e, q, rfl, hq, -, rfl⟩⟩ := relax_cases h
  · exact ⟨hp, hs⟩
  · obtain ⟨-, -, ⟨edge, hedge, -⟩, hprice⟩ := (findCheapestEdge_cheapest hp hfind).1 e rfl
    have hne : u ≠ w := (ChannelGraph.joins_of_mem_between hedge).ne
    refine ⟨(Function.update_of_ne hne _ _).trans hp, fun r hr => ?_⟩
    dsimp only at hr
    by_cases hw : src = w
    · subst hw
      rw [Function.update_self] at hr
      cases hr
      intro e' hops a amounts hhops hamounts
      cases hq.hops.symm.trans hhops
      cases hq.amounts.symm.trans hamounts
      exact GraphChannel.price_source hprice
    · rw [Function.update_of_ne hw] at hr
      exact hs r hr

/-- The path found is funded. -/
theorem funded_of_find (hne : src ≠ dst) {q : PaymentPath n}
    (h : sim.findPaymentPath src dst amount maxTimeLock = some q) : q.Funded src := by
  unfold findPaymentPath at h
  rw [if_neg hne] at h
  refine search_of_step (J := fun s => ∀ q, s.candidateMap src = some q → q.Funded src)
    (fun s r hs hr => ?_) (fun q hq => ?_) h
  · obtain ⟨next, m, -, ⟨-, rfl⟩ | ⟨v, -, ⟨-, rfl⟩ | ⟨-, p, t, hp, ht, hend⟩⟩⟩ := step_cases hr
    · exact fun _ _ _ _ hhops => nomatch hhops
    · exact hs
    · have hloop := foldlM_invariant
        (P := fun t => t.candidateMap v = some p ∧ ∀ q, t.candidateMap src = some q → q.Funded src)
        (fun _ _ _ _ hP hrelax => funded_relax hP.1 hP.2 hrelax) ⟨hp, hs⟩ ht
      rcases hend with ⟨-, q, hq, rfl⟩ | ⟨-, rfl⟩
      · exact hloop.2 q hq
      · exact hloop.2
  · unfold Search.start at hq
    dsimp only at hq
    rw [Function.update_of_ne hne] at hq
    cases hq

theorem compareChannels_self {policy : ChannelPolicy} (h : policy.disabled = false) (amt : UInt64) :
    compareChannels amt policy policy = .paymentSuccess := by
  unfold compareChannels
  rw [h, if_neg Bool.false_ne_true, if_neg (UInt64.lt_irrefl _), if_neg (UInt64.lt_irrefl _),
    if_neg (UInt16.lt_irrefl _), if_neg (UInt16.lt_irrefl _), if_neg (UInt64.lt_irrefl _)]

/-- All nodes have stored the same updates. -/
def Converged (sim : LightingNetworkSimulation n k) : Prop :=
  ∀ u v channelID dir, (sim.nodes u).latest channelID dir = (sim.nodes v).latest channelID dir

theorem Converged.policy (h : sim.Converged) (u v : Fin n) (channelID : Nat) (dir : Fin 2) :
    sim.getPolicyFromNodeOrGraph channelID dir u = sim.getPolicyFromNodeOrGraph channelID dir v := by
  rw [getPolicyFromNodeOrGraph_eq, getPolicyFromNodeOrGraph_eq, h u v]

/-- Where a node knows the policy of the source, it can only be short of balance. -/
theorem verdict_eq {l : Leg n} (hl : l.Usable sim src)
    (hsame : ∀ channelID dir, sim.getPolicyFromNodeOrGraph channelID dir l.node =
      sim.getPolicyFromNodeOrGraph channelID dir src) (aggAmt : UInt64) :
    ∃ balance, l.channel.getBalance l.node = some balance ∧ sim.verdict aggAmt l =
      some (if balance * 1000 < l.amount then .liquidityFailure else .paymentSuccess) := by
  obtain ⟨dir, hd, -⟩ := hl.edge.direction
  have hpolicy := (hsame l.channel.channelID dir).trans (hl.edge.policy hd)
  refine ⟨_, GraphChannel.byEndpoint_eq hd _ _, ?_⟩
  unfold verdict
  rw [GraphChannel.getBalance, GraphChannel.byEndpoint_eq hd, hd]
  simp only [Option.bind_eq_bind, Option.bind_some, hpolicy, compareChannels_self hl.enabled]
  split_ifs <;> rfl

/-- The first hop of a path found succeeds. -/
theorem verdict_first {p : PaymentPath n} {l : Leg n} {legs : List (Leg n)}
    (hr : Route sim src dst amount maxTimeLock src p (l :: legs)) (hp : p.Funded src)
    (aggAmt : UInt64) : sim.verdict aggAmt l = some .paymentSuccess := by
  obtain ⟨hnode, hsum, -⟩ := hr.leads
  have hl := hr.usable l List.mem_cons_self
  obtain ⟨fee, balance, hfee, hbalance, hle⟩ := hp _ _ _ _ hr.hops hr.amounts
  obtain ⟨dir, hd, hpolicy⟩ := hl.edge.direction
  have hlfee : fee = l.fee := by
    rw [← hnode, GraphChannel.getFee_eq hd, hpolicy] at hfee
    exact (Option.some.inj hfee).symm
  have hexact : (l.amount + fee).toNat = l.amount.toNat + fee.toNat := by
    rw [UInt64.toNat_add]
    refine Nat.mod_eq_of_lt ?_
    rw [hlfee, ← hsum]
    exact p.aggAmt.toNat_lt
  obtain ⟨balance', hbalance', hverdict⟩ := verdict_eq hl (fun _ _ => by rw [hnode]) aggAmt
  rw [hnode, hbalance] at hbalance'
  cases hbalance'
  rw [hverdict, if_neg]
  rw [UInt64.le_iff_toNat_le, hexact] at hle
  rw [UInt64.lt_iff_toNat_lt]
  omega

theorem mem_of_mem_throughFailure {statuses : List PaymentStatus} {status : PaymentStatus}
    (h : status ∈ throughFailure statuses) : status ∈ statuses := by
  induction statuses with
  | nil => exact h
  | cons s statuses ih =>
    unfold throughFailure at h
    split_ifs at h
    · exact (List.mem_cons.1 h).elim (fun heq => heq ▸ List.mem_cons_self)
        fun hmem => List.mem_cons_of_mem _ (ih hmem)
    · exact List.mem_singleton.1 h ▸ List.mem_cons_self

end LightingNetworkSimulation

/-- A payment, and the simulation at its time. -/
structure Payment (n k : Nat) where
  sim : LightingNetworkSimulation n k
  ln : Fin n
  dst : Fin n
  amt : UInt64

structure PaymentCounts where
  totalPayments : Nat
  succesfulPayments : Nat
  liquidityFailures : Nat
  noRouteFailures : Nat
  convergenceFailures : Nat

/-- A last status that lets the payment through may still count as a failure to converge. -/
def PaymentCounts.count (c : PaymentCounts) (status : PaymentStatus) : PaymentCounts :=
  let c := match status with
    | .paymentSuccess => { c with succesfulPayments := c.succesfulPayments + 1 }
    | .convergenceFailureFeeUp | .convergenceFeeDown | .convergenceFailureCLTVUp
    | .convergenceCLTVDown | .convergenceOKButOld | .convergenceFailureDisabled =>
      { c with convergenceFailures := c.convergenceFailures + 1 }
    | .liquidityFailure => { c with liquidityFailures := c.liquidityFailures + 1 }
    | .noRouteFailure => { c with noRouteFailures := c.noRouteFailures + 1 }
  { c with totalPayments := c.totalPayments + 1 }

theorem PaymentCounts.count_spec (c : PaymentCounts) (status : PaymentStatus) :
    (c.count status).totalPayments = c.totalPayments + 1 ∧
    (c.count status).succesfulPayments + (c.count status).liquidityFailures +
        (c.count status).noRouteFailures + (c.count status).convergenceFailures =
      c.succesfulPayments + c.liquidityFailures + c.noRouteFailures + c.convergenceFailures + 1 ∧
    (status = .paymentSuccess ∨ status = .liquidityFailure ∨ status = .noRouteFailure →
      (c.count status).convergenceFailures = c.convergenceFailures) := by
  refine ⟨?_, ?_, ?_⟩
  · cases status <;> rfl
  · cases status <;> dsimp only [count] <;> omega
  · rintro (rfl | rfl | rfl) <;> rfl

def sendPayment (c : PaymentCounts) (p : Payment n k) : Option PaymentCounts := do
  let path ← p.sim.findPaymentPath p.ln p.dst p.amt 1000
  let status ← p.sim.checkPayment p.ln path
  let last ← status.getLast?
  return c.count last

namespace Payment

/-- The statuses of a path: no path, or a route whose first leg succeeds, with the verdicts on its
legs up to the first failure. -/
def Reported (p : Payment n k) (path : PaymentPath n) (statuses : List PaymentStatus) : Prop :=
  (path.hops = [] ∧ statuses = [.noRouteFailure]) ∨
  ∃ legs verdicts, Route p.sim p.ln p.dst p.amt 1000 p.ln path legs ∧
    legs.map (p.sim.verdict path.aggAmt) = some .paymentSuccess :: verdicts.map some ∧
    statuses = .paymentSuccess :: LightingNetworkSimulation.throughFailure verdicts

/-- No sum of an amount and a fee overflows in the search for a path. -/
def NoOverflow (p : Payment n k) : Prop :=
  p.ln ≠ p.dst → p.sim.NoOverflow p.ln p.dst 1000 p.amt

open LightingNetworkSimulation

theorem exists_reported {p : Payment n k} (h : p.NoOverflow) :
    ∃ path statuses, p.sim.findPaymentPath p.ln p.dst p.amt 1000 = some path ∧
      p.sim.checkPayment p.ln path = some statuses ∧ p.Reported path statuses := by
  have hempty : p.sim.checkPayment p.ln (newPaymentPath 0 p.ln p.dst) = some [.noRouteFailure] := rfl
  by_cases hne : p.ln = p.dst
  · refine ⟨_, _, ?_, hempty, .inl ⟨rfl, rfl⟩⟩
    unfold findPaymentPath
    exact if_pos hne
  · obtain ⟨⟨path, hpath, rfl | ⟨legs, hr⟩⟩, -⟩ := findPaymentPath_spec hne (h hne)
    · exact ⟨_, _, hpath, hempty, .inl ⟨rfl, rfl⟩⟩
    · cases legs with
      | nil => exact absurd hr.leads.1 hne
      | cons l legs =>
        obtain ⟨verdicts, hverdicts, hcheck⟩ :=
          checkHops_eq hr.target hr.usable true hr.leads fun _ => rfl
        have hfirst := verdict_first hr (funded_of_find hne hpath) path.aggAmt
        obtain ⟨first, rest, rfl, heq, -⟩ := List.map_eq_cons_iff.1 hverdicts.symm
        rw [hfirst] at heq
        cases heq
        refine ⟨path, _, hpath, ?_, .inr ⟨_, rest, hr, hverdicts, rfl⟩⟩
        unfold checkPayment
        rw [if_neg (by rw [hr.hops]; simp), hr.hops, hr.amounts, hr.source]
        exact hcheck

/-- In a network that has converged, a payment can only be short of balance. -/
theorem Reported.converged {p : Payment n k} {path : PaymentPath n} {statuses : List PaymentStatus}
    (h : p.Reported path statuses) (hc : p.sim.Converged) :
    ∀ s ∈ statuses, s = .paymentSuccess ∨ s = .liquidityFailure ∨ s = .noRouteFailure := by
  rcases h with ⟨-, rfl⟩ | ⟨legs, verdicts, hr, hverdicts, rfl⟩
  · intro s hs
    exact .inr (.inr (List.mem_singleton.1 hs))
  · intro s hs
    have hmem : s ∈ .paymentSuccess :: verdicts :=
      (List.mem_cons.1 hs).elim (fun heq => heq ▸ List.mem_cons_self)
        fun hmem => List.mem_cons_of_mem _ (mem_of_mem_throughFailure hmem)
    have hmap : some s ∈ legs.map (p.sim.verdict path.aggAmt) :=
      hverdicts ▸ List.mem_map_of_mem (f := some) hmem
    obtain ⟨l, hl, hv⟩ := List.mem_map.1 hmap
    obtain ⟨balance, -, heq⟩ := verdict_eq (hr.usable l hl) (fun _ _ => hc.policy ..) path.aggAmt
    rw [heq, Option.some_inj] at hv
    split_ifs at hv
    · exact .inr (.inl hv.symm)
    · exact .inl hv.symm

end Payment

/-- Any sequence of payments without an overflow comes to its end, and the counters add up. -/
theorem sendPayments_counted (payments : List (Payment n k)) (hfit : ∀ p ∈ payments, p.NoOverflow)
    (c : PaymentCounts) :
    (∀ p ∈ payments, ∃ path statuses, p.sim.findPaymentPath p.ln p.dst p.amt 1000 = some path ∧
      p.sim.checkPayment p.ln path = some statuses ∧ p.Reported path statuses ∧
      (p.sim.Converged → ∀ status ∈ statuses,
        status = .paymentSuccess ∨ status = .liquidityFailure ∨ status = .noRouteFailure)) ∧
    ∃ c', payments.foldlM sendPayment c = some c' ∧
      c'.totalPayments = c.totalPayments + payments.length ∧
      c'.succesfulPayments + c'.liquidityFailures + c'.noRouteFailures + c'.convergenceFailures =
        c.succesfulPayments + c.liquidityFailures + c.noRouteFailures + c.convergenceFailures +
          payments.length ∧
      ((∀ p ∈ payments, p.sim.Converged) → c'.convergenceFailures = c.convergenceFailures) := by
  constructor
  · intro p hp
    obtain ⟨path, statuses, hpath, hcheck, hreported⟩ := Payment.exists_reported (hfit p hp)
    exact ⟨path, statuses, hpath, hcheck, hreported, hreported.converged⟩
  induction payments generalizing c with
  | nil => exact ⟨c, rfl, rfl, rfl, fun _ => rfl⟩
  | cons p payments ih =>
    obtain ⟨hp, hrest⟩ := List.forall_mem_cons.1 hfit
    obtain ⟨path, statuses, hpath, hcheck, hreported⟩ := Payment.exists_reported hp
    obtain ⟨last, hlast⟩ : ∃ last, statuses.getLast? = some last := by
      rcases hreported with ⟨-, rfl⟩ | ⟨_, _, -, -, rfl⟩
      · exact ⟨_, rfl⟩
      · exact ⟨_, List.getLast?_eq_some_getLast (List.cons_ne_nil _ _)⟩
    obtain ⟨c', hc', htotal, hsum, hconv⟩ := ih hrest (c.count last)
    have hcount := PaymentCounts.count_spec c last
    refine ⟨c', ?_, ?_, ?_, fun h => ?_⟩
    · rw [List.foldlM_cons, sendPayment, hpath]
      simp only [Option.bind_eq_bind, Option.bind_some, hcheck, hlast]
      exact hc'
    · rw [htotal, hcount.1, List.length_cons]
      omega
    · rw [hsum, hcount.2.1, List.length_cons]
      omega
    · obtain ⟨hfirst, hlater⟩ := List.forall_mem_cons.1 h
      rw [hconv hlater]
      exact hcount.2.2 (hreported.converged hfirst last (List.mem_of_getLast? hlast))

theorem sendPayments_counted_ring :
    ∃ c', [⟨LightingNetworkSimulation.ring, 0, 3, 1000⟩, ⟨LightingNetworkSimulation.ring, 3, 1, 1000⟩,
        ⟨LightingNetworkSimulation.ring, 0, 3, 6000000⟩].foldlM sendPayment ⟨0, 0, 0, 0, 0⟩ =
      some c' ∧ c'.totalPayments = 3 ∧ c'.convergenceFailures = 0 ∧
      c'.succesfulPayments + c'.liquidityFailures + c'.noRouteFailures = 3 := by
  obtain ⟨-, c', hc', htotal, hsum, hconv⟩ := sendPayments_counted
    [⟨LightingNetworkSimulation.ring, 0, 3, 1000⟩, ⟨LightingNetworkSimulation.ring, 3, 1, 1000⟩,
      ⟨LightingNetworkSimulation.ring, 0, 3, 6000000⟩] (by
      simp only [List.forall_mem_cons]
      refine ⟨fun _ => ?_, fun _ => ?_, fun _ => ?_, List.forall_mem_nil _⟩
      · decide +kernel
      · decide +kernel
      · decide +kernel) ⟨0, 0, 0, 0, 0⟩
  have hzero : c'.convergenceFailures = 0 := hconv (by
    simp only [List.forall_mem_cons]
    exact ⟨fun _ _ _ _ => rfl, fun _ _ _ _ => rfl, fun _ _ _ _ => rfl, List.forall_mem_nil _⟩)
  refine ⟨c', hc', htotal, hzero, ?_⟩
  rw [hzero] at hsum
  exact hsum

end LnConv.Payments
