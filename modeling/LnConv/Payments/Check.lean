import LnConv.Payments.Soundness

/-!
# Checking a payment

The source of a payment compares its path with what the nodes on it know. The path is one that
the search has found, so the walk along it stays connected and arrives.
-/

namespace LnConv.Payments

open Netsim

inductive PaymentStatus where
  | paymentSuccess
  | liquidityFailure
  | convergenceFailureFeeUp
  | convergenceFeeDown
  | convergenceFailureCLTVUp
  | convergenceCLTVDown
  | convergenceFailureDisabled
  | convergenceOKButOld
  | noRouteFailure
  deriving DecidableEq

def PaymentStatus.isSuccess : PaymentStatus → Bool
  | .paymentSuccess | .convergenceFeeDown | .convergenceCLTVDown | .convergenceOKButOld => true
  | _ => false

def compareChannels (amt : UInt64) (actual used : ChannelPolicy) : PaymentStatus :=
  if actual.disabled then .convergenceFailureDisabled
  else if used.getFee amt < actual.getFee amt then .convergenceFailureFeeUp
  else if actual.getFee amt < used.getFee amt then .convergenceFeeDown
  else if used.timeLockDelta < actual.timeLockDelta then .convergenceFailureCLTVUp
  else if actual.timeLockDelta < used.timeLockDelta then .convergenceCLTVDown
  else if used.lastUpdate < actual.lastUpdate then .convergenceOKButOld
  else .paymentSuccess

/-- The source compares `MinHtlc` of `p1` with itself. -/
def isRedundant (p1 p2 : ChannelPolicy) : Bool :=
  p1.disabled == p2.disabled && p1.feeBaseMsat == p2.feeBaseMsat &&
    p1.maxHtlcMsat == p2.maxHtlcMsat && p1.feeRateMilliMsat == p2.feeRateMilliMsat &&
    p1.minHtlc == p1.minHtlc && p1.timeLockDelta == p2.timeLockDelta

theorem isRedundant_self (p : ChannelPolicy) : isRedundant p p = true := by
  simp [isRedundant]

namespace LightingNetworkSimulation

variable {n k : Nat} (sim : LightingNetworkSimulation n k)

/-- The loop over the hops that are left, with the amounts they forward. A guard is a panic of the
source where it fails. -/
def checkHops (ln : Fin n) (p : PaymentPath n) :
    Bool → Fin n → List (GraphChannel n) → List UInt64 → Option (List PaymentStatus)
  | _, current, [], _ => do
    guard (current = p.dst)
    return []
  | _, _, _ :: _, [] => none
  | first, current, c :: hops, amt :: amounts => do
    let (balance, next) ←
      c.byEndpoint current (c.node1Balance, c.node2) (c.node2Balance, c.node1)
    guard (current ≠ next)
    let used ← c.getPolicy current
    guard (used.disabled = false)
    if balance * 1000 < amt then return [.liquidityFailure]
    guard (first = true → current = ln)
    let dir ← c.getDirection current
    let actualPolicy ← sim.getPolicyFromNodeOrGraph c.channelID dir current
    guard (first = true → isRedundant actualPolicy used = true)
    let status := compareChannels p.aggAmt actualPolicy used
    if status.isSuccess = false then return [status]
    let statusPerChannel ← checkHops ln p false next hops amounts
    return status :: statusPerChannel

def checkPayment (ln : Fin n) (p : PaymentPath n) : Option (List PaymentStatus) :=
  if p.hops.isEmpty then some [.noRouteFailure]
  else sim.checkHops ln p true p.src p.hops p.amounts

variable {sim} {src dst : Fin n} {amount : UInt64} {maxTimeLockDelta : UInt16}

theorem isSome_getPolicyFromNodeOrGraph {channelID : Nat} {c : GraphChannel n}
    (h : sim.g.channels[channelID]? = some c) (dir : Fin 2) (v : Fin n) :
    ∃ policy, sim.getPolicyFromNodeOrGraph channelID dir v = some policy := by
  rw [getPolicyFromNodeOrGraph_eq]
  split
  · exact ⟨_, rfl⟩
  · rw [h]
    exact ⟨_, rfl⟩

/-- The statuses up to the first failure. -/
def throughFailure : List PaymentStatus → List PaymentStatus
  | [] => []
  | s :: statuses => if s.isSuccess then s :: throughFailure statuses else [s]

variable (sim) in
/-- What the node of a leg makes of the payment, by the policy it knows itself. -/
def verdict (aggAmt : UInt64) (l : Leg n) : Option PaymentStatus := do
  let balance ← l.channel.getBalance l.node
  if balance * 1000 < l.amount then return .liquidityFailure
  let dir ← l.channel.getDirection l.node
  let actual ← sim.getPolicyFromNodeOrGraph l.channel.channelID dir l.node
  return compareChannels aggAmt actual l.policy

/-- The walk along the hops collects the verdicts up to the first failure. -/
theorem checkHops_eq {p : PaymentPath n} (hp : p.dst = dst) {legs : List (Leg n)}
    (husable : ∀ l ∈ legs, l.Usable sim src) (first : Bool) {v : Fin n} {sent : UInt64}
    (hleads : Leads dst amount v sent legs) (hfirst : first = true → v = src) :
    ∃ verdicts, legs.map (sim.verdict p.aggAmt) = verdicts.map some ∧
      sim.checkHops src p first v (legs.map Leg.channel) (legs.map Leg.amount) =
        some (throughFailure verdicts) := by
  induction legs generalizing first v sent with
  | nil =>
    refine ⟨[], rfl, ?_⟩
    unfold checkHops
    rw [hleads.1, hp]
    simp [guard, throughFailure]
  | cons l legs ih =>
    obtain ⟨rfl, -, hrest⟩ := hleads
    obtain ⟨hl, husable⟩ := List.forall_mem_cons.1 husable
    obtain ⟨verdicts, hverdicts, hs⟩ := ih husable false hrest nofun
    obtain ⟨dir, hd, hpolicy⟩ := hl.edge.direction
    obtain ⟨balance, hnext⟩ := GraphChannel.Joins.next hl.edge.joins
      l.channel.node1Balance l.channel.node2Balance
    obtain ⟨c, hc⟩ := hl.edge.channel
    obtain ⟨actual, hactual⟩ := isSome_getPolicyFromNodeOrGraph hc dir l.node
    have hbalance : l.channel.getBalance l.node = some balance := by
      have hfst := congrArg (Option.map Prod.fst) hnext
      rwa [GraphChannel.map_byEndpoint] at hfst
    have hverdict : sim.verdict p.aggAmt l = some (if balance * 1000 < l.amount then
        .liquidityFailure else compareChannels p.aggAmt actual l.policy) := by
      unfold verdict
      rw [hbalance, hd]
      simp only [Option.bind_eq_bind, Option.bind_some, hactual]
      split_ifs <;> rfl
    refine ⟨_ :: verdicts, by rw [List.map_cons, hverdict, hverdicts, List.map_cons], ?_⟩
    simp only [List.map_cons]
    unfold checkHops
    rw [hnext, GraphChannel.getPolicy_eq hd, hpolicy, hd]
    have hne : l.node ≠ l.next := GraphChannel.Joins.ne hl.edge.joins
    -- on the first hop, the node compared is the source itself
    have hsame : first = true → isRedundant actual l.policy = true := fun h => by
      have hpol := hl.edge.policy hd
      rw [← hfirst h, hactual] at hpol
      cases hpol
      exact isRedundant_self _
    simp only [Option.bind_eq_bind, Option.bind_some, guard]
    rw [if_pos hne, if_pos hl.enabled, if_pos hfirst, hactual, hs]
    simp only [Option.pure_def, Option.bind_some]
    rw [if_pos hsame]
    simp only [Option.bind_some]
    by_cases hlow : balance * 1000 < l.amount
    · rw [if_pos hlow, if_pos hlow]
      rfl
    · rw [if_neg hlow, if_neg hlow]
      cases hsuccess : (compareChannels p.aggAmt actual l.policy).isSuccess with
      | false => simp [throughFailure, hsuccess]
      | true => simp [throughFailure, hsuccess]

theorem checkPayment_spec {p : PaymentPath n} (h : sim.Result src dst amount maxTimeLockDelta p) :
    ∃ statuses, sim.checkPayment src p = some statuses := by
  unfold checkPayment
  split_ifs with hempty
  · exact ⟨_, rfl⟩
  · rcases h with rfl | ⟨legs, hr⟩
    · exact absurd rfl hempty
    · rw [hr.hops, hr.amounts, hr.source]
      obtain ⟨verdicts, -, hs⟩ := checkHops_eq hr.target hr.usable true hr.leads fun _ => rfl
      exact ⟨_, hs⟩

/-- The search ends with an empty path or a route from the source, the time lock left of a
candidate never underflows, and the check of the path does not panic. -/
theorem findPaymentPath_sound (sim : LightingNetworkSimulation n k) {src dst : Fin n}
    (hne : src ≠ dst) (amount : UInt64) (maxTimeLockDelta : UInt16)
    (hfit : sim.NoOverflow src dst maxTimeLockDelta amount) :
    (∀ s ∈ sim.states src dst maxTimeLockDelta (rounds n) (.start src dst amount),
      ∀ v p, s.candidateMap v = some p → p.aggTime ≤ maxTimeLockDelta) ∧
    ∃ p, sim.findPaymentPath src dst amount maxTimeLockDelta = some p ∧
      (p = newPaymentPath 0 src dst ∨
        ∃ legs, Route sim src dst amount maxTimeLockDelta src p legs) ∧
      ∃ statuses, sim.checkPayment src p = some statuses := by
  obtain ⟨⟨p, hp, hresult⟩, hinv⟩ := findPaymentPath_spec hne hfit
  exact ⟨fun s hs => (hinv s hs).aggTime_le, p, hp, hresult, checkPayment_spec hresult⟩

/-- A ring of four channels. One of them costs more than the way round it, another one has been
updated. -/
def ring : LightingNetworkSimulation 4 2 where
  g := .ofChannels
    (let policy (base : Nat) : ChannelPolicy :=
      ⟨40, "1", "1000000", mkRat base 1, mkRat 5 2, false, 1⟩
    [⟨⟨1, 0, by decide⟩, 0, policy 1, policy 1, 5000, 5000, 10000, false⟩,
      ⟨⟨1, 2, by decide⟩, 1, policy 900, policy 1, 5000, 5000, 10000, false⟩,
      ⟨⟨2, 3, by decide⟩, 2, policy 4, policy 1, 5000, 5000, 10000, false⟩,
      ⟨⟨0, 3, by decide⟩, 3, policy 500, policy 500, 5000, 5000, 10000, false⟩]) (by
      intro c hc
      simp only [List.mem_cons, List.not_mem_nil, or_false] at hc
      rcases hc with rfl | rfl | rfl | rfl <;> rfl)
  nodes _ := { Lnsim.LightningNode.newLightningNode 0 with
    seenByChannel c := if c = 1 then some fun dir => if dir = 0 then some 0 else none else none }
  messages _ := ⟨1, 128, 0, .channelUpdate, 0, 1, some 1, 2, false⟩
  policy _ := ⟨40, "1", "1000000", mkRat 3 1, mkRat 5 2, false, 2⟩
  origin v c dir m hc hm := by
    unfold Lnsim.LightningNode.latest at hm
    dsimp only at hm
    split_ifs at hm with h
    · dsimp only [Option.bind_some] at hm
      split_ifs at hm with hdir
      rw [h] at hc
      cases hc
      rw [hdir]
      rfl
    · cases hm

example : (ring.findPaymentPath 0 3 1000 144).map (fun p =>
    (p.hops.map (·.channelID), p.amounts, p.aggAmt, p.aggTime)) =
    some ([0, 1, 2], [1011, 1006, 1000], 1014, 120) := by decide +kernel

theorem findPaymentPath_sound_ring :
    ∃ p, ring.findPaymentPath 0 3 1000 144 = some p ∧ p.hops.length = 3 ∧
      (∃ legs, Route ring 0 3 1000 144 0 p legs) ∧
      ∃ statuses, ring.checkPayment 0 p = some statuses := by
  have hne : (0 : Fin 4) ≠ 3 := by decide
  obtain ⟨-, p, hp, hresult, hcheck⟩ :=
    findPaymentPath_sound ring hne 1000 144 (by decide +kernel)
  have hlen : (ring.findPaymentPath 0 3 1000 144).map (·.hops.length) = some 3 := by
    decide +kernel
  rw [hp, Option.map_some, Option.some.injEq] at hlen
  refine ⟨p, hp, hlen, hresult.resolve_left ?_, hcheck⟩
  rintro rfl
  cases hlen

end LightingNetworkSimulation

end LnConv.Payments
