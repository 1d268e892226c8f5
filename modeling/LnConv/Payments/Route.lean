import LnConv.Lib.Loop
import LnConv.Payments.FindPath

/-!
# Routes

What a payment path has to be: its legs lead from one node to another, over edges that the
source may use, with amounts that pay the fees of the legs to come. `Offered` is what
`FindCheapestEdge` promises of an edge, in the arithmetic of the machine.
-/

namespace LnConv.Payments

/-- The fee for an amount, with no bound on the numbers. -/
def ChannelPolicy.exactFee (cp : ChannelPolicy) (amt : Nat) : Nat :=
  (uint64 cp.feeBaseMsat).toNat + (uint64 cp.feeRateMilliMsat).toNat * amt / 1000

/-- Neither the fee for an amount nor the sum of the two overflows. -/
def ChannelPolicy.Fits (cp : ChannelPolicy) (amt : UInt64) : Prop :=
  (uint64 cp.feeRateMilliMsat).toNat * amt.toNat < 2 ^ 64 ∧
    amt.toNat + cp.exactFee amt.toNat < 2 ^ 64

namespace ChannelPolicy

instance (cp : ChannelPolicy) (amt : UInt64) : Decidable (cp.Fits amt) :=
  inferInstanceAs (Decidable (_ ∧ _))

variable {cp : ChannelPolicy} {amt : UInt64}

theorem Fits.toNat_getFee (h : cp.Fits amt) : (cp.getFee amt).toNat = cp.exactFee amt.toNat := by
  obtain ⟨hmul, hsum⟩ := h
  unfold exactFee at hsum ⊢
  unfold getFee
  have hdiv : (uint64 cp.feeRateMilliMsat * amt / 1000).toNat =
      (uint64 cp.feeRateMilliMsat).toNat * amt.toNat / 1000 := by
    rw [UInt64.toNat_div, UInt64.toNat_mul, Nat.mod_eq_of_lt hmul]
    rfl
  rw [UInt64.toNat_add, hdiv]
  exact Nat.mod_eq_of_lt (by omega)

theorem Fits.toNat_add (h : cp.Fits amt) :
    (amt + cp.getFee amt).toNat = amt.toNat + (cp.getFee amt).toNat := by
  rw [UInt64.toNat_add, h.toNat_getFee, Nat.mod_eq_of_lt h.2]

end ChannelPolicy

/-- A hop of a path: `node` forwards `amount` to `next`, under the policy the source knows. -/
structure Leg (n : Nat) where
  node : Fin n
  next : Fin n
  channel : GraphChannel n
  policy : ChannelPolicy
  amount : UInt64

namespace Leg

variable {n : Nat} (l : Leg n)

def fee : UInt64 := l.policy.getFee l.amount

/-- The channel joins the nodes in the graph, and is as the source sees it. -/
def OnEdge {k : Nat} (sim : LightingNetworkSimulation n k) (src : Fin n) : Prop :=
  ∃ (edge : GraphChannel n) (dir : Fin 2),
    sim.g.channels[edge.channelID]? = some edge ∧ edge.Joins l.node l.next ∧
    edge.getDirection l.node = some dir ∧
    sim.getPolicyFromNodeOrGraph edge.channelID dir src = some l.policy ∧
    l.channel = edge.updatePolicy dir l.policy

structure Offered {k : Nat} (sim : LightingNetworkSimulation n k) (src : Fin n)
    (timeLock : UInt16) : Prop where
  edge : l.OnEdge sim src
  enabled : l.policy.disabled = false
  capacity : l.amount + l.fee ≤ l.channel.capacity * 1000
  timeLock : l.policy.timeLockDelta ≤ timeLock

structure Usable {k : Nat} (sim : LightingNetworkSimulation n k) (src : Fin n) : Prop where
  edge : l.OnEdge sim src
  enabled : l.policy.disabled = false
  fee : l.fee.toNat = l.policy.exactFee l.amount.toNat
  capacity : l.amount.toNat + l.fee.toNat ≤ l.channel.capacity.toNat * 1000

variable {l} {k : Nat} {sim : LightingNetworkSimulation n k} {src : Fin n}

theorem OnEdge.joins (h : l.OnEdge sim src) : l.channel.Joins l.node l.next := by
  obtain ⟨edge, dir, -, hj, -, -, hl⟩ := h
  rw [hl]
  exact GraphChannel.joins_updatePolicy _ |>.2 hj

theorem OnEdge.direction (h : l.OnEdge sim src) :
    ∃ dir, l.channel.getDirection l.node = some dir ∧ l.channel.getPolicyByDir dir = l.policy := by
  obtain ⟨edge, dir, -, -, hd, -, hl⟩ := h
  rw [hl]
  exact ⟨dir, by rw [GraphChannel.getDirection_updatePolicy, hd],
    GraphChannel.getPolicyByDir_updatePolicy _⟩

/-- What the source knows of the channel is what the leg uses. -/
theorem OnEdge.policy {dir : Fin 2} (h : l.OnEdge sim src)
    (hd : l.channel.getDirection l.node = some dir) :
    sim.getPolicyFromNodeOrGraph l.channel.channelID dir src = some l.policy := by
  obtain ⟨edge, dir', -, -, hd', hp, hl⟩ := h
  rw [hl, GraphChannel.getDirection_updatePolicy, hd'] at hd
  cases hd
  rw [hl, GraphChannel.updatePolicy_channelID, hp]

theorem OnEdge.channel (h : l.OnEdge sim src) :
    ∃ c, sim.g.channels[l.channel.channelID]? = some c := by
  obtain ⟨edge, dir, hc, -, -, -, hl⟩ := h
  rw [hl, GraphChannel.updatePolicy_channelID]
  exact ⟨edge, hc⟩

theorem Offered.usable {timeLock : UInt16} (h : l.Offered sim src timeLock)
    (hfit : l.policy.Fits l.amount) : l.Usable sim src where
  edge := h.edge
  enabled := h.enabled
  fee := hfit.toNat_getFee
  capacity := by
    have hle := UInt64.le_iff_toNat_le.1 h.capacity
    rw [fee, hfit.toNat_add, UInt64.toNat_mul] at hle
    exact hle.trans (Nat.mod_le _ _)

end Leg

/-- The legs lead from a node to `dst`. A node has to send what the leg forwards and its fee, and
`amount` arrives. -/
def Leads {n : Nat} (dst : Fin n) (amount : UInt64) : Fin n → UInt64 → List (Leg n) → Prop
  | v, sent, [] => v = dst ∧ sent = amount
  | v, sent, l :: legs =>
    l.node = v ∧ sent.toNat = l.amount.toNat + l.fee.toNat ∧ Leads dst amount l.next l.amount legs

/-- The path from `v` to `dst` over the legs, none of whose nodes are the same. -/
structure Route {n k : Nat} (sim : LightingNetworkSimulation n k) (src dst : Fin n) (amount : UInt64)
    (maxTimeLockDelta : UInt16) (v : Fin n) (p : PaymentPath n) (legs : List (Leg n)) : Prop where
  source : p.src = src
  target : p.dst = dst
  hops : p.hops = legs.map Leg.channel
  amounts : p.amounts = legs.map Leg.amount
  leads : Leads dst amount v p.aggAmt legs
  simple : (v :: legs.map Leg.next).Nodup
  usable : ∀ l ∈ legs, l.Usable sim src
  aggTime : p.aggTime.toNat = (legs.map fun l => l.policy.timeLockDelta.toNat).sum
  aggTime_le : p.aggTime ≤ maxTimeLockDelta

namespace LightingNetworkSimulation

variable {n k : Nat} {sim : LightingNetworkSimulation n k}

theorem seenEdge_spec {edge : GraphChannel n} {toNode : Fin n} {dir : Fin 2}
    (hc : sim.g.channels[edge.channelID]? = some edge) (hd : edge.getDirection toNode = some dir)
    (srcNode : Fin n) :
    ∃ policy, sim.getPolicyFromNodeOrGraph edge.channelID dir srcNode = some policy ∧
      ∃ r, sim.seenEdge srcNode edge toNode = some r ∧
        ∀ e, r = some e → e = edge.updatePolicy dir policy := by
  have hgraph : ∃ r, (some (if edge.newChannel then none else some edge) :
      Option (Option (GraphChannel n))) = some r ∧
        ∀ e, r = some e → e = edge.updatePolicy dir (edge.getPolicyByDir dir) := by
    refine ⟨_, rfl, fun e he => ?_⟩
    split_ifs at he
    cases he
    rw [GraphChannel.updatePolicy_self]
  have hlatest := sim.origin srcNode edge dir
  unfold getPolicyFromNodeOrGraph seenEdge
  unfold Lnsim.LightningNode.latest at hlatest
  cases hs : (sim.nodes srcNode).seenByChannel edge.channelID with
  | none =>
    dsimp only
    rw [hc]
    exact ⟨_, rfl, hgraph⟩
  | some updates =>
    rw [hs] at hlatest
    dsimp only
    rw [hd, Option.bind_eq_bind, Option.bind_some]
    cases hu : updates dir with
    | none =>
      dsimp only
      rw [hc]
      exact ⟨_, rfl, hgraph⟩
    | some m =>
      have ho := hlatest m hc hu
      rw [GraphChannel.nodeOf_eq hd] at ho
      dsimp only
      rw [if_neg (not_not.2 ho)]
      refine ⟨_, rfl, _, rfl, fun e he => ?_⟩
      cases he
      rfl

end LightingNetworkSimulation

theorem GraphChannel.price_spec {n : Nat} {edge : GraphChannel n} {toNode : Fin n} {dir : Fin 2}
    (hd : edge.getDirection toNode = some dir) (amount : UInt64) (currMaxTimeLock : UInt16)
    (currentNode srcNode : Fin n) :
    ∃ r, edge.price amount currMaxTimeLock currentNode toNode srcNode = some r ∧ ∀ w, r = some w →
      (edge.getPolicyByDir dir).disabled = false ∧
      amount + (edge.getPolicyByDir dir).getFee amount ≤ edge.capacity * 1000 ∧
      (edge.getPolicyByDir dir).timeLockDelta ≤ currMaxTimeLock := by
  unfold price
  rw [isDisabled_eq hd, getFee_eq hd, getTimeLockDelta_eq hd, getBalance, byEndpoint_eq hd]
  simp only [Option.bind_eq_bind, Option.bind_some]
  generalize (if dir = 0 then edge.node1Balance else edge.node2Balance) = balance
  split_ifs with henabled hcapacity _ _ htime htime
  · exact ⟨none, rfl, nofun⟩
  · exact ⟨none, rfl, nofun⟩
  · exact ⟨none, rfl, nofun⟩
  · exact ⟨none, rfl, nofun⟩
  · exact ⟨_, rfl, fun _ _ =>
      ⟨Bool.eq_false_iff.2 henabled, UInt64.not_lt.1 hcapacity, UInt16.not_lt.1 htime⟩⟩
  · exact ⟨none, rfl, nofun⟩
  · exact ⟨_, rfl, fun _ _ =>
      ⟨Bool.eq_false_iff.2 henabled, UInt64.not_lt.1 hcapacity, UInt16.not_lt.1 htime⟩⟩

namespace LightingNetworkSimulation

variable {n k : Nat} {sim : LightingNetworkSimulation n k}

/-- The leg of a payment that arrives with `amount` at `currentNode`, over an edge found. -/
def Found (sim : LightingNetworkSimulation n k) (srcNode currentNode toNode : Fin n) (amount : UInt64)
    (timeLock : UInt16) (found : Option (GraphChannel n)) : Prop :=
  ∀ e, found = some e → ∃ policy,
    (⟨toNode, currentNode, e, policy, amount⟩ : Leg n).Offered sim srcNode timeLock

theorem tryEdge_spec {currentNode toNode srcNode : Fin n} {edge : GraphChannel n}
    (he : edge ∈ sim.g.between currentNode toNode) {amount : UInt64} {timeLock : UInt16}
    {cheapest : ChannelWeight × Option (GraphChannel n)}
    (h : sim.Found srcNode currentNode toNode amount timeLock cheapest.2) :
    ∃ r, sim.tryEdge amount timeLock currentNode toNode srcNode cheapest edge = some r ∧
      sim.Found srcNode currentNode toNode amount timeLock r.2 := by
  have hj : edge.Joins toNode currentNode := (ChannelGraph.joins_of_mem_between he).symm
  have hc := ChannelGraph.channel_of_mem_between he
  obtain ⟨dir, hd⟩ := hj.direction
  obtain ⟨policy, hp, r, hseen, hr⟩ := seenEdge_spec hc hd srcNode
  unfold tryEdge
  rw [hseen]
  cases r with
  | none => exact ⟨cheapest, rfl, h⟩
  | some e =>
    have heq := hr e rfl
    have hde : e.getDirection toNode = some dir := by
      rw [heq, GraphChannel.getDirection_updatePolicy, hd]
    have hpe : e.getPolicyByDir dir = policy := by
      rw [heq, GraphChannel.getPolicyByDir_updatePolicy]
    obtain ⟨r', hprice, hoffer⟩ := GraphChannel.price_spec hde amount timeLock currentNode srcNode
    rw [hpe] at hoffer
    simp only [Option.bind_eq_bind, Option.bind_some]
    rw [hprice]
    cases r' with
    | none => exact ⟨cheapest, rfl, h⟩
    | some weight =>
      obtain ⟨henabled, hcapacity, htime⟩ := hoffer weight rfl
      simp only [Option.bind_some]
      refine ⟨_, rfl, ?_⟩
      split_ifs
      · intro e' he'
        cases he'
        exact ⟨policy, ⟨edge, dir, hc, hj, hd, hp, heq⟩, henabled, hcapacity, htime⟩
      · exact h

theorem findCheapestEdge_spec {candidateMap : Fin n → Option (PaymentPath n)} {currentNode : Fin n}
    {p : PaymentPath n} (hp : candidateMap currentNode = some p) (maxTimeLock : UInt16)
    (toNode srcNode : Fin n) :
    ∃ r, sim.findCheapestEdge maxTimeLock currentNode toNode srcNode candidateMap = some r ∧
      sim.Found srcNode currentNode toNode p.aggAmt (maxTimeLock - p.aggTime) r.2 := by
  unfold findCheapestEdge
  rw [hp]
  dsimp only
  split_ifs
  · exact ⟨_, rfl, nofun⟩
  · exact exists_foldlM (fun _ _ he h => tryEdge_spec he h) nofun

/-- The search for an edge reads the candidate of the node visited alone. -/
theorem findCheapestEdge_congr {a b : Fin n → Option (PaymentPath n)} {currentNode : Fin n}
    (h : a currentNode = b currentNode) (maxTimeLock : UInt16) (toNode srcNode : Fin n) :
    sim.findCheapestEdge maxTimeLock currentNode toNode srcNode a =
      sim.findCheapestEdge maxTimeLock currentNode toNode srcNode b := by
  unfold findCheapestEdge
  rw [h]

end LightingNetworkSimulation

end LnConv.Payments
