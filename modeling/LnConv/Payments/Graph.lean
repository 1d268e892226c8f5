import LnConv.Lnsim.Sim

/-!
# The channel graph

The channels that payments are routed over, and the policies of a node's updates that stand in
for those of the graph. A node is the index of its `GraphNode`. A getter of a channel is `none`
where the source panics: on a node that is not an endpoint.
-/

namespace LnConv.Payments

open Netsim

/-- The fees are finite floats. -/
structure ChannelPolicy where
  timeLockDelta : UInt16
  minHtlc : String
  maxHtlcMsat : String
  feeBaseMsat : Rat
  feeRateMilliMsat : Rat
  disabled : Bool
  lastUpdate : UInt64

/-- The conversion of a float drops its fraction. Go leaves open what it does out of range. -/
def uint64 (x : Rat) : UInt64 := .ofNat x.floor.toNat

def ChannelPolicy.getFee (cp : ChannelPolicy) (amt : UInt64) : UInt64 :=
  let base := uint64 cp.feeBaseMsat
  let rate := uint64 cp.feeRateMilliMsat
  base + rate * amt / 1000

structure GraphChannel (n : Nat) extends Lnsim.GraphChannel n where
  channelID : Nat
  node1Policy : ChannelPolicy
  node2Policy : ChannelPolicy
  node1Balance : UInt64
  node2Balance : UInt64
  capacity : UInt64
  newChannel : Bool

namespace GraphChannel

variable {n : Nat} (c : GraphChannel n)

/-- The value of the first endpoint or that of the second. -/
def byEndpoint {α : Type} (v : Fin n) (a b : α) : Option α :=
  if v = c.node1 then some a else if v = c.node2 then some b else none

def isDisabled (v : Fin n) : Option Bool :=
  c.byEndpoint v c.node1Policy.disabled c.node2Policy.disabled

def getBalance (v : Fin n) : Option UInt64 := c.byEndpoint v c.node1Balance c.node2Balance

/-- The policy of the outgoing direction. -/
def getPolicy (v : Fin n) : Option ChannelPolicy := c.byEndpoint v c.node1Policy c.node2Policy

def getTimeLockDelta (v : Fin n) : Option UInt16 :=
  c.byEndpoint v c.node1Policy.timeLockDelta c.node2Policy.timeLockDelta

def getFee (amt : UInt64) (v : Fin n) : Option UInt64 :=
  let fees := c.byEndpoint v
    (uint64 c.node1Policy.feeBaseMsat, uint64 c.node1Policy.feeRateMilliMsat)
    (uint64 c.node2Policy.feeBaseMsat, uint64 c.node2Policy.feeRateMilliMsat)
  fees.map fun (base, rate) => base + amt * rate / 1000

def getDirection (v : Fin n) : Option (Fin 2) := c.byEndpoint v 0 1

def getPolicyByDir (dir : Fin 2) : ChannelPolicy := if dir = 0 then c.node1Policy else c.node2Policy

/-- The copy of a channel with the policy of a direction replaced. -/
def updatePolicy (dir : Fin 2) (newPolicy : ChannelPolicy) : GraphChannel n :=
  if dir = 0 then { c with node1Policy := newPolicy } else { c with node2Policy := newPolicy }

/-- The endpoint whose direction it is. -/
def nodeOf (dir : Fin 2) : Fin n := if dir = 0 then c.node1 else c.node2

def Joins (v w : Fin n) : Prop := c.node1 = v ∧ c.node2 = w ∨ c.node1 = w ∧ c.node2 = v

instance (v w : Fin n) : Decidable (c.Joins v w) := inferInstanceAs (Decidable (_ ∨ _))

variable {c} {v w : Fin n} {dir : Fin 2}

theorem Joins.symm (h : c.Joins v w) : c.Joins w v := Or.symm h

theorem Joins.ne (h : c.Joins v w) : v ≠ w := by
  rcases h with ⟨rfl, rfl⟩ | ⟨rfl, rfl⟩
  · exact c.ne
  · exact c.ne.symm

theorem byEndpoint_eq (h : c.getDirection v = some dir) {α : Type} (a b : α) :
    c.byEndpoint v a b = some (if dir = 0 then a else b) := by
  unfold getDirection byEndpoint at h
  unfold byEndpoint
  split_ifs at h with h₁ h₂
  · cases h
    rw [if_pos h₁, if_pos rfl]
  · cases h
    rw [if_neg h₁, if_pos h₂, if_neg (by decide)]

theorem map_byEndpoint {α β : Type} (f : α → β) (a b : α) :
    (c.byEndpoint v a b).map f = c.byEndpoint v (f a) (f b) := by
  unfold byEndpoint
  split_ifs <;> rfl

theorem nodeOf_eq (h : c.getDirection v = some dir) : c.nodeOf dir = v := by
  unfold getDirection byEndpoint at h
  split_ifs at h with h₁ h₂
  · cases h
    exact h₁.symm
  · cases h
    exact h₂.symm

theorem Joins.direction (h : c.Joins v w) : ∃ dir, c.getDirection v = some dir := by
  unfold getDirection byEndpoint
  rcases h with ⟨rfl, -⟩ | ⟨-, rfl⟩
  · exact ⟨0, if_pos rfl⟩
  · rw [if_neg c.ne.symm]
    exact ⟨1, if_pos rfl⟩

/-- From one endpoint, the other one is next. -/
theorem Joins.next (h : c.Joins v w) {α : Type} (a b : α) :
    ∃ x, c.byEndpoint v (a, c.node2) (b, c.node1) = some (x, w) := by
  unfold byEndpoint
  rcases h with ⟨rfl, rfl⟩ | ⟨rfl, rfl⟩
  · rw [if_pos rfl]
    exact ⟨a, rfl⟩
  · rw [if_neg c.ne.symm, if_pos rfl]
    exact ⟨b, rfl⟩

theorem getPolicy_eq (h : c.getDirection v = some dir) :
    c.getPolicy v = some (c.getPolicyByDir dir) := byEndpoint_eq h _ _

theorem isDisabled_eq (h : c.getDirection v = some dir) :
    c.isDisabled v = some (c.getPolicyByDir dir).disabled := by
  rw [isDisabled, byEndpoint_eq h, getPolicyByDir, apply_ite ChannelPolicy.disabled]

theorem getTimeLockDelta_eq (h : c.getDirection v = some dir) :
    c.getTimeLockDelta v = some (c.getPolicyByDir dir).timeLockDelta := by
  rw [getTimeLockDelta, byEndpoint_eq h, getPolicyByDir, apply_ite ChannelPolicy.timeLockDelta]

/-- A channel's fee is that of the policy. -/
theorem getFee_eq (h : c.getDirection v = some dir) (amt : UInt64) :
    c.getFee amt v = some ((c.getPolicyByDir dir).getFee amt) := by
  unfold getFee ChannelPolicy.getFee getPolicyByDir
  dsimp only
  rw [byEndpoint_eq h, Option.map_some, UInt64.mul_comm amt]
  split_ifs <;> rfl

@[simp] theorem getPolicyByDir_updatePolicy (p : ChannelPolicy) :
    (c.updatePolicy dir p).getPolicyByDir dir = p := by
  unfold updatePolicy getPolicyByDir
  split_ifs <;> rfl

@[simp] theorem updatePolicy_self : c.updatePolicy dir (c.getPolicyByDir dir) = c := by
  unfold updatePolicy getPolicyByDir
  split_ifs <;> rfl

theorem updatePolicy_toGraphChannel (p : ChannelPolicy) :
    (c.updatePolicy dir p).toGraphChannel = c.toGraphChannel := by
  unfold updatePolicy
  split_ifs <;> rfl

@[simp] theorem updatePolicy_channelID (p : ChannelPolicy) :
    (c.updatePolicy dir p).channelID = c.channelID := by
  unfold updatePolicy
  split_ifs <;> rfl

@[simp] theorem getDirection_updatePolicy (dir' : Fin 2) (p : ChannelPolicy) :
    (c.updatePolicy dir' p).getDirection v = c.getDirection v := by
  unfold getDirection byEndpoint
  rw [updatePolicy_toGraphChannel]

@[simp] theorem joins_updatePolicy (p : ChannelPolicy) :
    (c.updatePolicy dir p).Joins v w ↔ c.Joins v w := by
  unfold Joins
  rw [updatePolicy_toGraphChannel]

end GraphChannel

/-- The entries of a node's `Neighbors` stand in the order in which the loop over the map meets
them; a search loops over the neighbors of a node once. -/
structure ChannelGraph (n : Nat) where
  channels : List (GraphChannel n)
  neighbors : Fin n → List (Fin n × List (GraphChannel n))
  nodup : ∀ v, ((neighbors v).map Prod.fst).Nodup
  joins : ∀ v, ∀ e ∈ neighbors v, ∀ c ∈ e.2, c.Joins v e.1
  channel : ∀ v, ∀ e ∈ neighbors v, ∀ c ∈ e.2, channels[c.channelID]? = some c

namespace ChannelGraph

variable {n : Nat} (g : ChannelGraph n)

/-- The channels between two nodes, none where the map has no entry. -/
def between (v w : Fin n) : List (GraphChannel n) := ((g.neighbors v).lookup w).getD []

variable {g} {v w : Fin n} {c : GraphChannel n}

theorem mem_neighbors_of_mem_between (h : c ∈ g.between v w) :
    ∃ cs, (w, cs) ∈ g.neighbors v ∧ c ∈ cs := by
  unfold between at h
  cases hl : (g.neighbors v).lookup w with
  | none =>
    rw [hl] at h
    cases h
  | some cs =>
    rw [hl] at h
    obtain ⟨l, r, hlr, -⟩ := List.lookup_eq_some_iff.1 hl
    exact ⟨cs, hlr ▸ List.mem_append_right _ List.mem_cons_self, h⟩

theorem joins_of_mem_between (h : c ∈ g.between v w) : c.Joins v w := by
  obtain ⟨cs, hcs, hc⟩ := mem_neighbors_of_mem_between h
  exact g.joins v _ hcs c hc

theorem channel_of_mem_between (h : c ∈ g.between v w) : g.channels[c.channelID]? = some c := by
  obtain ⟨cs, hcs, hc⟩ := mem_neighbors_of_mem_between h
  exact g.channel v _ hcs c hc

theorem length_neighbors_le (v : Fin n) : (g.neighbors v).length ≤ n := by
  have h := (g.nodup v).length_le_card
  rwa [List.length_map, Fintype.card_fin] at h

/-- The graph that `New` builds, where a channel is filed with both of its nodes. -/
def ofChannels (channels : List (GraphChannel n))
    (h : ∀ c ∈ channels, channels[c.channelID]? = some c) : ChannelGraph n where
  channels := channels
  neighbors v := ((List.finRange n).map fun w => (w, channels.filter fun c => c.Joins v w)).filter
    fun e => !e.2.isEmpty
  nodup v := by
    refine List.Nodup.sublist (List.filter_sublist.map Prod.fst) ?_
    rw [List.map_map, show Prod.fst ∘ (fun w => (w, _)) = id from rfl, List.map_id]
    exact List.nodup_finRange n
  joins v e he c hc := by
    obtain ⟨w, -, rfl⟩ := List.mem_map.1 (List.mem_of_mem_filter he)
    exact of_decide_eq_true (List.mem_filter.1 hc).2
  channel v e he c hc := by
    obtain ⟨w, -, rfl⟩ := List.mem_map.1 (List.mem_of_mem_filter he)
    exact h c (List.mem_of_mem_filter hc)

end ChannelGraph

/-- What payments read of the simulation. An update that a node has stored for a channel and a
direction comes from the channel's node of that direction. -/
structure LightingNetworkSimulation (n k : Nat) where
  g : ChannelGraph n
  nodes : Fin n → Lnsim.LightningNode n k
  messages : Fin k → Lnsim.Gossip n
  policy : Fin k → ChannelPolicy
  origin : ∀ v (c : GraphChannel n) dir m, g.channels[c.channelID]? = some c →
    (nodes v).latest c.channelID dir = some m → (messages m).origin = some (c.nodeOf dir)

namespace LightingNetworkSimulation

variable {n k : Nat} (sim : LightingNetworkSimulation n k)

/-- `none` is an index out of range. -/
def getPolicyFromNodeOrGraph (channelID : Nat) (dir : Fin 2) (node : Fin n) : Option ChannelPolicy :=
  match (sim.nodes node).seenByChannel channelID with
  | none => sim.g.channels[channelID]?.map (·.getPolicyByDir dir)
  | some updates =>
    match updates dir with
    | some m => some (sim.policy m)
    | none => sim.g.channels[channelID]?.map (·.getPolicyByDir dir)

theorem getPolicyFromNodeOrGraph_eq (channelID : Nat) (dir : Fin 2) (node : Fin n) :
    sim.getPolicyFromNodeOrGraph channelID dir node =
      match (sim.nodes node).latest channelID dir with
      | some m => some (sim.policy m)
      | none => sim.g.channels[channelID]?.map (·.getPolicyByDir dir) := by
  unfold getPolicyFromNodeOrGraph Lnsim.LightningNode.latest
  cases (sim.nodes node).seenByChannel channelID with
  | none => rfl
  | some updates => rfl

end LightingNetworkSimulation

end LnConv.Payments
