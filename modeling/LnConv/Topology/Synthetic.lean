import LnConv.Events.Capacity
import LnConv.Topology.Graph
import Mathlib.Data.Finset.Sym

/-!
# Building the peer graph

Every vertex picks its peers from its channel counterparties and, where these are few, from
strangers. All draws come from one generator. Where the source iterates over a hash set, the
order is that of a parameter. `none` is a panic, or a rejection loop that ran out of fuel.
-/

namespace LnConv.Graph

/-- A place where a hash set is iterated over, and the vertex it is iterated over for. -/
inductive Site where
  | counterparties (nx : Nat)
  | strangers (nx : Nat)
  | replacements (nx : Nat)
  deriving DecidableEq

/-- The iteration order of each hash set, some permutation of it. -/
structure HashOrder where
  iter : Site → Finset Nat → List Nat
  nodup : ∀ site s, (iter site s).Nodup
  toFinset : ∀ site s, (iter site s).toFinset = s

/-- `index::sample`: `amount` distinct positions below `len`. -/
class IndexSample where
  sample : Rng → Nat → Nat → List Nat × Rng
  nodup : ∀ rng len amount, (sample rng len amount).1.Nodup
  lt : ∀ rng len amount, ∀ i ∈ (sample rng len amount).1, i < len
  length : ∀ rng len amount, (sample rng len amount).1.length = min amount len
  outcome : ∀ rng len amount, (sample rng len amount).2.outcome = rng.outcome

/-- `choose_multiple`: the elements at the positions drawn. -/
def chooseMultiple [IndexSample] (xs : List Nat) (rng : Rng) (amount : Nat) : List Nat × Rng :=
  ((IndexSample.sample rng xs.length amount).1.filterMap (xs[·]?),
    (IndexSample.sample rng xs.length amount).2)

structure NodePicks where
  keptCounterparties : List Nat
  strangers : List Nat
  isHub : Bool

structure PeerBuildStats where
  hubRejectedEdges : Nat
  replacementsAdded : Nat
  deriving DecidableEq

namespace Topology

variable {A : Type}

/-- The distinct neighbours in the channel graph. -/
def counterparties (t : Topology A) (nx : Nat) : Finset Nat :=
  ((t.channels.filter (·.source = nx)).map ChannelEdge.target ++
    (t.channels.filter (·.target = nx)).map ChannelEdge.source).toFinset.erase nx

def containsEdge (t : Topology A) (nx ny : Nat) : Bool :=
  (nx, ny) ∈ t.peerEdges || (ny, nx) ∈ t.peerEdges

def addEdge (t : Topology A) (nx ny : Nat) : Topology A :=
  { t with peerEdges := t.peerEdges ++ [(nx, ny)] }

def neighbors (t : Topology A) (nx : Nat) : Finset Nat :=
  ((t.peerEdges.filter (·.1 = nx)).map Prod.snd ++
    (t.peerEdges.filter (·.2 = nx)).map Prod.fst).toFinset

end Topology

/-! ## Phase 1: picks -/

/-- The loop of `pick_strangers`. -/
def pickLoop (n : Nat) (excluded : Finset Nat) (target : Nat) :
    Nat → Finset Nat → Rng → Option (Finset Nat × Rng)
  | 0, picked, rng => if picked.card < target then none else some (picked, rng)
  | fuel + 1, picked, rng =>
    if picked.card < target then do
      let (candidate, rng) ← rng.randomRange n
      if candidate ∈ excluded ∨ candidate ∈ picked then pickLoop n excluded target fuel picked rng
      else pickLoop n excluded target fuel (insert candidate picked) rng
    else some (picked, rng)

/-- The pool is all the vertices, so a position is its own candidate. -/
def pickStrangers (fuel : Nat) (o : HashOrder) (site : Site) (n : Nat) (excluded : Finset Nat)
    (count : Nat) (rng : Rng) : Option (List Nat × Rng) := do
  let available := n - excluded.card
  let target := min count available
  let (picked, rng) ← pickLoop n excluded target fuel ∅ rng
  some (o.iter site picked, rng)

section Build

variable [IndexSample] {A : Type} (fuel : Nat) (o : HashOrder) (t : Topology A)
  (kFor maxPeerFor : A → Nat)

/-- Half of what is missing, rounded up. -/
def strangerCount (isHub : Bool) (k c : Nat) : Nat :=
  if isHub then 0 else if c ≥ k then 0 else (k - c + 1) / 2

/-- The loop body of phase 1. -/
def pickNode (nx : Nat) (rng : Rng) : Option (NodePicks × Rng) :=
  t.nodes[nx]?.bind fun node =>
    let k := kFor node.algo
    let maxPeer := maxPeerFor node.algo
    let counterparties := t.counterparties nx
    let counterpartiesVec := o.iter (.counterparties nx) counterparties
    let c := counterpartiesVec.length
    let isHub := decide (c > maxPeer)
    let kept := if isHub then chooseMultiple counterpartiesVec rng maxPeer else (counterpartiesVec, rng)
    let count := strangerCount isHub k c
    let strangers :=
      if count > 0 then
        pickStrangers fuel o (.strangers nx) t.nodes.length (insert nx counterparties) count kept.2
      else some ([], kept.2)
    strangers.map fun r => (⟨kept.1, r.1, isHub⟩, r.2)

def pickNodes (n : Nat) (rng : Rng) : Option (List NodePicks × Rng) :=
  (List.range n).foldlM
    (fun s nx => (pickNode fuel o t kFor maxPeerFor nx s.2).map fun r => (s.1 ++ [r.1], r.2)) ([], rng)

end Build

/-! ## Phase 2: edges -/

/-- `None` for a vertex that is no hub; empty when the cap is off. -/
def hubKeptOf (enforceHubCap : Bool) (picks : List NodePicks) : List (Option (Finset Nat)) :=
  if enforceHubCap then
    picks.map fun p => if p.isHub then some p.keptCounterparties.toFinset else none
  else []

/-- Every destination is a vertex, so the index is never out of range. -/
def edgeAllowed (enforceHubCap : Bool) (hubKept : List (Option (Finset Nat))) (src dst : Nat) : Bool :=
  if !enforceHubCap then true
  else match hubKept[dst]?.join with
    | some kept => src ∈ kept
    | none => true

/-- What phase 2 builds up. -/
structure Building (A : Type) where
  topology : Topology A
  droppedPerNode : List Nat
  stats : PeerBuildStats

section Edges

variable {A : Type} (enforceHubCap : Bool) (hubKept : List (Option (Finset Nat)))

def addPick (nx : Nat) (b : Building A) (ny : Nat) : Building A :=
  if !edgeAllowed enforceHubCap hubKept nx ny then
    { b with
      droppedPerNode := b.droppedPerNode.modify nx (· + 1)
      stats := { b.stats with hubRejectedEdges := b.stats.hubRejectedEdges + 1 } }
  else if !b.topology.containsEdge nx ny then { b with topology := b.topology.addEdge nx ny }
  else b

def addPicks (picks : List NodePicks) (b : Building A) : Building A :=
  picks.zipIdx.foldl (fun b p =>
    (p.1.keptCounterparties ++ p.1.strangers).foldl (addPick enforceHubCap hubKept p.2) b) b

/-! ## Phase 3: replacements -/

/-- The hubs that would reject the vertex. -/
def rejecting (nx : Nat) : Finset Nat :=
  (Finset.range hubKept.length).filter fun i => hubKept[i]?.join.any (nx ∉ ·)

def addReplacement (nx : Nat) (s : Topology A × PeerBuildStats) (ny : Nat) :
    Topology A × PeerBuildStats :=
  if !s.1.containsEdge nx ny then
    (s.1.addEdge nx ny, { s.2 with replacementsAdded := s.2.replacementsAdded + 1 })
  else s

/-- The loop body of phase 3. -/
def replaceFor (fuel : Nat) (o : HashOrder) (n : Nat) (s : (Topology A × PeerBuildStats) × Rng)
    (x : Nat × Nat) : Option ((Topology A × PeerBuildStats) × Rng) :=
  if x.1 = 0 then some s
  else do
    let excluded := insert x.2 (s.1.1.neighbors x.2) ∪ rejecting hubKept x.2
    let (picked, rng) ← pickStrangers fuel o (.replacements x.2) n excluded x.1 s.2
    some (picked.foldl (addReplacement x.2) s.1, rng)

end Edges

/-- The generator is seeded by the caller. -/
def buildPeerGraph [IndexSample] {A : Type} (fuel : Nat) (o : HashOrder) (t : Topology A)
    (kFor maxPeerFor : A → Nat) (rng : Rng) (enforceHubCap : Bool) :
    Option (Topology A × PeerBuildStats) :=
  let n := t.nodes.length
  if n < 2 then some (t, ⟨0, 0⟩)
  else do
    let (picks, rng) ← pickNodes fuel o t kFor maxPeerFor n rng
    let hubKept := hubKeptOf enforceHubCap picks
    let b := addPicks enforceHubCap hubKept picks ⟨t, List.replicate n 0, ⟨0, 0⟩⟩
    if enforceHubCap then
      (b.droppedPerNode.zipIdx.foldlM (replaceFor hubKept fuel o n) ((b.topology, b.stats), rng)).map
        Prod.fst
    else some (b.topology, b.stats)

end LnConv.Graph
