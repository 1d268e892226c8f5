import LnConv.Metrics
import LnConv.State
import Mathlib.Data.List.FinRange
import Mathlib.Data.List.Sort

/-!
# The metrics aggregator

One thread takes the metrics events off the queue. For every message it keeps the
time each node first saw it until all nodes have, a newer version of the same channel
key supersedes it, or the run ends; then it emits one row. The order of a list that
stands for a hash set or map is the order it happens to iterate; `none` is a panic.
-/

namespace LnConv

/-- The slot of a node that has not seen the message. -/
def NOT_SEEN : Nat := 2 ^ 64 - 1

/-- `pct_to_index` is arithmetic on `f64`: any function of a percentile and a count. -/
class PctIndex (P : Type) where
  pctToIndex : P → Nat → Nat

/-- Whole percents: `pct_to_index` without the floats. -/
structure Percent where
  value : Nat
  deriving DecidableEq, Repr

instance : PctIndex Percent where
  pctToIndex p n := min ((min p.value 100 * n + 99) / 100 - 1) (n - 1)

abbrev IntSet := List Nat

def IntSet.insert (s : IntSet) (x : Nat) : IntSet := if x ∈ s then s else s ++ [x]

structure MsgInflight (n : Nat) where
  times : Fin n → Nat
  coverage : Nat
  originNs : Nat
  sizeBytes : Nat

def MsgInflight.new (n firstNs sizeBytes : Nat) : MsgInflight n :=
  { times := fun _ => NOT_SEEN, coverage := 0, originNs := firstNs, sizeBytes := sizeBytes }

/-- A node that has not seen the message sees it. -/
def MsgInflight.see {n : Nat} (m : MsgInflight n) (node : Fin n) (ns : Nat) : MsgInflight n :=
  { m with
    times := Function.update m.times node ns
    originNs := if ns < m.originNs then ns else m.originNs
    coverage := m.coverage + 1 }

structure MsgStats (P : Type) where
  id : MsgId
  coverage : Nat
  nNodes : Nat
  originNs : Nat
  lastNs : Nat
  sizeBytes : Nat
  percentiles : List (P × Option Nat)

/-- The entry of one percentile; `none` is the panic of an index out of range. -/
def percentileEntry {P : Type} [PctIndex P] (n coverage originNs : Nat) (sorted : List Nat) (p : P) :
    Option (P × Option Nat) :=
  let idx := PctIndex.pctToIndex p n
  if idx < coverage then (sorted[idx]?).map fun t => (p, some (t - originNs))
  else some (p, none)

/-- The times that are filled in, in increasing order. -/
def MsgInflight.sorted {n : Nat} (m : MsgInflight n) : List Nat :=
  (((List.finRange n).map m.times).filter (· ≠ NOT_SEEN)).insertionSort (· ≤ ·)

def finalizeMsg {P : Type} [PctIndex P] {n : Nat} (id : MsgId) (m : MsgInflight n)
    (percentiles : List P) : Option (MsgStats P) := do
  let pcts ← percentiles.mapM (percentileEntry n m.coverage m.originNs m.sorted)
  some { id := id, coverage := m.coverage, nNodes := n, originNs := m.originNs,
         lastNs := m.sorted.getLast?.getD m.originNs, sizeBytes := m.sizeBytes, percentiles := pcts }

/-- `mirror` holds the rows emitted so far. -/
structure AggregatorState (P : Type) (n : Nat) where
  percentiles : List P
  inFlight : IntMap (MsgInflight n) := ∅
  inflightByChannel : IntMap IntSet := ∅
  latestVersion : IntMap Nat := ∅
  finalized : IntSet := []
  supersededCount : Nat := 0
  finalizedCount : Nat := 0
  mirror : List (MsgStats P) := []

/-- The key of a channel update in the per-channel maps. -/
def Gossip.chanKey (g : Gossip) : Option Nat :=
  (g.scid.filter fun _ => g.kind = .channelUpdate).map fun s => packCuKey s g.direction

def removeFromChannel (byChannel : IntMap IntSet) (key : Option Nat) (id : MsgId) : IntMap IntSet :=
  match key with
  | some k =>
    match byChannel.lookup k with
    | some set => byChannel.insert k (set.erase id)
    | none => byChannel
  | none => byChannel

def insertToChannel (byChannel : IntMap IntSet) (key : Option Nat) (id : MsgId) : IntMap IntSet :=
  match key with
  | some k => byChannel.insert k (IntSet.insert ((byChannel.lookup k).getD []) id)
  | none => byChannel

namespace AggregatorState

variable {P : Type} [PctIndex P] {n : Nat}

def pushFinalized (s : AggregatorState P n) (stats : MsgStats P) : AggregatorState P n :=
  { s with finalizedCount := s.finalizedCount + 1, mirror := s.mirror ++ [stats] }

/-- Takes a message out of flight for good. -/
def finalize (s : AggregatorState P n) (id : MsgId) (m : MsgInflight n) :
    Option (AggregatorState P n) := do
  let stats ← finalizeMsg id m s.percentiles
  let s := s.pushFinalized stats
  some { s with inFlight := s.inFlight.erase id, finalized := s.finalized.insert id }

/-- The body of the loop over the drained ids. -/
def supersedeOld (id : MsgId) (s : AggregatorState P n) (oldId : MsgId) :
    Option (AggregatorState P n) :=
  if oldId = id then some s
  else match s.inFlight.lookup oldId with
    | some m => (s.finalize oldId m).map fun s => { s with supersededCount := s.supersededCount + 1 }
    | none => some s

/-- A version newer than all before it closes every other message of its key. -/
def supersede (s : AggregatorState P n) (key : Nat) (gossip : Gossip) :
    Option (AggregatorState P n) :=
  let doSupersede := (s.latestVersion.lookup key).all fun latest => gossip.timestamp > latest
  if doSupersede then
    let drained := (s.inflightByChannel.lookup key).getD []
    let byChannel :=
      if (s.inflightByChannel.lookup key).isSome then s.inflightByChannel.insert key []
      else s.inflightByChannel
    drained.foldlM (supersedeOld gossip.id)
      { s with latestVersion := s.latestVersion.insert key gossip.timestamp
               inflightByChannel := byChannel }
  else some s

/-- Fills the slot of a node, unless it was filled before. -/
def record (s : AggregatorState P n) (key : Option Nat) (node : Fin n) (gossip : Gossip) (ns : Nat) :
    Option (AggregatorState P n) :=
  let m := (s.inFlight.lookup gossip.id).getD (.new n ns gossip.sizeBytes)
  if m.times node ≠ NOT_SEEN then some s
  else
    let m := m.see node ns
    if m.coverage = n then do
      let s ← s.finalize gossip.id m
      some { s with inflightByChannel := removeFromChannel s.inflightByChannel key gossip.id }
    else
      some { s with
        inFlight := s.inFlight.insert gossip.id m
        inflightByChannel := insertToChannel s.inflightByChannel key gossip.id }

def handleOneFirstSeen (s : AggregatorState P n) (node : Fin n) (gossip : Gossip) (ns : Nat) :
    Option (AggregatorState P n) :=
  let chanKey := gossip.chanKey
  if gossip.id ∈ s.finalized then some s
  else do
    let s ← chanKey.elim (some s) fun key => s.supersede key gossip
    s.record chanKey node gossip ns

def handleFirstSeenBatch (s : AggregatorState P n) (node : Fin n) (entries : List FirstSeenEntry) :
    Option (AggregatorState P n) :=
  entries.foldlM (fun s e => s.handleOneFirstSeen node e.gossip e.timeNs) s

/-- The body of the loop over what is still in flight. -/
def finalizeDrained (s : AggregatorState P n) (e : Sigma fun _ : Nat => MsgInflight n) :
    Option (AggregatorState P n) :=
  if e.1 ∈ s.finalized then some s else s.finalize e.1 e.2

def finalizeRemaining (s : AggregatorState P n) : Option (AggregatorState P n) := do
  let s ← s.inFlight.entries.foldlM finalizeDrained { s with inFlight := ∅ }
  some { s with inflightByChannel := ∅ }

/-- The aggregator thread on a queue of first-seen batches and the final
`FinalizeAndShutdown`. -/
def aggregate (percentiles : List P) (batches : List (Fin n × List FirstSeenEntry)) :
    Option (AggregatorState P n) := do
  let s ← batches.foldlM (fun (s : AggregatorState P n) b => s.handleFirstSeenBatch b.1 b.2)
    { percentiles := percentiles }
  s.finalizeRemaining

end AggregatorState

/-! ## Reservoir rows -/

structure NodeReservoirRow where
  nodeIdx : NodeIdx
  kind : Nat
  intersection : Nat
  aOnly : Nat
  bOnly : Nat
  totalSeen : Nat
  deriving DecidableEq, Repr

/-- The rows of one kind: entry `i` of each of the three samples. -/
def reservoirRows (idx : NodeIdx) (kind : SketchKind) (s : KindReservoirSamples) :
    List NodeReservoirRow :=
  (s.intersection.zip (s.aOnly.zip s.bOnly)).map fun x =>
    { nodeIdx := idx, kind := kind.asU8, intersection := x.1, aOnly := x.2.1, bOnly := x.2.2,
      totalSeen := s.totalSeen }

/-- The rows written for a `NodeReservoirDump`. -/
def handleReservoirDump (idx : NodeIdx) (chanUpdates nodeAnns chanAnns : KindReservoirSamples) :
    List NodeReservoirRow :=
  reservoirRows idx .chanUpdates chanUpdates ++ (reservoirRows idx .nodeAnns nodeAnns ++
    reservoirRows idx .chanAnns chanAnns)

end LnConv
