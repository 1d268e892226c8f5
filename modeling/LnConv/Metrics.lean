import LnConv.Message
import LnConv.Reservoir

/-!
# Per-node metrics

The counters a node model owns, the buffers its `flush_summary` drains, and the
events that reach the aggregator. Counters are naturals: none comes near `2^64`.
-/

namespace LnConv

/-- A stamped first-seen tuple. -/
structure FirstSeenEntry where
  gossip : Gossip
  timeNs : Nat
  deriving DecidableEq, Repr

/-- A pending buffer of this length schedules an early flush. -/
def FIRST_SEEN_FORCE_FLUSH : Nat := 2048

/-- `ns_since_epoch`: nanoseconds, cut to 64 bits. -/
def nsSinceEpoch (t : Nat) : Nat := t % 2 ^ 64

structure OverflowEvent where
  timeNs : Nat
  receiverIdx : NodeIdx
  peerId : NodeId
  kind : SketchKind
  amount : Nat
  totalDiff : Nat
  deriving DecidableEq, Repr

structure KindCounters where
  intersection : Nat
  aOnly : Nat
  bOnly : Nat
  deriving DecidableEq, Repr

structure KindReservoirSamples where
  intersection : List Nat
  aOnly : List Nat
  bOnly : List Nat
  totalSeen : Nat
  deriving DecidableEq, Repr

/-- Running totals and the three per-round reservoirs of one kind. -/
structure SketchKindStats where
  intersection : Nat
  aOnly : Nat
  bOnly : Nat
  roundsIntersection : Reservoir Nat
  roundsAOnly : Reservoir Nat
  roundsBOnly : Reservoir Nat

namespace SketchKindStats

/-- Each reservoir has its own generator. -/
def withReservoirCapacity (cap : Nat) (rngI rngA rngB : Draws) : SketchKindStats :=
  ⟨0, 0, 0, .new cap rngI, .new cap rngA, .new cap rngB⟩

def default : SketchKindStats := withReservoirCapacity 0 .zero .zero .zero

/-- The bookkeeping of one handled sketch. -/
def observeRound (s : SketchKindStats) (intersection aOnly bOnly : Nat) : SketchKindStats :=
  { intersection := s.intersection + intersection
    aOnly := s.aOnly + aOnly
    bOnly := s.bOnly + bOnly
    roundsIntersection := s.roundsIntersection.observe (intersection % 2 ^ 32)
    roundsAOnly := s.roundsAOnly.observe (aOnly % 2 ^ 32)
    roundsBOnly := s.roundsBOnly.observe (bOnly % 2 ^ 32) }

def takeSamples (s : SketchKindStats) : SketchKindStats × KindReservoirSamples :=
  ({ s with
      roundsIntersection := .new 0 .zero
      roundsAOnly := .new 0 .zero
      roundsBOnly := .new 0 .zero },
    { intersection := s.roundsIntersection.buf
      aOnly := s.roundsAOnly.buf
      bOnly := s.roundsBOnly.buf
      totalSeen := s.roundsIntersection.seen })

def counters (s : SketchKindStats) : KindCounters := ⟨s.intersection, s.aOnly, s.bOnly⟩

end SketchKindStats

structure NodeCounters where
  bytesInSketch : Nat
  bytesOutSketch : Nat
  bytesInGossip : Nat
  bytesOutGossip : Nat
  bytesInInventory : Nat
  bytesOutInventory : Nat
  duplicates : Nat
  duplicatesBytes : Nat
  sketchesSent : Nat
  sketchesReceived : Nat
  inventoriesSent : Nat
  inventoriesReceived : Nat
  overflowedChanUpdates : Nat
  overflowedNodeAnns : Nat
  overflowedChanAnns : Nat
  chanUpdates : KindCounters
  nodeAnns : KindCounters
  chanAnns : KindCounters
  deriving DecidableEq, Repr

structure PerNodeMetrics where
  bytesInSketch : Nat := 0
  bytesOutSketch : Nat := 0
  bytesInGossip : Nat := 0
  bytesOutGossip : Nat := 0
  bytesInInventory : Nat := 0
  bytesOutInventory : Nat := 0
  duplicates : Nat := 0
  duplicatesBytes : Nat := 0
  sketchesSent : Nat := 0
  sketchesReceived : Nat := 0
  inventoriesSent : Nat := 0
  inventoriesReceived : Nat := 0
  overflowedChanUpdates : Nat := 0
  overflowedNodeAnns : Nat := 0
  overflowedChanAnns : Nat := 0
  chanUpdatesStats : SketchKindStats := .default
  nodeAnnsStats : SketchKindStats := .default
  chanAnnsStats : SketchKindStats := .default
  overflowEvents : List OverflowEvent := []
  firstSeenPending : List FirstSeenEntry := []

namespace PerNodeMetrics

/-- `rngs kind i` is the generator of reservoir `i` (intersection, a-only, b-only). -/
def withSketchReservoirs (cap : Nat) (rngs : SketchKind → Nat → Draws) : PerNodeMetrics :=
  let stats (k : SketchKind) :=
    SketchKindStats.withReservoirCapacity cap (rngs k 0) (rngs k 1) (rngs k 2)
  { chanUpdatesStats := stats .chanUpdates
    nodeAnnsStats := stats .nodeAnns
    chanAnnsStats := stats .chanAnns }

def snapshotCounters (m : PerNodeMetrics) : NodeCounters :=
  { bytesInSketch := m.bytesInSketch
    bytesOutSketch := m.bytesOutSketch
    bytesInGossip := m.bytesInGossip
    bytesOutGossip := m.bytesOutGossip
    bytesInInventory := m.bytesInInventory
    bytesOutInventory := m.bytesOutInventory
    duplicates := m.duplicates
    duplicatesBytes := m.duplicatesBytes
    sketchesSent := m.sketchesSent
    sketchesReceived := m.sketchesReceived
    inventoriesSent := m.inventoriesSent
    inventoriesReceived := m.inventoriesReceived
    overflowedChanUpdates := m.overflowedChanUpdates
    overflowedNodeAnns := m.overflowedNodeAnns
    overflowedChanAnns := m.overflowedChanAnns
    chanUpdates := m.chanUpdatesStats.counters
    nodeAnns := m.nodeAnnsStats.counters
    chanAnns := m.chanAnnsStats.counters }

def statsOf (m : PerNodeMetrics) : SketchKind → SketchKindStats
  | .chanUpdates => m.chanUpdatesStats
  | .nodeAnns => m.nodeAnnsStats
  | .chanAnns => m.chanAnnsStats

def setStats (m : PerNodeMetrics) (kind : SketchKind) (s : SketchKindStats) : PerNodeMetrics :=
  match kind with
  | .chanUpdates => { m with chanUpdatesStats := s }
  | .nodeAnns => { m with nodeAnnsStats := s }
  | .chanAnns => { m with chanAnnsStats := s }

def takeReservoirs (m : PerNodeMetrics) :
    PerNodeMetrics × KindReservoirSamples × KindReservoirSamples × KindReservoirSamples :=
  ({ m with
      chanUpdatesStats := m.chanUpdatesStats.takeSamples.1
      nodeAnnsStats := m.nodeAnnsStats.takeSamples.1
      chanAnnsStats := m.chanAnnsStats.takeSamples.1 },
    m.chanUpdatesStats.takeSamples.2, m.nodeAnnsStats.takeSamples.2, m.chanAnnsStats.takeSamples.2)

end PerNodeMetrics

/-- What reaches the aggregator's event queue. -/
inductive MetricsEvent where
  | firstSeenBatch (idx : NodeIdx) (entries : List FirstSeenEntry)
  | nodeCountersDelta (idx : NodeIdx) (timeNs : Nat) (counters : NodeCounters)
      (drainedOverflow : List OverflowEvent)
  | nodeReservoirDump (idx : NodeIdx) (chanUpdates nodeAnns chanAnns : KindReservoirSamples)
  | finalizeAndShutdown

/-- An empty batch is not sent. -/
def sendFirstSeenBatch (idx : NodeIdx) (entries : List FirstSeenEntry) : List MetricsEvent :=
  if entries.isEmpty then [] else [.firstSeenBatch idx entries]

end LnConv
