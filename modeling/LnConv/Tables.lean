import LnConv.Aggregator
import LnConv.Lib.Loop
import LnConv.Tracker

/-!
# The tables of a run

The aggregator thread turns the events of the nodes into rows: one for each finished
message, flush, overflow and reservoir sample. Each kind of row has a file of its own,
written by a thread of its own, so a table is the list of its rows in the order they
are sent. Without a writer only the finished messages are kept.
-/

namespace LnConv

/-! ## Rows -/

structure NodeCountersRow where
  nodeIdx : NodeIdx
  timeNs : Nat
  bytesInSketch : Nat
  bytesOutSketch : Nat
  bytesInGossip : Nat
  bytesOutGossip : Nat
  bytesInInventory : Nat
  bytesOutInventory : Nat
  duplicates : Nat
  duplicatesBytes : Nat
  sketchesSent : Nat
  sketchesReceived : Nat
  inventoriesSent : Nat
  inventoriesReceived : Nat
  overflowedChanUpdates : Nat
  overflowedNodeAnns : Nat
  overflowedChanAnns : Nat
  chanUpdatesIntersection : Nat
  chanUpdatesAOnly : Nat
  chanUpdatesBOnly : Nat
  nodeAnnsIntersection : Nat
  nodeAnnsAOnly : Nat
  nodeAnnsBOnly : Nat
  chanAnnsIntersection : Nat
  chanAnnsAOnly : Nat
  chanAnnsBOnly : Nat
  deriving DecidableEq, Repr

def NodeCountersRow.fromCounters (nodeIdx : NodeIdx) (timeNs : Nat) (c : NodeCounters) :
    NodeCountersRow :=
  { nodeIdx := nodeIdx
    timeNs := timeNs
    bytesInSketch := c.bytesInSketch
    bytesOutSketch := c.bytesOutSketch
    bytesInGossip := c.bytesInGossip
    bytesOutGossip := c.bytesOutGossip
    bytesInInventory := c.bytesInInventory
    bytesOutInventory := c.bytesOutInventory
    duplicates := c.duplicates
    duplicatesBytes := c.duplicatesBytes
    sketchesSent := c.sketchesSent
    sketchesReceived := c.sketchesReceived
    inventoriesSent := c.inventoriesSent
    inventoriesReceived := c.inventoriesReceived
    overflowedChanUpdates := c.overflowedChanUpdates
    overflowedNodeAnns := c.overflowedNodeAnns
    overflowedChanAnns := c.overflowedChanAnns
    chanUpdatesIntersection := c.chanUpdates.intersection
    chanUpdatesAOnly := c.chanUpdates.aOnly
    chanUpdatesBOnly := c.chanUpdates.bOnly
    nodeAnnsIntersection := c.nodeAnns.intersection
    nodeAnnsAOnly := c.nodeAnns.aOnly
    nodeAnnsBOnly := c.nodeAnns.bOnly
    chanAnnsIntersection := c.chanAnns.intersection
    chanAnnsAOnly := c.chanAnns.aOnly
    chanAnnsBOnly := c.chanAnns.bOnly }

structure OverflowEventRow where
  timeNs : Nat
  receiverIdx : NodeIdx
  peerId : NodeId
  kind : Nat
  amount : Nat
  totalDiff : Nat
  deriving DecidableEq, Repr

def OverflowEventRow.fromEvent (e : OverflowEvent) : OverflowEventRow :=
  { timeNs := e.timeNs
    receiverIdx := e.receiverIdx
    peerId := e.peerId
    kind := e.kind.asU8
    amount := e.amount
    totalDiff := e.totalDiff }

/-! ## The thread -/

/-- The aggregator and the tables it writes, beside the rows of the finished messages. -/
structure AggregatorThread (P : Type) (n : Nat) where
  writer : Bool
  state : AggregatorState P n
  nodeCounters : List NodeCountersRow := []
  nodeReservoirs : List NodeReservoirRow := []
  overflowEvents : List OverflowEventRow := []

namespace AggregatorThread

variable {P : Type} [PctIndex P] {n : Nat}

/-- A batch of a node that has no slot panics at its first tuple that is still open. -/
def handleFirstSeenBatch (t : AggregatorThread P n) (idx : NodeIdx) (entries : List FirstSeenEntry) :
    Option (AggregatorThread P n) :=
  if h : idx < n then
    (t.state.handleFirstSeenBatch ⟨idx, h⟩ entries).map fun s => { t with state := s }
  else if entries.all fun e => decide (e.gossip.id ∈ t.state.finalized) then some t else none

def handleCountersDelta (t : AggregatorThread P n) (idx : NodeIdx) (timeNs : Nat)
    (counters : NodeCounters) (drainedOverflow : List OverflowEvent) : AggregatorThread P n :=
  if t.writer then
    { t with
      overflowEvents := t.overflowEvents ++ drainedOverflow.map .fromEvent
      nodeCounters := t.nodeCounters ++ [.fromCounters idx timeNs counters] }
  else t

def handleReservoirDump (t : AggregatorThread P n) (idx : NodeIdx)
    (chanUpdates nodeAnns chanAnns : KindReservoirSamples) : AggregatorThread P n :=
  if t.writer then
    { t with
      nodeReservoirs := t.nodeReservoirs ++
        LnConv.handleReservoirDump idx chanUpdates nodeAnns chanAnns }
  else t

def finalizeRemaining (t : AggregatorThread P n) : Option (AggregatorThread P n) :=
  t.state.finalizeRemaining.map fun s => { t with state := s }

/-- One event; the sentinel is the loop's. -/
def handle (t : AggregatorThread P n) : MetricsEvent → Option (AggregatorThread P n)
  | .firstSeenBatch idx entries => t.handleFirstSeenBatch idx entries
  | .nodeCountersDelta idx timeNs counters drained =>
    some (t.handleCountersDelta idx timeNs counters drained)
  | .nodeReservoirDump idx chanUpdates nodeAnns chanAnns =>
    some (t.handleReservoirDump idx chanUpdates nodeAnns chanAnns)
  | .finalizeAndShutdown => some t

/-- The loop of the thread: up to the sentinel, or until all senders are gone. -/
def loop (t : AggregatorThread P n) : List MetricsEvent → Option (AggregatorThread P n)
  | [] | .finalizeAndShutdown :: _ => t.finalizeRemaining
  | ev :: evs => (t.handle ev).bind fun t => t.loop evs

/-- What the thread leaves behind of the events it is sent. -/
def spawn (percentiles : List P) (writer : Bool) (evs : List MetricsEvent) :
    Option (AggregatorThread P n) :=
  loop { writer := writer, state := { percentiles := percentiles } } evs

end AggregatorThread

/-! ## What the events say -/

namespace MetricsEvent

def counterRow? : MetricsEvent → Option NodeCountersRow
  | nodeCountersDelta idx timeNs counters _ => some (.fromCounters idx timeNs counters)
  | _ => none

def drained : MetricsEvent → List OverflowEvent
  | nodeCountersDelta _ _ _ drained => drained
  | _ => []

def reservoirRows : MetricsEvent → List NodeReservoirRow
  | nodeReservoirDump idx chanUpdates nodeAnns chanAnns =>
    handleReservoirDump idx chanUpdates nodeAnns chanAnns
  | _ => []

def isShutdown : MetricsEvent → Bool
  | finalizeAndShutdown => true
  | _ => false

end MetricsEvent

def drainedOverflows (evs : List MetricsEvent) : List OverflowEvent := evs.flatMap MetricsEvent.drained

@[simp] theorem drainedOverflows_append (evs evs' : List MetricsEvent) :
    drainedOverflows (evs ++ evs') = drainedOverflows evs ++ drainedOverflows evs' :=
  List.flatMap_append

namespace AggregatorThread

variable {P : Type} [PctIndex P] {n : Nat} {t t' : AggregatorThread P n}

/-- The tables with the rows that the events add. -/
structure Adds (t t' : AggregatorThread P n) (evs : List MetricsEvent) : Prop where
  writer : t'.writer = t.writer
  nodeCounters : t'.nodeCounters = t.nodeCounters ++ evs.filterMap MetricsEvent.counterRow?
  nodeReservoirs : t'.nodeReservoirs = t.nodeReservoirs ++ evs.flatMap MetricsEvent.reservoirRows
  overflowEvents : t'.overflowEvents = t.overflowEvents ++
    (drainedOverflows evs).map OverflowEventRow.fromEvent

omit [PctIndex P] in
theorem Adds.append {t'' : AggregatorThread P n} {evs evs' : List MetricsEvent}
    (h : t.Adds t' evs) (h' : t'.Adds t'' evs') : t.Adds t'' (evs ++ evs') where
  writer := h'.writer.trans h.writer
  nodeCounters := by
    rw [h'.nodeCounters, h.nodeCounters, List.filterMap_append, List.append_assoc]
  nodeReservoirs := by
    rw [h'.nodeReservoirs, h.nodeReservoirs, List.flatMap_append, List.append_assoc]
  overflowEvents := by
    rw [h'.overflowEvents, h.overflowEvents, drainedOverflows_append, List.map_append,
      List.append_assoc]

omit [PctIndex P] in
/-- What only changes the aggregator adds no rows to the other tables. -/
theorem adds_state (s : AggregatorState P n) {ev : MetricsEvent} (hc : ev.counterRow? = none)
    (hr : ev.reservoirRows = []) (hd : ev.drained = []) : t.Adds { t with state := s } [ev] where
  writer := rfl
  nodeCounters := by simp [hc]
  nodeReservoirs := by simp [hr]
  overflowEvents := by simp [drainedOverflows, hd]

theorem handle_adds {ev : MetricsEvent} (hw : t.writer = true) (h : t.handle ev = some t') :
    t.Adds t' [ev] := by
  cases ev with
  | firstSeenBatch idx entries =>
    simp only [handle, handleFirstSeenBatch] at h
    split at h
    · obtain ⟨s, -, rfl⟩ := Option.map_eq_some_iff.1 h
      exact adds_state s rfl rfl rfl
    · split at h <;> cases h
      exact adds_state t.state rfl rfl rfl
  | nodeCountersDelta idx timeNs counters drained =>
    simp only [handle, handleCountersDelta, hw, if_true] at h
    cases h
    exact ⟨hw.symm, rfl, by simp [MetricsEvent.reservoirRows],
      by simp [drainedOverflows, MetricsEvent.drained]⟩
  | nodeReservoirDump idx chanUpdates nodeAnns chanAnns =>
    simp only [handle, handleReservoirDump, hw, if_true] at h
    cases h
    exact ⟨hw.symm, by simp [MetricsEvent.counterRow?], by simp [MetricsEvent.reservoirRows],
      by simp [drainedOverflows, MetricsEvent.drained]⟩
  | finalizeAndShutdown =>
    cases h
    exact adds_state t.state rfl rfl rfl

/-- With a writer the tables hold the rows of the events, in their order. -/
theorem handleAll_adds {evs : List MetricsEvent} (hw : t.writer = true)
    (h : evs.foldlM handle t = some t') : t.Adds t' evs := by
  induction evs generalizing t with
  | nil =>
    cases h
    exact ⟨rfl, by simp, by simp, by simp [drainedOverflows]⟩
  | cons ev evs ih =>
    rw [List.foldlM_cons] at h
    obtain ⟨t₁, h₁, h⟩ := Option.bind_eq_some_iff.1 h
    have hadd := handle_adds hw h₁
    exact hadd.append (ih (hadd.writer.trans hw) h)

/-- The loop handles what comes before the sentinel. -/
theorem loop_eq (t : AggregatorThread P n) (evs : List MetricsEvent) :
    t.loop evs = ((evs.takeWhile fun ev => !ev.isShutdown).foldlM handle t).bind
      finalizeRemaining := by
  induction evs generalizing t with
  | nil => rfl
  | cons ev evs ih =>
    cases ev with
    | finalizeAndShutdown => rfl
    | _ =>
      rw [List.takeWhile_cons_of_pos rfl, List.foldlM_cons]
      show (t.handle _).bind _ = Option.bind (Option.bind (t.handle _) _) _
      rw [Option.bind_assoc]
      exact congrArg _ (funext ih)

/-! ## What reaches the aggregator -/

/-- A batch of a node that has a slot. -/
def slotBatch? (n : Nat) : MetricsEvent → Option (Fin n × List FirstSeenEntry)
  | .firstSeenBatch idx entries => if h : idx < n then some (⟨idx, h⟩, entries) else none
  | _ => none

theorem handle_state {ev : MetricsEvent} (hev : ∀ idx entries, ev = .firstSeenBatch idx entries →
    idx < n) : (t.handle ev).map state = ((slotBatch? n ev).elim (some t.state) fun b =>
      t.state.handleFirstSeenBatch b.1 b.2) := by
  cases ev with
  | firstSeenBatch idx entries =>
    have hlt := hev idx entries rfl
    simp only [handle, handleFirstSeenBatch, dif_pos hlt, slotBatch?, Option.elim_some,
      Option.map_map]
    exact Option.map_id' ..
  | nodeCountersDelta idx timeNs counters drained =>
    simp only [handle, handleCountersDelta]
    split <;> rfl
  | nodeReservoirDump idx chanUpdates nodeAnns chanAnns =>
    simp only [handle, handleReservoirDump]
    split <;> rfl
  | finalizeAndShutdown => rfl

/-- The aggregator of the thread sees the batches only. -/
theorem handleAll_state {evs : List MetricsEvent} (hevs : ∀ idx entries,
    .firstSeenBatch idx entries ∈ evs → idx < n) : (evs.foldlM handle t).map state =
      (evs.filterMap (slotBatch? n)).foldlM
        (fun (s : AggregatorState P n) b => s.handleFirstSeenBatch b.1 b.2) t.state := by
  induction evs generalizing t with
  | nil => rfl
  | cons ev evs ih =>
    have hhead : (t.handle ev).map state = ((slotBatch? n ev).elim (some t.state) fun b =>
        t.state.handleFirstSeenBatch b.1 b.2) :=
      handle_state fun idx entries h => hevs idx entries (h ▸ List.mem_cons_self)
    have htail : ∀ t : AggregatorThread P n, (evs.foldlM handle t).map state = _ :=
      fun t => ih fun idx entries h => hevs idx entries (List.mem_cons_of_mem _ h)
    rw [List.foldlM_cons, List.filterMap_cons]
    cases h : t.handle ev with
    | none =>
      cases hb : slotBatch? n ev with
      | none =>
        rw [h, hb] at hhead
        cases hhead
      | some b =>
        rw [h, hb, Option.map_none, Option.elim_some] at hhead
        rw [List.foldlM_cons, ← hhead]
        rfl
    | some t' =>
      cases hb : slotBatch? n ev with
      | none =>
        rw [h, hb] at hhead
        rw [← Option.some.inj hhead]
        exact htail t'
      | some b =>
        rw [h, hb, Option.map_some, Option.elim_some] at hhead
        rw [List.foldlM_cons, ← hhead]
        exact htail t'

/-- With the sentinel after the events of the nodes, the thread aggregates their batches. -/
theorem spawn_state (ps : List P) (writer : Bool) {evs : List MetricsEvent}
    (hend : ∀ ev ∈ evs, ev.isShutdown = false)
    (hevs : ∀ idx entries, .firstSeenBatch idx entries ∈ evs → idx < n) :
    (spawn ps writer (evs ++ [.finalizeAndShutdown]) : Option (AggregatorThread P n)).map state =
      AggregatorState.aggregate ps (evs.filterMap (slotBatch? n)) := by
  have hwhile : (evs ++ [MetricsEvent.finalizeAndShutdown]).takeWhile
      (fun ev => !ev.isShutdown) = evs := by
    rw [List.takeWhile_append_of_pos fun ev hev => by rw [hend ev hev]; rfl]
    exact List.append_nil evs
  rw [spawn, loop_eq, hwhile, AggregatorState.aggregate]
  have hall := handleAll_state (t := { writer := writer, state := { percentiles := ps } }) hevs
  rw [← hall]
  cases evs.foldlM handle ({ writer := writer, state := { percentiles := ps } } :
      AggregatorThread P n) with
  | none => rfl
  | some t =>
    show (t.state.finalizeRemaining.map fun s => { t with state := s }).map state = _
    rw [Option.map_map]
    exact Option.map_id' ..

end AggregatorThread

end LnConv
