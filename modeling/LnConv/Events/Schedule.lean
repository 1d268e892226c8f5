import LnConv.Channels
import LnConv.Events.Reshape
import LnConv.Topology.LnData

/-!
# Event sources

A source builds the tuples (delay in ns, originator, message) that the run originates. The
message is unstamped: `originate` sets its id and timestamp. `none` is a panic.
-/

namespace LnConv

abbrev EventTuple := Nat × NodeId × Gossip

/-! ## Unstamped messages -/

def unstampedUpdate (scid : Scid) (direction : Direction) (sizeBytes : Nat) : Gossip :=
  ⟨0, none, .channelUpdate, sizeBytes, some scid, direction, 0⟩

def unstampedNodeAnn (origin : NodeId) (sizeBytes : Nat) : Gossip :=
  ⟨0, some origin, .nodeAnnouncement, sizeBytes, none, 0, 0⟩

def unstampedChanAnn (scid : Scid) (sizeBytes : Nat) : Gossip :=
  ⟨0, none, .channelAnnouncement, sizeBytes, some scid, 0, 0⟩

/-! ## One-shot sources -/

structure OneShotAll where
  time : Nat
  sizeBytes : Nat

/-- Nodes that own no channel side are skipped. -/
def OneShotAll.build (s : OneShotAll) (nodes : List NodeId) (registry : ChannelRegistry) :
    List EventTuple :=
  nodes.filterMap fun node => (registry.channelsFor node).head?.map fun x =>
    (s.time, node, unstampedUpdate x.1 x.2 s.sizeBytes)

structure OneShotSingle where
  node : Nat
  time : Nat
  sizeBytes : Nat

def OneShotSingle.build (s : OneShotSingle) (nodes : List NodeId) (registry : ChannelRegistry) :
    List EventTuple :=
  match nodes[s.node]? with
  | none => []
  | some nodeId => ((registry.channelsFor nodeId).head?.map fun x =>
      (s.time, nodeId, unstampedUpdate x.1 x.2 s.sizeBytes)).toList

/-! ## Rate-based source -/

/-- A channel side and its owner, drawn uniformly. -/
def ChannelRegistry.randomChannel (registry : ChannelRegistry) (rng : Rng) :
    Option ((Scid × Direction × NodeId) × Rng) := do
  let (idx, rng) ← rng.randomRange registry.scids.length
  let scid ← registry.scids[idx]?
  let (coin, rng) ← rng.randomRange 2
  let direction := if coin = 1 then 1 else 0
  let owner ← registry.owner scid direction
  some ((scid, direction, owner), rng)

/-- `arrivals max` are the accumulated exponential times up to the window, which the source
draws in floating point; `active` says that the rate is positive. -/
structure PoissonRandom where
  active : Bool
  arrivals : Nat → List Nat
  rng : Rng
  sizeBytes : Nat

/-- The loop body. -/
def PoissonRandom.draw (s : PoissonRandom) (registry : ChannelRegistry)
    (st : Rng × List EventTuple) (time : Nat) : Option (Rng × List EventTuple) := do
  let ((scid, direction, origin), rng) ← registry.randomChannel st.1
  some (rng, st.2 ++ [(time, origin, unstampedUpdate scid direction s.sizeBytes)])

def PoissonRandom.build (s : PoissonRandom) (nodes : List NodeId) (max : Nat)
    (registry : ChannelRegistry) : Option (List EventTuple) :=
  if !s.active || nodes.isEmpty || registry.isEmpty then some []
  else ((s.arrivals max).foldlM (s.draw registry) (s.rng, [])).map Prod.snd

/-! ## Replay -/

/-- A row of the replayed files; `none` is a null. -/
structure ReplayRow where
  firstSeenTimestamp : Option Int
  type : Option Int
  size : Option Int
  origNode : Option String
  scid : Option Nat

structure LoadStats where
  totalRows : Nat := 0
  clampedSize : Nat := 0
  badScidAtLoad : Nat := 0
  badPkAtLoad : Nat := 0
  unknownType : Nat := 0

structure Loading where
  events : List LogicalEvent := []
  rotor : IntMap Direction := ∅
  stats : LoadStats := {}
  anchorUs : Option Int := none

def TYPE_CHANNEL_ANN : Int := 1
def TYPE_NODE_ANN : Int := 2
def TYPE_CHANNEL_UPD : Int := 3

/-- The alternating direction of a SCID. -/
def rotorNext (rotor : IntMap Direction) (scid : Scid) : Direction × IntMap Direction :=
  let d := (rotor.lookup scid).getD 0
  (d, rotor.insert scid (d ^^^ 1))

/-- `saturating_sub` on 64-bit integers. -/
def saturatingSub (a b : Int) : Int := max (-2 ^ 63) (min (2 ^ 63 - 1) (a - b))

def clampSize (raw : Int) (stats : LoadStats) : Nat × LoadStats :=
  if raw ≤ 0 then (0, stats)
  else if raw > 65535 then (65535, { stats with clampedSize := stats.clampedSize + 1 })
  else (raw.toNat, stats)

structure ParquetReplay where
  /-- The record batches of all readable files, in order. -/
  batches : List (List ReplayRow)
  seed : Nat
  snapshotNodes : List NodeId
  rng : Rng
  fuel : Nat

namespace ParquetReplay

variable [IdHash] (s : ParquetReplay) (registry : ChannelRegistry)

def logicalEvent (delay : Nat) (known : Bool) (home : HomeEntity) (kind : LogicalKind)
    (sizeBytes : Nat) (origIdString : String) : LogicalEvent :=
  { delay := delay
    home := if known then home else .unknown
    kind := kind
    sizeBytes := sizeBytes
    origIdString := origIdString
    wasOrphan := !known
    wasDeferred := false
    wasReassigned := false }

/-- The event of a row; the rotor also ticks for a channel that is not known. -/
def loadEvent (l : Loading) (row : ReplayRow) (delay sizeBytes : Nat) : Loading :=
  let kindCode := row.type.getD 0
  if kindCode = TYPE_CHANNEL_UPD then
    match row.scid with
    | none => { l with stats := { l.stats with badScidAtLoad := l.stats.badScidAtLoad + 1 } }
    | some v =>
      let raw := toString v
      let scid := hashScidString s.seed raw
      let (direction, rotor) := rotorNext l.rotor scid
      { l with
        rotor := rotor
        events := l.events ++ [logicalEvent delay (registry.knowsScid scid) (.channel scid)
          (.channelUpdate direction) sizeBytes raw] }
  else if kindCode = TYPE_NODE_ANN then
    match row.origNode with
    | none => { l with stats := { l.stats with badPkAtLoad := l.stats.badPkAtLoad + 1 } }
    | some pk =>
      let originId := hashPubkey s.seed pk
      { l with
        events := l.events ++ [logicalEvent delay (s.snapshotNodes.contains originId)
          (.node originId) .nodeAnnouncement sizeBytes pk] }
  else if kindCode = TYPE_CHANNEL_ANN then
    match row.scid with
    | none => { l with stats := { l.stats with badScidAtLoad := l.stats.badScidAtLoad + 1 } }
    | some v =>
      let raw := toString v
      let scid := hashScidString s.seed raw
      { l with
        events := l.events ++ [logicalEvent delay (registry.knowsScid scid) (.channel scid)
          .channelAnnouncement sizeBytes raw] }
  else { l with stats := { l.stats with unknownType := l.stats.unknownType + 1 } }

/-- The rows of one batch; the flag says that a row beyond the window ended the load. -/
def loadRows (maxUs : Int) : List ReplayRow → Loading → Loading × Bool
  | [], l => (l, false)
  | row :: rows, l =>
    match row.firstSeenTimestamp with
    | none => loadRows maxUs rows l
    | some us =>
      let anchor := l.anchorUs.getD us
      let l := { l with anchorUs := some anchor }
      let delayUs := saturatingSub us anchor
      if delayUs > maxUs then (l, true)
      else
        -- a negative delay is cast to an unsigned one
        let delay := (delayUs % 2 ^ 64).toNat * 1000
        let (sizeBytes, stats) := clampSize (row.size.getD 0) l.stats
        loadRows maxUs rows (s.loadEvent registry { l with stats := stats } row delay sizeBytes)

def loadBatches (maxUs : Int) : List (List ReplayRow) → Loading → Loading
  | [], l => l
  | batch :: batches, l =>
    let stats := { l.stats with totalRows := l.stats.totalRows + batch.length }
    let (l, stopped) := s.loadRows registry maxUs batch { l with stats := stats }
    if stopped then l else loadBatches maxUs batches l

def loadLogical (max : Nat) : List LogicalEvent × LoadStats :=
  let l := s.loadBatches registry (min (max / 1000) (2 ^ 63 - 1)) s.batches {}
  (l.events, l.stats)

end ParquetReplay

/-- The tuples of one event: a channel announcement is sent by both ends. -/
def emitTuple (registry : ChannelRegistry) (ev : LogicalEvent) : Option (List EventTuple) :=
  match ev.kind, ev.home with
  | .nodeAnnouncement, .node origin =>
    some [(ev.delay, origin, unstampedNodeAnn origin ev.sizeBytes)]
  | .channelUpdate direction, .channel scid => do
    let originRoute ← registry.owner scid direction
    some [(ev.delay, originRoute, unstampedUpdate scid direction ev.sizeBytes)]
  | .channelAnnouncement, .channel scid =>
    [0, 1].mapM fun direction => (registry.owner scid direction).map fun originRoute =>
      (ev.delay, originRoute, unstampedChanAnn scid ev.sizeBytes)
  | _, _ => some []

def emitTuples (events : List LogicalEvent) (registry : ChannelRegistry) :
    Option (List EventTuple) :=
  (events.mapM (emitTuple registry)).map List.flatten

def ParquetReplay.build [IdHash] (s : ParquetReplay) (max : Nat) (registry : ChannelRegistry) :
    Option (List EventTuple) := do
  let (events, _) := s.loadLogical registry max
  let (events, _) ← reshape s.fuel events registry.scids s.snapshotNodes (numWindows max) max s.rng
  emitTuples events registry

/-! ## Schedules -/

inductive EventSource where
  | oneShotSingle (s : OneShotSingle)
  | oneShotAll (s : OneShotAll)
  | poissonRandom (s : PoissonRandom)
  | parquetReplay (s : ParquetReplay)

def EventSource.build [IdHash] (nodes : List NodeId) (max : Nat) (registry : ChannelRegistry) :
    EventSource → Option (List EventTuple)
  | oneShotSingle s => some (s.build nodes registry)
  | oneShotAll s => some (s.build nodes registry)
  | poissonRandom s => s.build nodes max registry
  | parquetReplay s => s.build max registry

/-- The tuples in the order of their delays. -/
def buildEvents [IdHash] (src : EventSource) (nodes : List NodeId) (max : Nat)
    (registry : ChannelRegistry) : Option (List EventTuple) :=
  (src.build nodes max registry).map fun tuples => tuples.mergeSort fun x y => x.1 ≤ y.1

/-- What a source may emit: an update of a channel side from a node that has the side, an
announcement of the node itself, or one of a channel from one of its ends. -/
inductive Sourced (registry : ChannelRegistry) : EventTuple → Prop where
  | listed {t : Nat} {v : NodeId} {x : Scid × Direction} {size : Nat} :
      x ∈ registry.channelsFor v → Sourced registry (t, v, unstampedUpdate x.1 x.2 size)
  | owned {t : Nat} {v : NodeId} {scid : Scid} {dir : Direction} {size : Nat} :
      registry.owner scid dir = some v → Sourced registry (t, v, unstampedUpdate scid dir size)
  | nodeAnn {t : Nat} {v : NodeId} {size : Nat} : Sourced registry (t, v, unstampedNodeAnn v size)
  | chanAnn {t : Nat} {v : NodeId} {scid : Scid} {dir : Direction} {size : Nat} :
      registry.owner scid dir = some v → Sourced registry (t, v, unstampedChanAnn scid size)

theorem mem_of_mapM {α β : Type} {f : α → Option β} {l : List α} {r : List β}
    (h : l.mapM f = some r) {y : β} (hy : y ∈ r) : ∃ x ∈ l, f x = some y := by
  induction l generalizing r with
  | nil => cases h; cases hy
  | cons x l ih =>
    rw [List.mapM_cons] at h
    simp only [Option.bind_eq_bind, Option.bind_eq_some_iff] at h
    obtain ⟨z, hz, rest, hrest, h⟩ := h
    cases h
    rcases List.mem_cons.1 hy with rfl | hy
    · exact ⟨x, List.mem_cons_self, hz⟩
    · obtain ⟨x', hx', hf⟩ := ih hrest hy
      exact ⟨x', List.mem_cons_of_mem _ hx', hf⟩

section Sourced

variable {registry : ChannelRegistry}

theorem OneShotAll.build_sourced (s : OneShotAll) (nodes : List NodeId) :
    ∀ x ∈ s.build nodes registry, Sourced registry x := by
  intro x hx
  obtain ⟨v, -, hx⟩ := List.mem_filterMap.1 hx
  obtain ⟨y, hy, rfl⟩ := Option.map_eq_some_iff.1 hx
  exact .listed (List.mem_of_mem_head? hy)

theorem OneShotSingle.build_sourced (s : OneShotSingle) (nodes : List NodeId) :
    ∀ x ∈ s.build nodes registry, Sourced registry x := by
  intro x hx
  unfold OneShotSingle.build at hx
  split at hx
  · cases hx
  · obtain ⟨y, hy, rfl⟩ := Option.map_eq_some_iff.1 (Option.mem_toList.1 hx)
    exact .listed (List.mem_of_mem_head? hy)

theorem ChannelRegistry.randomChannel_owner {rng rng' : Rng} {scid : Scid} {dir : Direction}
    {v : NodeId} (h : registry.randomChannel rng = some ((scid, dir, v), rng')) :
    registry.owner scid dir = some v := by
  simp only [randomChannel, Option.bind_eq_bind, Option.bind_eq_some_iff] at h
  obtain ⟨⟨i, r₁⟩, -, s, -, ⟨c, r₂⟩, -, o, ho, h⟩ := h
  cases h
  exact ho

theorem PoissonRandom.build_sourced {s : PoissonRandom} {nodes : List NodeId} {max : Nat}
    {tuples : List EventTuple} (h : s.build nodes max registry = some tuples) :
    ∀ x ∈ tuples, Sourced registry x := by
  have hloop : ∀ (times : List Nat) (st st' : Rng × List EventTuple),
      (∀ x ∈ st.2, Sourced registry x) → times.foldlM (s.draw registry) st = some st' →
      ∀ x ∈ st'.2, Sourced registry x := by
    intro times
    induction times with
    | nil => rintro st st' hs h; cases h; exact hs
    | cons time times ih =>
      intro st st' hs h
      rw [List.foldlM_cons, Option.bind_eq_bind, Option.bind_eq_some_iff] at h
      obtain ⟨st₁, h₁, h⟩ := h
      simp only [draw, Option.bind_eq_bind, Option.bind_eq_some_iff] at h₁
      obtain ⟨⟨⟨scid, dir, v⟩, rng⟩, hc, h₁⟩ := h₁
      cases h₁
      refine ih _ _ (fun x hx => ?_) h
      rcases List.mem_append.1 hx with hx | hx
      · exact hs x hx
      · rw [List.mem_singleton.1 hx]
        exact .owned (ChannelRegistry.randomChannel_owner hc)
  unfold PoissonRandom.build at h
  split at h
  · cases h; simp
  · obtain ⟨st, hst, rfl⟩ := Option.map_eq_some_iff.1 h
    exact hloop _ _ _ (by simp) hst

theorem emitTuple_sourced {ev : LogicalEvent} {tuples : List EventTuple}
    (h : emitTuple registry ev = some tuples) : ∀ x ∈ tuples, Sourced registry x := by
  unfold emitTuple at h
  split at h
  · cases h
    intro x hx
    rw [List.mem_singleton.1 hx]
    exact .nodeAnn
  · obtain ⟨v, hv, h⟩ := Option.bind_eq_some_iff.1 h
    cases h
    intro x hx
    rw [List.mem_singleton.1 hx]
    exact .owned hv
  · intro x hx
    obtain ⟨dir, -, hm⟩ := mem_of_mapM h hx
    obtain ⟨v, hv, rfl⟩ := Option.map_eq_some_iff.1 hm
    exact .chanAnn hv
  · cases h; simp

theorem emitTuples_sourced {events : List LogicalEvent} {tuples : List EventTuple}
    (h : emitTuples events registry = some tuples) : ∀ x ∈ tuples, Sourced registry x := by
  obtain ⟨lists, hl, rfl⟩ := Option.map_eq_some_iff.1 h
  intro x hx
  obtain ⟨l, hm, hx⟩ := List.mem_flatten.1 hx
  obtain ⟨ev, -, he⟩ := mem_of_mapM hl hm
  exact emitTuple_sourced he x hx

/-- Whatever the source, its tuples come from the registry. -/
theorem buildEvents_sourced [IdHash] {src : EventSource} {nodes : List NodeId} {max : Nat}
    {tuples : List EventTuple} (h : buildEvents src nodes max registry = some tuples) :
    ∀ x ∈ tuples, Sourced registry x := by
  obtain ⟨raw, hraw, rfl⟩ := Option.map_eq_some_iff.1 h
  intro x hx
  rw [List.mem_mergeSort] at hx
  cases src with
  | oneShotSingle s => cases hraw; exact s.build_sourced nodes x hx
  | oneShotAll s => cases hraw; exact s.build_sourced nodes x hx
  | poissonRandom s => exact PoissonRandom.build_sourced hraw x hx
  | parquetReplay s =>
    obtain ⟨⟨events, stats⟩, -, hemit⟩ := Option.bind_eq_some_iff.1 hraw
    exact emitTuples_sourced hemit x hx

/-- The event sources leave the timestamp to the origination. -/
theorem Sourced.timestamp {x : EventTuple} (h : Sourced registry x) : x.2.2.timestamp = 0 := by
  cases h <;> rfl

end Sourced

end LnConv
