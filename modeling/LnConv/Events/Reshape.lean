import LnConv.Events.Capacity
import Mathlib.Data.Finset.Prod

/-!
# Reshaping a replay

Events without a known home get one, and no (entity, window) slot of a class carries two of
them. An event goes to its home when that has a free window, and to any other entity of its
class otherwise; it is dropped when none has one. Times are nanoseconds.
-/

namespace LnConv

inductive HomeEntity
  | unknown
  | node (n : NodeId)
  | channel (scid : Scid)
deriving DecidableEq

inductive BucketClass
  | nodeAnn | chanAnn | chanUpd0 | chanUpd1
deriving DecidableEq

inductive LogicalKind
  | nodeAnnouncement
  | channelAnnouncement
  | channelUpdate (direction : Direction)
deriving DecidableEq

def LogicalKind.kindIdx : LogicalKind → Fin 3
  | nodeAnnouncement => 0
  | channelAnnouncement => 1
  | channelUpdate _ => 2

def LogicalKind.bucketClass : LogicalKind → BucketClass
  | nodeAnnouncement => .nodeAnn
  | channelAnnouncement => .chanAnn
  | channelUpdate 0 => .chanUpd0
  | channelUpdate _ => .chanUpd1

structure LogicalEvent where
  delay : Nat
  home : HomeEntity
  kind : LogicalKind
  sizeBytes : Nat
  origIdString : String
  wasOrphan : Bool
  wasDeferred : Bool
  wasReassigned : Bool

structure ReshapeStats where
  totalByKind : Fin 3 → Nat := fun _ => 0
  deferredByKind : Fin 3 → Nat := fun _ => 0
  reassignedByKind : Fin 3 → Nat := fun _ => 0
  orphanByKind : Fin 3 → Nat := fun _ => 0
  droppedByKind : Fin 3 → Nat := fun _ => 0
  excessByKind : Fin 3 → AList fun _ : String => Nat := fun _ => ∅

/-- One more of a kind. -/
def bump (count : Fin 3 → Nat) (k : Fin 3) : Fin 3 → Nat := Function.update count k (count k + 1)

theorem bump_apply (count : Fin 3 → Nat) (k j : Fin 3) :
    bump count k j = count j + if k = j then 1 else 0 := by
  by_cases h : k = j
  · subst h; simp [bump]
  · simp [bump, h, Ne.symm h]

/-! ## Times and windows -/

def NS_PER_SEC : Nat := 1000000000

def WINDOW_SECS : Nat := 600

/-- The number of windows `build` asks for. -/
def numWindows (max : Nat) : Nat := Nat.max (max / NS_PER_SEC / WINDOW_SECS) 1

def LogicalEvent.window (ev : LogicalEvent) : Nat := ev.delay / NS_PER_SEC / WINDOW_SECS

/-- The entity of an event of a class, as a home. -/
def BucketClass.home : BucketClass → Nat → HomeEntity
  | nodeAnn, n => .node n
  | _, scid => .channel scid

theorem BucketClass.home_injective (cl : BucketClass) : Function.Injective cl.home := by
  intro a b h
  cases cl <;> simpa [home] using h

/-- What no two events may share. -/
def LogicalEvent.slot (ev : LogicalEvent) : BucketClass × HomeEntity × Nat :=
  (ev.kind.bucketClass, ev.home, ev.window)

/-! ## Finding a slot -/

structure Placement where
  entity : Nat
  window : Nat
  deferred : Bool
  reassigned : Bool

/-- The loop over fresh entities; `none` also when the fuel is used up. -/
def reassign (preferredWindow : Nat) :
    Nat → Capacity → Rng → Option (Option Placement × Capacity × Rng)
  | 0, _, _ => none
  | fuel + 1, cap, rng => do
    let (picked, rng) ← cap.randomEntity rng
    match picked with
    | none => some (none, cap, rng)
    | some entity => do
      let (placement, cap, rng) ← cap.tryPlace entity preferredWindow rng
      match placement with
      | some (window, deferred) => some (some ⟨entity, window, deferred, true⟩, cap, rng)
      | none => reassign preferredWindow fuel cap rng

/-- The entity that is tried first. -/
def homeEntity (cap : Capacity) (rng : Rng) : HomeEntity → Option (Option Nat × Rng)
  | .node n => some (some n, rng)
  | .channel scid => some (some scid, rng)
  | .unknown => cap.randomEntity rng

def place (fuel : Nat) (ev : LogicalEvent) (cap : Capacity) (rng : Rng) :
    Option (Option Placement × Capacity × Rng) := do
  let (home, rng) ← homeEntity cap rng ev.home
  match home with
  | none => some (none, cap, rng)
  | some entity => do
    let (placement, cap, rng) ← cap.tryPlace entity ev.window rng
    match placement with
    | some (window, deferred) => some (some ⟨entity, window, deferred, ev.wasOrphan⟩, cap, rng)
    | none => reassign ev.window fuel cap rng

/-! ## The pass -/

/-- The microseconds by which an event is moved into its window. -/
def jitter (max window : Nat) (rng : Rng) : Option (Nat × Rng) :=
  let windowStart := window * WINDOW_SECS
  let windowEnd := min (windowStart + WINDOW_SECS) (max / NS_PER_SEC)
  let width := (windowEnd - windowStart) * 1000000
  if width > 0 then rng.randomRange width else some (0, rng)

/-- The counters of an event that found a slot, and its marks. -/
def tally (ev : LogicalEvent) (p : Placement) (stats : ReshapeStats) :
    LogicalEvent × ReshapeStats :=
  let k := ev.kind.kindIdx
  if p.reassigned then
    ({ ev with wasReassigned := true },
      { stats with
        reassignedByKind := bump stats.reassignedByKind k
        orphanByKind := if ev.wasOrphan then bump stats.orphanByKind k else stats.orphanByKind })
  else if p.deferred then
    ({ ev with wasDeferred := true },
      { stats with deferredByKind := bump stats.deferredByKind k })
  else (ev, stats)

/-- One more source of excess, of the kind of the event. -/
def ReshapeStats.noteExcess (stats : ReshapeStats) (ev : LogicalEvent) : ReshapeStats :=
  let k := ev.kind.kindIdx
  let excess := stats.excessByKind k
  if ev.wasDeferred || ev.wasReassigned || ev.wasOrphan then
    { stats with
      excessByKind := Function.update stats.excessByKind k
        (excess.insert ev.origIdString ((excess.lookup ev.origIdString).getD 0 + 1)) }
  else stats

def accept (max : Nat) (ev : LogicalEvent) (p : Placement) (stats : ReshapeStats) (rng : Rng) :
    Option (LogicalEvent × ReshapeStats × Rng) := do
  let (ev, stats) := tally ev p stats
  let (jitterUs, rng) ← jitter max p.window rng
  let ev := { ev with
    home := ev.kind.bucketClass.home p.entity
    delay := p.window * WINDOW_SECS * NS_PER_SEC + jitterUs * 1000 }
  let stats := stats.noteExcess ev
  some (ev, { stats with totalByKind := bump stats.totalByKind ev.kind.kindIdx }, rng)

structure Reshaping where
  caps : BucketClass → Capacity
  rng : Rng
  stats : ReshapeStats
  surviving : List LogicalEvent

def reshapeOne (max fuel : Nat) (s : Reshaping) (ev : LogicalEvent) : Option Reshaping := do
  let cl := ev.kind.bucketClass
  let (placement, cap, rng) ← place fuel ev (s.caps cl) s.rng
  let s := { s with caps := Function.update s.caps cl cap, rng := rng }
  match placement with
  | none =>
    some { s with stats := { s.stats with
      droppedByKind := bump s.stats.droppedByKind ev.kind.kindIdx } }
  | some p => do
    let (ev, stats, rng) ← accept max ev p s.stats s.rng
    some { s with rng := rng, stats := stats, surviving := s.surviving ++ [ev] }

/-- The entities of a class: the nodes of the snapshot or the channels of the registry. -/
def classEntities (scids snapshotNodes : List Nat) : BucketClass → List Nat
  | .nodeAnn => snapshotNodes
  | _ => scids

def Reshaping.start (scids snapshotNodes : List Nat) (numWindows : Nat) (rng : Rng) : Reshaping where
  caps cl := .new (classEntities scids snapshotNodes cl) numWindows
  rng := rng
  stats := {}
  surviving := []

/-- `scids` is what the registry lists. -/
def reshape (fuel : Nat) (events : List LogicalEvent) (scids snapshotNodes : List Nat)
    (numWindows max : Nat) (rng : Rng) : Option (List LogicalEvent × ReshapeStats) :=
  (events.foldlM (reshapeOne max fuel) (.start scids snapshotNodes numWindows rng)).map fun s =>
    (s.surviving, s.stats)

/-! ## One event -/

section place

variable {cap : Capacity} {entities : List Nat} {windows : Nat}

theorem reassign_saturated (hnil : cap.hasFree = []) (preferredWindow fuel : Nat) (rng : Rng) :
    reassign preferredWindow (fuel + 1) cap rng = some (none, cap, rng) := by
  simp [reassign, Capacity.randomEntity_none hnil]

/-- The first entity drawn takes the event: one round of the loop is enough. -/
theorem reassign_free (h : cap.WellFormed entities windows) (hne : cap.hasFree ≠ [])
    (preferredWindow : Nat) (rng : Rng) : ∃ p cap' rng',
      (∀ fuel, reassign preferredWindow (fuel + 1) cap rng = some (some p, cap', rng')) ∧
      cap.Takes entities windows p.entity p.window cap' := by
  obtain ⟨e, rng₁, hpick, he⟩ := Capacity.randomEntity_some hne rng
  obtain ⟨window, deferred, cap', rng', hplace, htakes⟩ := h.tryPlace_some he preferredWindow rng₁
  refine ⟨⟨e, window, deferred, true⟩, cap', rng', fun fuel => ?_, htakes⟩
  simp [reassign, hpick, hplace]

theorem place_saturated (h : cap.WellFormed entities windows) (hnil : cap.hasFree = [])
    (ev : LogicalEvent) (fuel : Nat) (rng : Rng) :
    place (fuel + 1) ev cap rng = some (none, cap, rng) := by
  have hfull : ∀ e, cap.tryPlace e ev.window rng = some (none, cap, rng) := fun e =>
    h.tryPlace_none (by simp [hnil]) _ rng
  cases hhome : ev.home with
  | unknown => simp [place, homeEntity, hhome, Capacity.randomEntity_none hnil]
  | node n => simp [place, homeEntity, hhome, hfull, reassign_saturated hnil]
  | channel scid => simp [place, homeEntity, hhome, hfull, reassign_saturated hnil]

/-- The event goes to the entity tried first or to another one, but it goes somewhere. -/
theorem tryPlace_or_reassign (h : cap.WellFormed entities windows) (hne : cap.hasFree ≠ [])
    (ev : LogicalEvent) (e : Nat) (rng : Rng) : ∃ p cap' rng',
      (∀ fuel, ((cap.tryPlace e ev.window rng).bind fun r =>
        match r.1 with
        | some (window, deferred) => some (some ⟨e, window, deferred, ev.wasOrphan⟩, r.2.1, r.2.2)
        | none => reassign ev.window (fuel + 1) r.2.1 r.2.2) = some (some p, cap', rng')) ∧
      cap.Takes entities windows p.entity p.window cap' := by
  by_cases he : e ∈ cap.hasFree
  · obtain ⟨window, deferred, cap', rng', hplace, htakes⟩ := h.tryPlace_some he ev.window rng
    exact ⟨⟨e, window, deferred, ev.wasOrphan⟩, cap', rng', fun _ => by rw [hplace]; rfl, htakes⟩
  · obtain ⟨p, cap', rng', hre, htakes⟩ := reassign_free h hne ev.window rng
    refine ⟨p, cap', rng', fun fuel => ?_, htakes⟩
    rw [h.tryPlace_none he]
    exact hre fuel

theorem place_free (h : cap.WellFormed entities windows) (hne : cap.hasFree ≠ [])
    (ev : LogicalEvent) (rng : Rng) : ∃ p cap' rng',
      (∀ fuel, place (fuel + 1) ev cap rng = some (some p, cap', rng')) ∧
      cap.Takes entities windows p.entity p.window cap' := by
  obtain ⟨e, rng₁, hhome⟩ : ∃ e rng₁, homeEntity cap rng ev.home = some (some e, rng₁) := by
    cases ev.home with
    | unknown =>
      obtain ⟨e, rng₁, hpick, -⟩ := Capacity.randomEntity_some hne rng
      exact ⟨e, rng₁, hpick⟩
    | node n => exact ⟨n, rng, rfl⟩
    | channel scid => exact ⟨scid, rng, rfl⟩
  obtain ⟨p, cap', rng', hp, htakes⟩ := tryPlace_or_reassign h hne ev e rng₁
  refine ⟨p, cap', rng', fun fuel => ?_, htakes⟩
  rw [place, hhome]
  exact hp fuel

end place

/-- The jitter leaves an event in its window and within the run. -/
theorem jitter_eq {max window : Nat} (hw : window < numWindows max) (rng : Rng) :
    ∃ us rng', jitter max window rng = some (us, rng') ∧
      (window * WINDOW_SECS * NS_PER_SEC + us * 1000) / NS_PER_SEC / WINDOW_SECS = window ∧
      window * WINDOW_SECS * NS_PER_SEC + us * 1000 ≤ max := by
  have hmax := Nat.div_mul_le_self max NS_PER_SEC
  replace hw : window < max / NS_PER_SEC / WINDOW_SECS ∨ window < 1 := lt_max_iff.1 hw
  simp only [jitter]
  generalize max / NS_PER_SEC = secs at hw hmax ⊢
  set width := min (window * WINDOW_SECS + WINDOW_SECS) secs - window * WINDOW_SECS with hdef
  -- the window starts within the run, and `width` ends with it or with the window
  obtain ⟨hend, hwidth⟩ : window * WINDOW_SECS + width ≤ secs ∧ width ≤ 600 := by
    simp only [WINDOW_SECS] at hw hdef ⊢
    omega
  have hwithin : ∀ us, us * 1000 ≤ width * NS_PER_SEC → us * 1000 < WINDOW_SECS * NS_PER_SEC →
      (window * WINDOW_SECS * NS_PER_SEC + us * 1000) / NS_PER_SEC / WINDOW_SECS = window ∧
      window * WINDOW_SECS * NS_PER_SEC + us * 1000 ≤ max := by
    intro us hle hlt
    refine ⟨?_, ?_⟩
    · simp only [NS_PER_SEC, WINDOW_SECS] at hlt ⊢
      omega
    · calc window * WINDOW_SECS * NS_PER_SEC + us * 1000
          ≤ (window * WINDOW_SECS + width) * NS_PER_SEC := by rw [Nat.add_mul]; omega
        _ ≤ secs * NS_PER_SEC := Nat.mul_le_mul_right _ hend
        _ ≤ max := hmax
  by_cases hpos : width * 1000000 > 0
  · obtain ⟨us, hus, rng', hr⟩ := Rng.randomRange_eq rng hpos
    refine ⟨us, rng', by rw [if_pos hpos, hr], hwithin us ?_ ?_⟩
    · simp only [NS_PER_SEC]; omega
    · simp only [NS_PER_SEC, WINDOW_SECS]; omega
  · exact ⟨0, rng, if_neg hpos, hwithin 0 (Nat.zero_le _) (by simp [NS_PER_SEC, WINDOW_SECS])⟩

theorem tally_kept (ev : LogicalEvent) (p : Placement) (stats : ReshapeStats) :
    (tally ev p stats).1.kind = ev.kind ∧
      (tally ev p stats).2.droppedByKind = stats.droppedByKind := by
  unfold tally
  split
  · exact ⟨rfl, rfl⟩
  · split <;> exact ⟨rfl, rfl⟩

theorem noteExcess_kept (stats : ReshapeStats) (ev : LogicalEvent) :
    (stats.noteExcess ev).droppedByKind = stats.droppedByKind := by
  unfold ReshapeStats.noteExcess
  split <;> rfl

/-- An accepted event stands in the slot it was given. -/
theorem accept_eq {max : Nat} (ev : LogicalEvent) {p : Placement} (hw : p.window < numWindows max)
    (stats : ReshapeStats) (rng : Rng) : ∃ ev' stats' rng',
      accept max ev p stats rng = some (ev', stats', rng') ∧ ev'.kind = ev.kind ∧
      ev'.slot = (ev.kind.bucketClass, ev.kind.bucketClass.home p.entity, p.window) ∧
      ev'.delay ≤ max ∧ stats'.droppedByKind = stats.droppedByKind := by
  obtain ⟨us, rng', hj, hwindow, hle⟩ := jitter_eq hw rng
  obtain ⟨hkind, hdropped⟩ := tally_kept ev p stats
  simp only [accept, hj, Option.bind_eq_bind, Option.bind_some]
  refine ⟨_, _, _, rfl, hkind, ?_, hle, ?_⟩
  · simp only [LogicalEvent.slot, LogicalEvent.window, hkind, hwindow]
  · rw [noteExcess_kept, hdropped]

section one

variable {max : Nat} {entities : List Nat} {s : Reshaping} {ev : LogicalEvent}

theorem reshapeOne_saturated
    (h : (s.caps ev.kind.bucketClass).WellFormed entities (numWindows max))
    (hnil : (s.caps ev.kind.bucketClass).hasFree = []) (fuel : Nat) :
    reshapeOne max (fuel + 1) s ev = some { s with stats := { s.stats with
      droppedByKind := bump s.stats.droppedByKind ev.kind.kindIdx } } := by
  simp [reshapeOne, place_saturated h hnil]

theorem reshapeOne_free (h : (s.caps ev.kind.bucketClass).WellFormed entities (numWindows max))
    (hne : (s.caps ev.kind.bucketClass).hasFree ≠ []) : ∃ e w cap' ev' s',
      (∀ fuel, reshapeOne max (fuel + 1) s ev = some s') ∧
      (s.caps ev.kind.bucketClass).Takes entities (numWindows max) e w cap' ∧
      s'.caps = Function.update s.caps ev.kind.bucketClass cap' ∧
      s'.surviving = s.surviving ++ [ev'] ∧
      s'.stats.droppedByKind = s.stats.droppedByKind ∧ ev'.kind = ev.kind ∧
      ev'.slot = (ev.kind.bucketClass, ev.kind.bucketClass.home e, w) ∧ ev'.delay ≤ max := by
  obtain ⟨p, cap', rng₁, hplace, htakes⟩ := place_free h hne ev s.rng
  obtain ⟨ev', stats', rng', haccept, hkind, hslot, hdelay, hdropped⟩ :=
    accept_eq ev htakes.lt s.stats rng₁
  refine ⟨p.entity, p.window, cap', ev', ⟨Function.update s.caps ev.kind.bucketClass cap', rng',
    stats', s.surviving ++ [ev']⟩, fun fuel => ?_, htakes, rfl, rfl, hdropped, hkind, hslot, hdelay⟩
  refine Option.bind_eq_some_iff.2 ⟨_, hplace fuel, ?_⟩
  exact Option.bind_eq_some_iff.2 ⟨_, haccept, rfl⟩

end one

/-! ## Every prefix of the pass -/

def countClass (cl : BucketClass) (events : List LogicalEvent) : Nat :=
  events.countP fun ev => ev.kind.bucketClass = cl

def countKind (k : Fin 3) (events : List LogicalEvent) : Nat :=
  events.countP fun ev => ev.kind.kindIdx = k

theorem countClass_concat (cl : BucketClass) (events : List LogicalEvent) (ev : LogicalEvent) :
    countClass cl (events ++ [ev]) =
      countClass cl events + if ev.kind.bucketClass = cl then 1 else 0 := by
  simp [countClass, List.countP_append, List.countP_singleton]

theorem countKind_concat (k : Fin 3) (events : List LogicalEvent) (ev : LogicalEvent) :
    countKind k (events ++ [ev]) = countKind k events + if ev.kind.kindIdx = k then 1 else 0 := by
  simp [countKind, List.countP_append, List.countP_singleton]

/-- The state after `events`: the trackers hold the slots of the survivors. -/
structure Shaped (max : Nat) (entities : BucketClass → List Nat) (events : List LogicalEvent)
    (s : Reshaping) : Prop where
  caps : ∀ cl, (s.caps cl).WellFormed (entities cl) (numWindows max)
  taken : ∀ cl e w, (s.caps cl).taken e w = true ↔
    (cl, cl.home e, w) ∈ s.surviving.map LogicalEvent.slot
  nodup : (s.surviving.map LogicalEvent.slot).Nodup
  placed : ∀ ev ∈ s.surviving, (∃ e ∈ entities ev.kind.bucketClass,
    ev.home = ev.kind.bucketClass.home e) ∧ ev.window < numWindows max ∧ ev.delay ≤ max
  kept : ∀ cl, countClass cl s.surviving ≤ countClass cl events ∧
    ((s.caps cl).hasFree = [] ∨ countClass cl s.surviving = countClass cl events)
  kinds : ∀ k, countKind k s.surviving + s.stats.droppedByKind k = countKind k events

/-- An event is kept, or it is counted as dropped and all slots of its class are held. -/
def KeptOrFull (entities : BucketClass → List Nat) (windows : Nat) (s : Reshaping)
    (ev : LogicalEvent) (s' : Reshaping) : Prop :=
  let cl := ev.kind.bucketClass
  (∃ ev', ev'.kind = ev.kind ∧ s'.surviving = s.surviving ++ [ev'] ∧
    s'.stats.droppedByKind = s.stats.droppedByKind) ∨
  (s'.surviving = s.surviving ∧
    s'.stats.droppedByKind = bump s.stats.droppedByKind ev.kind.kindIdx ∧
    ∀ e ∈ entities cl, ∀ w < windows, (cl, cl.home e, w) ∈ s.surviving.map LogicalEvent.slot)

namespace Shaped

variable {max : Nat} {entities : BucketClass → List Nat} {events : List LogicalEvent} {s : Reshaping}

theorem start (max : Nat) (scids snapshotNodes : List Nat) (rng : Rng) :
    Shaped max (classEntities scids snapshotNodes) []
      (.start scids snapshotNodes (numWindows max) rng) where
  caps cl := Capacity.wellFormed_new _ _
  taken cl e w := by simp [Reshaping.start, Capacity.taken_new]
  nodup := List.nodup_nil
  placed ev h := by cases h
  kept cl := ⟨Nat.le_refl _, .inr rfl⟩
  kinds k := rfl

theorem step (h : Shaped max entities events s) (ev : LogicalEvent) : ∃ s',
    (∀ fuel, reshapeOne max (fuel + 1) s ev = some s') ∧
    Shaped max entities (events ++ [ev]) s' ∧ KeptOrFull entities (numWindows max) s ev s' := by
  have hwf := h.caps ev.kind.bucketClass
  by_cases hnil : (s.caps ev.kind.bucketClass).hasFree = []
  · refine ⟨_, reshapeOne_saturated hwf hnil, ⟨h.caps, h.taken, h.nodup, h.placed, fun cl => ?_,
      fun k => ?_⟩, .inr ⟨rfl, rfl, fun e he w hw => ?_⟩⟩
    · rw [countClass_concat]
      by_cases hcl : ev.kind.bucketClass = cl
      · exact ⟨Nat.le_add_right_of_le (h.kept cl).1, .inl (hcl ▸ hnil)⟩
      · simpa [hcl] using h.kept cl
    · rw [countKind_concat, ← h.kinds k, Nat.add_assoc]
      exact congrArg (countKind k s.surviving + ·) (bump_apply ..)
    · exact (h.taken _ e w).1 (hwf.taken_of_hasFree_nil hnil he hw)
  · obtain ⟨e, w, cap', ev', s', hone, htakes, hcaps, hsurv, hdropped, hkind, hslot, hdelay⟩ :=
      reshapeOne_free hwf hnil
    have hfresh : ev'.slot ∉ s.surviving.map LogicalEvent.slot := by
      rw [hslot, ← h.taken, htakes.free]
      exact Bool.false_ne_true
    refine ⟨s', hone, ⟨fun cl => ?_, fun cl e' w' => ?_, ?_, fun x hx => ?_, fun cl => ?_,
      fun k => ?_⟩, .inl ⟨ev', hkind, hsurv, hdropped⟩⟩
    · rw [hcaps]
      by_cases hcl : cl = ev.kind.bucketClass
      · subst hcl; simpa using htakes.wellFormed
      · simpa [hcl] using h.caps cl
    · rw [hcaps, hsurv, List.map_append, List.mem_append, ← h.taken, List.map_singleton,
        List.mem_singleton, hslot]
      by_cases hcl : cl = ev.kind.bucketClass
      · subst hcl
        have hinj := (BucketClass.home_injective ev.kind.bucketClass).eq_iff (a := e') (b := e)
        simp [htakes.taken, hinj, or_comm]
      · simp [hcl]
    · rw [hsurv, List.map_append, List.map_singleton]
      simpa [List.nodup_append] using ⟨h.nodup, fun x hx heq => hfresh
        (List.mem_map.2 ⟨x, hx, heq⟩)⟩
    · rw [hsurv] at hx
      rcases List.mem_append.1 hx with hx | hx
      · exact h.placed x hx
      · cases List.mem_singleton.1 hx
        have hhome : ev'.home = ev'.kind.bucketClass.home e := by
          rw [hkind]; exact congrArg (fun slot => slot.2.1) hslot
        have hwindow : ev'.window = w := congrArg (fun slot => slot.2.2) hslot
        exact ⟨⟨e, hkind ▸ htakes.mem, hhome⟩, hwindow ▸ htakes.lt, hdelay⟩
    · rw [hsurv, hcaps, countClass_concat, countClass_concat, hkind]
      by_cases hcl : ev.kind.bucketClass = cl
      · subst hcl
        have heq := (h.kept ev.kind.bucketClass).2.resolve_left hnil
        exact ⟨Nat.le_of_eq (by rw [heq]), .inr (by rw [heq])⟩
      · simpa [hcl, Ne.symm hcl] using h.kept cl
    · rw [hsurv, hdropped, countKind_concat, countKind_concat, hkind, ← h.kinds k]
      omega

/-- The slots of a class that are held. -/
theorem image_subset (h : Shaped max entities events s) (cl : BucketClass) :
    ((s.surviving.map LogicalEvent.slot).filter (·.1 = cl)).toFinset ⊆
      ((entities cl).toFinset ×ˢ Finset.range (numWindows max)).image
        fun slot => (cl, cl.home slot.1, slot.2) := by
  intro slot hslot
  simp only [List.mem_toFinset, List.mem_filter, List.mem_map, decide_eq_true_eq] at hslot
  obtain ⟨⟨ev, hev, rfl⟩, hcl⟩ := hslot
  obtain ⟨⟨e, he, hhome⟩, hw, -⟩ := h.placed ev hev
  subst hcl
  refine Finset.mem_image.2 ⟨(e, ev.window), ?_, ?_⟩
  · simpa [LogicalEvent.slot] using ⟨he, hw⟩
  · simp [LogicalEvent.slot, hhome]

theorem card_slots (entities : List Nat) (windows : Nat) (cl : BucketClass) :
    ((entities.toFinset ×ˢ Finset.range windows).image
      fun slot => (cl, cl.home slot.1, slot.2)).card = entities.toFinset.card * windows := by
  rw [Finset.card_image_of_injective, Finset.card_product, Finset.card_range]
  rintro ⟨e, w⟩ ⟨e', w'⟩ heq
  simp only [Prod.mk.injEq, true_and, cl.home_injective.eq_iff] at heq ⊢
  exact heq

theorem card_held (h : Shaped max entities events s) (cl : BucketClass) :
    ((s.surviving.map LogicalEvent.slot).filter (·.1 = cl)).toFinset.card =
      countClass cl s.surviving := by
  rw [List.toFinset_card_of_nodup (h.nodup.filter _), ← List.countP_eq_length_filter,
    List.countP_map]
  rfl

/-- All the events of a class are kept, or as many as it has slots. -/
theorem survivors (h : Shaped max entities events s) (cl : BucketClass) :
    countClass cl s.surviving =
      min (countClass cl events) ((entities cl).toFinset.card * numWindows max) := by
  have hsub := h.image_subset cl
  have hle := Finset.card_le_card hsub
  rw [card_slots, h.card_held] at hle
  obtain ⟨hkept, hnil | heq⟩ := h.kept cl
  · have hfull : ((s.surviving.map LogicalEvent.slot).filter (·.1 = cl)).toFinset =
        ((entities cl).toFinset ×ˢ Finset.range (numWindows max)).image
          fun slot => (cl, cl.home slot.1, slot.2) := by
      apply Finset.Subset.antisymm hsub
      intro slot hslot
      obtain ⟨⟨e, w⟩, hew, rfl⟩ := Finset.mem_image.1 hslot
      rw [Finset.mem_product, List.mem_toFinset, Finset.mem_range] at hew
      have htaken := (h.caps cl).taken_of_hasFree_nil hnil hew.1 hew.2
      simpa using (h.taken cl e w).1 htaken
    have hcard := congrArg Finset.card hfull
    rw [card_slots, h.card_held] at hcard
    omega
  · omega

end Shaped

theorem shaped_run (max : Nat) (scids snapshotNodes : List Nat) (rng : Rng)
    (events : List LogicalEvent) : ∃ s,
    (∀ fuel, events.foldlM (reshapeOne max (fuel + 1))
      (.start scids snapshotNodes (numWindows max) rng) = some s) ∧
    Shaped max (classEntities scids snapshotNodes) events s := by
  induction events using List.reverseRecOn with
  | nil => exact ⟨_, fun _ => rfl, .start max scids snapshotNodes rng⟩
  | append_singleton events ev ih =>
    obtain ⟨s, hrun, hs⟩ := ih
    obtain ⟨s', hone, hs', -⟩ := hs.step ev
    refine ⟨s', fun fuel => ?_, hs'⟩
    simp [List.foldlM_append, hrun, hone]

/-- The pass ends after one round of the loop over entities, whatever is drawn. Survivors of a
class stand in different slots, at known homes and within the run; there are as many of them as
events or as slots. An event is dropped, and counted, only when all slots of its class are held. -/
theorem reshape_places_all (events : List LogicalEvent) (scids snapshotNodes : List Nat)
    (max : Nat) (rng : Rng) : ∃ out stats,
    (∀ fuel, reshape (fuel + 1) events scids snapshotNodes (numWindows max) max rng =
      some (out, stats)) ∧
    out.Pairwise (fun a b => a.kind.bucketClass = b.kind.bucketClass → a.home = b.home →
      a.window ≠ b.window) ∧
    (∀ ev ∈ out, (∃ e ∈ classEntities scids snapshotNodes ev.kind.bucketClass,
      ev.home = ev.kind.bucketClass.home e) ∧ ev.delay ≤ max) ∧
    (∀ cl, countClass cl out = min (countClass cl events)
      ((classEntities scids snapshotNodes cl).toFinset.card * numWindows max)) ∧
    (∀ k, countKind k out + stats.droppedByKind k = countKind k events) ∧
    ∀ before ev, before ++ [ev] <+: events → ∃ s s',
      (∀ fuel, before.foldlM (reshapeOne max (fuel + 1))
        (.start scids snapshotNodes (numWindows max) rng) = some s ∧
        reshapeOne max (fuel + 1) s ev = some s') ∧
      KeptOrFull (classEntities scids snapshotNodes) (numWindows max) s ev s' := by
  obtain ⟨s, hrun, hs⟩ := shaped_run max scids snapshotNodes rng events
  refine ⟨s.surviving, s.stats, fun fuel => by rw [reshape, hrun]; rfl, ?_,
    fun ev hev => ⟨(hs.placed ev hev).1, (hs.placed ev hev).2.2⟩, hs.survivors, hs.kinds,
    fun before ev _ => ?_⟩
  · refine (List.pairwise_map.1 hs.nodup).imp fun hne hclass hhome hwindow => hne ?_
    simp only [LogicalEvent.slot, hclass, hhome, hwindow]
  · obtain ⟨s₁, hrun₁, hs₁⟩ := shaped_run max scids snapshotNodes rng before
    obtain ⟨s₂, hone, -, hor⟩ := hs₁.step ev
    exact ⟨s₁, s₂, fun fuel => ⟨hrun₁ fuel, hone fuel⟩, hor⟩

end LnConv
