import LnConv.Events.Reshape

/-!
# The flags of a reshaped event

An event is marked as deferred when it leaves its window, and as reassigned when it leaves its
home. `tryPlace` takes an event that is past the last whole window to that window first, and
the event is not marked for it.
-/

namespace LnConv

/-- An event as the loader makes it. -/
structure LogicalEvent.Loaded (ev : LogicalEvent) : Prop where
  deferred : ev.wasDeferred = false
  reassigned : ev.wasReassigned = false
  orphan : ev.wasOrphan = true ↔ ev.home = .unknown
  home : ev.home = .unknown ∨ ∃ e, ev.home = ev.kind.bucketClass.home e

/-- The window an event asks for. -/
def LogicalEvent.preferred (ev : LogicalEvent) (windows : Nat) : Nat := min ev.window (windows - 1)

/-- What the top-10 report counts. -/
def LogicalEvent.adjusted (ev : LogicalEvent) : Bool := ev.wasDeferred || ev.wasReassigned

/-- What became of an event that found a slot. -/
inductive Moved (windows : Nat) (cap : Capacity) (ev ev' : LogicalEvent) : Prop
  | kept (e : Nat) (home : ev.home = ev.kind.bucketClass.home e) (listed : e ∈ cap.hasFree)
      (free : cap.taken e (ev.preferred windows) = false) (same : ev'.home = ev.home)
      (window : ev'.window = ev.preferred windows) (deferred : ev'.wasDeferred = false)
      (reassigned : ev'.wasReassigned = false)
  | deferred (e : Nat) (home : ev.home = ev.kind.bucketClass.home e)
      (full : cap.taken e (ev.preferred windows) = true) (same : ev'.home = ev.home)
      (window : ev'.window ≠ ev.preferred windows) (lt : ev'.window < windows)
      (deferred : ev'.wasDeferred = true) (reassigned : ev'.wasReassigned = false)
  | reassigned (away : ∀ e, ev.home = ev.kind.bucketClass.home e → e ∉ cap.hasFree)
      (deferred : ev'.wasDeferred = false) (reassigned : ev'.wasReassigned = true)

/-- The counters take in a survivor. -/
structure Counted (stats : ReshapeStats) (ev' : LogicalEvent) (stats' : ReshapeStats) : Prop where
  deferred : stats'.deferredByKind = if ev'.wasDeferred then
    bump stats.deferredByKind ev'.kind.kindIdx else stats.deferredByKind
  reassigned : stats'.reassignedByKind = if ev'.wasReassigned then
    bump stats.reassignedByKind ev'.kind.kindIdx else stats.reassignedByKind
  excess : ∀ k id, (stats'.excessByKind k).lookup id =
    if ev'.kind.kindIdx = k ∧ ev'.origIdString = id ∧ ev'.adjusted then
      some (((stats.excessByKind k).lookup id).getD 0 + 1)
    else (stats.excessByKind k).lookup id

theorem numWindows_pos (max : Nat) : 0 < numWindows max :=
  Nat.lt_of_lt_of_le Nat.zero_lt_one (Nat.le_max_right ..)

/-! ## One event -/

theorem BucketClass.home_ne_unknown (cl : BucketClass) (e : Nat) : cl.home e ≠ .unknown := by
  cases cl <;> simp [home]

theorem homeEntity_home (cap : Capacity) (rng : Rng) (cl : BucketClass) (e : Nat) :
    homeEntity cap rng (cl.home e) = some (some e, rng) := by
  cases cl <;> rfl

theorem reassign_reassigned {preferredWindow : Nat} {p : Placement} (fuel : Nat)
    {cap cap' : Capacity} {rng rng' : Rng}
    (h : reassign preferredWindow fuel cap rng = some (some p, cap', rng')) :
    p.reassigned = true := by
  induction fuel generalizing cap rng with
  | zero => cases h
  | succ fuel ih =>
    obtain ⟨⟨picked, rng₁⟩, -, h⟩ := Option.bind_eq_some_iff.1 h
    cases picked with
    | none => cases h
    | some entity =>
      obtain ⟨⟨placement, cap₁, rng₂⟩, -, h⟩ := Option.bind_eq_some_iff.1 h
      cases placement with
      | none => exact ih h
      | some x => cases h; rfl

section place

variable {cap cap' : Capacity} {entities : List Nat} {windows fuel : Nat} {ev : LogicalEvent}
  {p : Placement} {rng rng' : Rng}

/-- An event that is not put where it was tried first is reassigned. -/
theorem place_cases (h : place fuel ev cap rng = some (some p, cap', rng')) :
    p.reassigned = true ∨ ∃ rng₁, homeEntity cap rng ev.home = some (some p.entity, rng₁) ∧
      cap.tryPlace p.entity ev.window rng₁ = some (some (p.window, p.deferred), cap', rng') ∧
      p.reassigned = ev.wasOrphan := by
  obtain ⟨⟨home, rng₁⟩, hhome, h⟩ := Option.bind_eq_some_iff.1 h
  cases home with
  | none => cases h
  | some entity =>
    obtain ⟨⟨placement, cap₁, rng₂⟩, hplace, h⟩ := Option.bind_eq_some_iff.1 h
    cases placement with
    | none => exact .inl (reassign_reassigned fuel h)
    | some x =>
      cases h
      exact .inr ⟨rng₁, hhome, hplace, rfl⟩

/-- A home with a free window keeps its event. -/
theorem place_home (h : cap.WellFormed entities windows) {e : Nat}
    (hhome : ev.home = ev.kind.bucketClass.home e) (he : e ∈ cap.hasFree)
    (hp : place fuel ev cap rng = some (some p, cap', rng')) : p.reassigned = ev.wasOrphan := by
  obtain ⟨window, deferred, cap₁, rng₁, htry, -⟩ := h.tryPlace_some he ev.window rng
  rw [place, hhome, homeEntity_home] at hp
  simp only [Option.bind_eq_bind, Option.bind_some, htry, Option.some.injEq, Prod.mk.injEq] at hp
  rw [← hp.1]

theorem place_loaded (h : cap.WellFormed entities windows) (hev : ev.Loaded)
    (hp : place fuel ev cap rng = some (some p, cap', rng')) :
    (p.reassigned = true ∧ ∀ e, ev.home = ev.kind.bucketClass.home e → e ∉ cap.hasFree) ∨
    (p.reassigned = false ∧ ev.home = ev.kind.bucketClass.home p.entity ∧ ∃ rng₁,
      cap.tryPlace p.entity ev.window rng₁ = some (some (p.window, p.deferred), cap', rng')) := by
  cases hr : p.reassigned with
  | true =>
    refine .inl ⟨rfl, fun e hhome he => ?_⟩
    have horphan := place_home h hhome he hp
    rw [hr] at horphan
    exact BucketClass.home_ne_unknown _ _ (hhome.symm.trans (hev.orphan.1 horphan.symm))
  | false =>
    obtain hp | ⟨rng₁, hentity, htry, horphan⟩ := place_cases hp
    · rw [hr] at hp; cases hp
    · refine .inr ⟨rfl, ?_, rng₁, htry⟩
      obtain hhome | ⟨e, hhome⟩ := hev.home
      · rw [hev.orphan.2 hhome, hr] at horphan; cases horphan
      · rw [hhome, homeEntity_home] at hentity
        cases hentity
        exact hhome

end place

theorem tally_flags (ev : LogicalEvent) (p : Placement) (stats : ReshapeStats) (hev : ev.Loaded) :
    (tally ev p stats).1.wasReassigned = p.reassigned ∧
      (tally ev p stats).1.wasDeferred = (p.deferred && !p.reassigned) ∧
      (tally ev p stats).1.wasOrphan = ev.wasOrphan ∧
      (tally ev p stats).2.excessByKind = stats.excessByKind ∧
      (tally ev p stats).2.deferredByKind = (if p.deferred && !p.reassigned then
        bump stats.deferredByKind ev.kind.kindIdx else stats.deferredByKind) ∧
      (tally ev p stats).2.reassignedByKind = (if p.reassigned then
        bump stats.reassignedByKind ev.kind.kindIdx else stats.reassignedByKind) := by
  cases hr : p.reassigned <;> cases hd : p.deferred <;>
    simp [tally, hr, hd, hev.deferred, hev.reassigned]

theorem noteExcess_counts (stats : ReshapeStats) (ev : LogicalEvent) :
    (stats.noteExcess ev).deferredByKind = stats.deferredByKind ∧
      (stats.noteExcess ev).reassignedByKind = stats.reassignedByKind := by
  unfold ReshapeStats.noteExcess
  split <;> exact ⟨rfl, rfl⟩

theorem noteExcess_lookup (stats : ReshapeStats) {ev : LogicalEvent}
    (horphan : ev.wasOrphan = true → ev.wasReassigned = true) (k : Fin 3) (id : String) :
    ((stats.noteExcess ev).excessByKind k).lookup id =
      if ev.kind.kindIdx = k ∧ ev.origIdString = id ∧ ev.adjusted then
        some (((stats.excessByKind k).lookup id).getD 0 + 1)
      else (stats.excessByKind k).lookup id := by
  have hadj : (ev.wasDeferred || ev.wasReassigned || ev.wasOrphan) = ev.adjusted := by
    rw [LogicalEvent.adjusted]
    cases ho : ev.wasOrphan with
    | false => simp
    | true => simp [horphan ho]
  unfold ReshapeStats.noteExcess
  simp only [hadj]
  cases ev.adjusted with
  | false => simp
  | true =>
    by_cases hk : ev.kind.kindIdx = k
    · subst hk
      by_cases hid : ev.origIdString = id
      · subst hid; simp
      · simp [hid, AList.lookup_insert_ne (Ne.symm hid)]
    · simp [hk, Function.update_of_ne (Ne.symm hk)]

theorem accept_counted {max : Nat} {ev ev' : LogicalEvent} {p : Placement}
    {stats stats' : ReshapeStats} {rng rng' : Rng} (hev : ev.Loaded)
    (horphan : ev.wasOrphan = true → p.reassigned = true)
    (h : accept max ev p stats rng = some (ev', stats', rng')) :
    ev'.wasReassigned = p.reassigned ∧ ev'.wasDeferred = (p.deferred && !p.reassigned) ∧
      Counted stats ev' stats' := by
  obtain ⟨hkind, -⟩ := tally_kept ev p stats
  obtain ⟨hr, hd, ho, hexcess, hdeferred, hreassigned⟩ := tally_flags ev p stats hev
  unfold accept at h
  generalize tally ev p stats = t at h hkind hr hd ho hexcess hdeferred hreassigned
  obtain ⟨ev₁, stats₁⟩ := t
  simp only at hkind hr hd ho hexcess hdeferred hreassigned
  obtain ⟨⟨us, rng₁⟩, -, h⟩ := Option.bind_eq_some_iff.1 h
  simp only [Option.some.injEq, Prod.mk.injEq] at h
  obtain ⟨rfl, rfl, -⟩ := h
  refine ⟨hr, hd, ?_, ?_, fun k id => ?_⟩
  · simp only [noteExcess_counts, hkind, hd, hdeferred]
  · simp only [noteExcess_counts, hkind, hr, hreassigned]
  · rw [← hexcess]
    exact noteExcess_lookup stats₁ (fun h => hr.trans (horphan (ho.symm.trans h))) k id

/-- What the pass does to an event: nothing is left to take, or it moves and is counted. -/
theorem reshapeOne_moved {max : Nat} {entities : List Nat} {s s' : Reshaping} {ev : LogicalEvent}
    {fuel : Nat} (h : (s.caps ev.kind.bucketClass).WellFormed entities (numWindows max))
    (hev : ev.Loaded) (hone : reshapeOne max (fuel + 1) s ev = some s') :
    (s'.surviving = s.surviving ∧ (s.caps ev.kind.bucketClass).hasFree = [] ∧
      s'.stats = { s.stats with
        droppedByKind := bump s.stats.droppedByKind ev.kind.kindIdx }) ∨
    ∃ ev', s'.surviving = s.surviving ++ [ev'] ∧
      Moved (numWindows max) (s.caps ev.kind.bucketClass) ev ev' ∧
      Counted s.stats ev' s'.stats := by
  by_cases hnil : (s.caps ev.kind.bucketClass).hasFree = []
  · rw [reshapeOne_saturated h hnil, Option.some.injEq] at hone
    subst hone
    exact .inl ⟨rfl, hnil, rfl⟩
  obtain ⟨p, cap', rng₁, hplace, htakes⟩ := place_free h hnil ev s.rng
  obtain ⟨ev', stats', rng', haccept, hkind, hslot, -⟩ := accept_eq ev htakes.lt s.stats rng₁
  have hrun : reshapeOne max (fuel + 1) s ev = some ⟨Function.update s.caps ev.kind.bucketClass cap',
      rng', stats', s.surviving ++ [ev']⟩ := by
    refine Option.bind_eq_some_iff.2 ⟨_, hplace fuel, ?_⟩
    exact Option.bind_eq_some_iff.2 ⟨_, haccept, rfl⟩
  rw [hrun, Option.some.injEq] at hone
  subst hone
  have hcases := place_loaded h hev (hplace fuel)
  have horphan : ev.wasOrphan = true → p.reassigned = true := by
    intro ho
    obtain ⟨hr, -⟩ | ⟨-, hhome, -⟩ := hcases
    · exact hr
    · exact absurd (hhome.symm.trans (hev.orphan.1 ho)) (BucketClass.home_ne_unknown _ _)
  obtain ⟨hr, hd, hcounted⟩ := accept_counted hev horphan haccept
  refine .inr ⟨ev', rfl, ?_, hcounted⟩
  have hhome' : ev'.home = ev.kind.bucketClass.home p.entity := congrArg (·.2.1) hslot
  have hwindow : ev'.window = p.window := congrArg (·.2.2) hslot
  obtain ⟨hre, haway⟩ | ⟨hre, hhome, rng₂, htry⟩ := hcases
  · exact .reassigned haway (by rw [hd, hre, Bool.not_true, Bool.and_false]) (hr.trans hre)
  · obtain ⟨htaken, hkept⟩ := Capacity.tryPlace_window htry
    rw [h.width] at htaken hkept
    rw [hre, Bool.not_false, Bool.and_true] at hd
    cases hdef : p.deferred with
    | false =>
      have he : p.entity ∈ (s.caps ev.kind.bucketClass).hasFree := by
        by_contra he
        rw [h.tryPlace_none he] at htry
        cases htry
      exact .kept p.entity hhome he (htaken.symm.trans hdef) (hhome'.trans hhome.symm)
        (hwindow.trans (hkept hdef)) (hd.trans hdef) (hr.trans hre)
    | true =>
      refine .deferred p.entity hhome (htaken.symm.trans hdef) (hhome'.trans hhome.symm) ?_
        (hwindow ▸ htakes.lt) (hd.trans hdef) (hr.trans hre)
      -- the window it got was free, the one it asked for was not
      rintro heq
      have hfree := htakes.free
      rw [← hwindow, heq] at hfree
      exact Bool.false_ne_true (hfree.symm.trans (htaken.symm.trans hdef))

/-- The event is past the last window, and its home has that window free. -/
def PastLast (windows : Nat) (cap : Capacity) (ev : LogicalEvent) : Prop :=
  windows ≤ ev.window ∧ ∃ e, ev.home = ev.kind.bucketClass.home e ∧
    (cap.used.lookup e).isSome ∧ cap.taken e (windows - 1) = false

/-- An event that is not marked is where it was. -/
def UnmarkedStays (ev ev' : LogicalEvent) : Prop :=
  ev'.wasDeferred = false → ev'.wasReassigned = false →
    ev'.home = ev.home ∧ ev'.window = ev.window

section moved

variable {windows : Nat} {cap : Capacity} {entities : List Nat} {ev ev' : LogicalEvent}

theorem PastLast.listed (h : cap.WellFormed entities windows) (hw : 0 < windows)
    (hpast : PastLast windows cap ev) :
    ∃ e ∈ cap.hasFree, ev.home = ev.kind.bucketClass.home e ∧
      cap.taken e (ev.preferred windows) = false := by
  obtain ⟨hle, e, hhome, hknown, hfree⟩ := hpast
  have hpref : ev.preferred windows = windows - 1 := by rw [LogicalEvent.preferred]; omega
  refine ⟨e, ?_, hhome, hpref ▸ hfree⟩
  obtain ⟨b, hb⟩ := Option.isSome_iff_exists.1 hknown
  rw [h.mem_hasFree]
  refine ⟨b, hb, ?_⟩
  by_contra hfull
  rw [Bool.not_eq_false, (h.bits e b hb).isFull_iff] at hfull
  rw [Capacity.taken, hb, Option.any_some, hfull _ (by omega)] at hfree
  cases hfree

theorem Moved.unmarkedStays_iff (h : cap.WellFormed entities windows) (hw : 0 < windows)
    (hm : Moved windows cap ev ev') : UnmarkedStays ev ev' ↔ ¬ PastLast windows cap ev := by
  constructor
  · intro hstays hpast
    obtain ⟨e, he, hhome, hfree⟩ := hpast.listed h hw
    cases hm with
    | kept e' _ _ _ _ hwindow hd hr =>
      have hsame := (hstays hd hr).2
      rw [hwindow, LogicalEvent.preferred] at hsame
      have := hpast.1
      omega
    | deferred e' hhome' hfull =>
      cases BucketClass.home_injective _ (hhome.symm.trans hhome')
      rw [hfree] at hfull
      cases hfull
    | reassigned haway => exact haway e hhome he
  · intro hnot hd hr
    cases hm with
    | kept e hhome he hfree hsame hwindow =>
      refine ⟨hsame, ?_⟩
      rw [LogicalEvent.preferred] at hwindow hfree
      rcases Nat.lt_or_ge ev.window windows with hlt | hge
      · omega
      · obtain ⟨b, hb, -⟩ := (h.mem_hasFree e).1 he
        rw [show min ev.window (windows - 1) = windows - 1 by omega] at hfree
        exact absurd ⟨hge, e, hhome, by rw [hb]; rfl, hfree⟩ hnot
    | deferred _ _ _ _ _ _ hd' => rw [hd] at hd'; cases hd'
    | reassigned _ _ hr' => rw [hr] at hr'; cases hr'

/-- A deferred event leaves its window, but not its home. -/
theorem Moved.of_deferred (hm : Moved windows cap ev ev') (hd : ev'.wasDeferred = true) :
    ev'.home = ev.home ∧ ev'.window ≠ ev.window := by
  cases hm with
  | kept _ _ _ _ _ _ hd' => rw [hd] at hd'; cases hd'
  | deferred e _ _ hsame hwindow hlt =>
    refine ⟨hsame, fun heq => hwindow ?_⟩
    rw [LogicalEvent.preferred]
    omega
  | reassigned _ hd' => rw [hd] at hd'; cases hd'

end moved

/-! ## The counters -/

/-- The events of a kind that carry a flag. -/
def countFlagged (flag : LogicalEvent → Bool) (k : Fin 3) (events : List LogicalEvent) : Nat :=
  events.countP fun ev => decide (ev.kind.kindIdx = k) && flag ev

theorem countFlagged_concat (flag : LogicalEvent → Bool) (k : Fin 3) (events : List LogicalEvent)
    (ev : LogicalEvent) : countFlagged flag k (events ++ [ev]) =
      countFlagged flag k events + if ev.kind.kindIdx = k ∧ flag ev then 1 else 0 := by
  simp [countFlagged, List.countP_append, List.countP_singleton]

structure Tallied (stats : ReshapeStats) (surviving : List LogicalEvent) : Prop where
  deferred : ∀ k, stats.deferredByKind k = countFlagged (·.wasDeferred) k surviving
  reassigned : ∀ k, stats.reassignedByKind k = countFlagged (·.wasReassigned) k surviving
  excess : ∀ k id, ((stats.excessByKind k).lookup id).getD 0 =
    countFlagged (fun ev => decide (ev.origIdString = id) && ev.adjusted) k surviving

theorem bump_if (count : Fin 3 → Nat) (k j : Fin 3) (flag : Bool) :
    (if flag then bump count k else count) j = count j + if k = j ∧ flag then 1 else 0 := by
  cases flag <;> simp [bump_apply]

theorem Tallied.counted {stats stats' : ReshapeStats} {surviving : List LogicalEvent}
    {ev' : LogicalEvent} (h : Tallied stats surviving) (hc : Counted stats ev' stats') :
    Tallied stats' (surviving ++ [ev']) where
  deferred k := by rw [hc.deferred, bump_if, countFlagged_concat, h.deferred]
  reassigned k := by rw [hc.reassigned, bump_if, countFlagged_concat, h.reassigned]
  excess k id := by
    rw [hc.excess, countFlagged_concat, ← h.excess]
    simp only [Bool.and_eq_true, decide_eq_true_eq]
    split <;> rfl

/-! ## The pass -/

section pass

variable (max : Nat) (scids snapshotNodes : List Nat) (rng : Rng)

/-- The state after `before`. -/
def passState (before : List LogicalEvent) : Option Reshaping :=
  before.foldlM (reshapeOne max 1) (.start scids snapshotNodes (numWindows max) rng)

/-- `ev`, coming after `before`, survives as `ev'`. -/
def SurvivesAs (before : List LogicalEvent) (ev ev' : LogicalEvent) : Prop :=
  ∃ s s', passState max scids snapshotNodes rng before = some s ∧
    reshapeOne max 1 s ev = some s' ∧ s'.surviving = s.surviving ++ [ev']

/-- Flags and counters say what became of the events. -/
def FlagsTruthful (events : List LogicalEvent) : Prop := ∃ out stats,
  (∀ fuel, reshape (fuel + 1) events scids snapshotNodes (numWindows max) max rng =
    some (out, stats)) ∧
  (∀ ev' ∈ out, ∃ before ev, before ++ [ev] <+: events ∧
    SurvivesAs max scids snapshotNodes rng before ev ev') ∧
  (∀ before ev ev', before ++ [ev] <+: events →
    SurvivesAs max scids snapshotNodes rng before ev ev' → UnmarkedStays ev ev' ∧
      (ev'.wasDeferred = true → ev'.home = ev.home ∧ ev'.window ≠ ev.window)) ∧
  Tallied stats out

variable {max scids snapshotNodes rng}

theorem passState_concat (before : List LogicalEvent) (ev : LogicalEvent) :
    passState max scids snapshotNodes rng (before ++ [ev]) =
      (passState max scids snapshotNodes rng before).bind fun s => reshapeOne max 1 s ev := by
  simp [passState, List.foldlM_append, Option.bind_eq_bind]

theorem passState_shaped {before : List LogicalEvent} {s : Reshaping}
    (hs : passState max scids snapshotNodes rng before = some s) :
    Shaped max (classEntities scids snapshotNodes) before s := by
  obtain ⟨s', hrun, hshaped⟩ := shaped_run max scids snapshotNodes rng before
  cases hs.symm.trans (hrun 0)
  exact hshaped

/-- Every survivor stems from an event, and is counted by its flags. -/
theorem tallied_run {events : List LogicalEvent} (hloaded : ∀ ev ∈ events, ev.Loaded)
    {s : Reshaping} (hs : passState max scids snapshotNodes rng events = some s) :
    Tallied s.stats s.surviving ∧ ∀ ev' ∈ s.surviving, ∃ before ev,
      before ++ [ev] <+: events ∧ SurvivesAs max scids snapshotNodes rng before ev ev' := by
  induction events using List.reverseRecOn generalizing s with
  | nil =>
    cases hs
    exact ⟨⟨fun _ => rfl, fun _ => rfl, fun _ _ => rfl⟩, fun _ h => by cases h⟩
  | append_singleton events ev ih =>
    rw [passState_concat] at hs
    obtain ⟨s₀, hs₀, hone⟩ := Option.bind_eq_some_iff.1 hs
    obtain ⟨htallied, horigin⟩ := ih (fun x hx => hloaded x (List.mem_append_left _ hx)) hs₀
    have hev := hloaded ev (List.mem_append_right _ (List.mem_singleton_self _))
    have hlonger : ∀ ev' ∈ s₀.surviving, ∃ before ev₀, before ++ [ev₀] <+: events ++ [ev] ∧
        SurvivesAs max scids snapshotNodes rng before ev₀ ev' := by
      intro ev' hev'
      obtain ⟨before, ev₀, hpre, hsurvives⟩ := horigin ev' hev'
      exact ⟨before, ev₀, hpre.trans (List.prefix_append ..), hsurvives⟩
    obtain ⟨hsurv, -, hstats⟩ | ⟨ev', hsurv, -, hcounted⟩ :=
      reshapeOne_moved ((passState_shaped hs₀).caps _) hev hone
    · rw [hsurv, hstats]
      exact ⟨⟨htallied.deferred, htallied.reassigned, htallied.excess⟩, hlonger⟩
    · rw [hsurv]
      refine ⟨htallied.counted hcounted, fun x hx => ?_⟩
      rcases List.mem_append.1 hx with hx | hx
      · exact hlonger x hx
      · cases List.mem_singleton.1 hx
        exact ⟨events, ev, List.prefix_rfl, s₀, s, hs₀, hone, hsurv⟩

theorem PastLast.untruthful {events before : List LogicalEvent} {ev : LogicalEvent} {s : Reshaping}
    (hpast : PastLast (numWindows max) (s.caps ev.kind.bucketClass) ev) (hev : ev.Loaded)
    (hpre : before ++ [ev] <+: events)
    (hs : passState max scids snapshotNodes rng before = some s) :
    ¬ FlagsTruthful max scids snapshotNodes rng events := by
  rintro ⟨out, stats, -, -, htruth, -⟩
  have hcaps := (passState_shaped hs).caps ev.kind.bucketClass
  have hw := numWindows_pos max
  obtain ⟨s', hone, -⟩ := (passState_shaped hs).step ev
  obtain ⟨-, hnil, -⟩ | ⟨ev', hsurv, hm, -⟩ := reshapeOne_moved hcaps hev (hone 0)
  · obtain ⟨e, he, -⟩ := hpast.listed hcaps hw
    rw [hnil] at he
    cases he
  · have hstays := (htruth before ev ev' hpre ⟨s, s', hs, hone 0, hsurv⟩).1
    exact (hm.unmarkedStays_iff hcaps hw).1 hstays hpast

/-- Flags and counters are right if and only if no event at its turn is past the last window
with a home that has that window free. -/
theorem flagsTruthful_iff (max : Nat) (scids snapshotNodes : List Nat) (rng : Rng)
    (events : List LogicalEvent) (hloaded : ∀ ev ∈ events, ev.Loaded) :
    FlagsTruthful max scids snapshotNodes rng events ↔ ∀ before ev s,
      before ++ [ev] <+: events → passState max scids snapshotNodes rng before = some s →
        ¬ PastLast (numWindows max) (s.caps ev.kind.bucketClass) ev := by
  have hev : ∀ {before ev}, before ++ [ev] <+: events → ev.Loaded := fun hpre =>
    hloaded _ (hpre.subset (List.mem_append_right _ (List.mem_singleton_self _)))
  constructor
  · intro htruth before ev s hpre hs hpast
    exact hpast.untruthful (hev hpre) hpre hs htruth
  · intro hnot
    obtain ⟨s, hrun, -⟩ := shaped_run max scids snapshotNodes rng events
    obtain ⟨htallied, horigin⟩ := tallied_run hloaded (hrun 0)
    refine ⟨s.surviving, s.stats, fun fuel => by rw [reshape, hrun]; rfl, horigin, ?_, htallied⟩
    rintro before ev ev' hpre ⟨s₁, s₂, hs₁, hone, hsurv⟩
    have hcaps := (passState_shaped hs₁).caps ev.kind.bucketClass
    obtain ⟨hsame, -⟩ | ⟨ev₂, hsurv₂, hm, -⟩ := reshapeOne_moved hcaps (hev hpre) hone
    · rw [hsame] at hsurv
      exact absurd (congrArg List.length hsurv) (by simp)
    · cases List.append_cancel_left (hsurv.symm.trans hsurv₂)
      exact ⟨(hm.unmarkedStays_iff hcaps (numWindows_pos max)).2 (hnot before ev s₁ hpre hs₁),
        hm.of_deferred⟩

end pass

/-- A node announcement in the partial window of a run of 1000 s, which has one whole window. -/
def lateEvent : LogicalEvent where
  delay := 700 * NS_PER_SEC
  home := .node 7
  kind := .nodeAnnouncement
  sizeBytes := 140
  origIdString := "02aa"
  wasOrphan := false
  wasDeferred := false
  wasReassigned := false

theorem lateEvent_loaded : lateEvent.Loaded :=
  ⟨rfl, rfl, by simp [lateEvent], .inr ⟨7, rfl⟩⟩

/-- The first whole window takes the event, and it carries no mark. -/
theorem flags_untruthful_late :
    ¬ FlagsTruthful (1000 * NS_PER_SEC) [] [7] ⟨fun _ => 0, 0⟩ [lateEvent] := by
  have hs : passState (1000 * NS_PER_SEC) [] [7] ⟨fun _ => 0, 0⟩ [] =
      some (.start [] [7] (numWindows (1000 * NS_PER_SEC)) ⟨fun _ => 0, 0⟩) := rfl
  have hpre : [] ++ [lateEvent] <+: [lateEvent] := List.prefix_rfl
  refine PastLast.untruthful ⟨?_, 7, rfl, ?_, ?_⟩ lateEvent_loaded hpre hs <;> decide

/-- In a run of 1200 s the event is in the last whole window. It comes three times: the first one
stays, the second one is deferred, and the third one is reassigned, all with their marks. -/
theorem flagsTruthful_iff_sample :
    FlagsTruthful (1200 * NS_PER_SEC) [] [7, 8] ⟨fun _ => 0, 0⟩ (List.replicate 3 lateEvent) ∧
    ((reshape 1 (List.replicate 3 lateEvent) [] [7, 8] 2 (1200 * NS_PER_SEC)
      ⟨fun _ => 0, 0⟩).map fun r =>
        r.1.map fun ev => (ev.home, ev.window, ev.wasDeferred, ev.wasReassigned)) =
      some [(.node 7, 1, false, false), (.node 7, 0, true, false), (.node 8, 1, false, true)] := by
  refine ⟨(flagsTruthful_iff _ _ _ _ _ fun ev hev => ?_).2 fun before ev s hpre _ hpast => ?_,
    by decide +kernel⟩
  · cases List.eq_of_mem_replicate hev
    exact lateEvent_loaded
  · have hev : ev ∈ List.replicate 3 lateEvent :=
      hpre.subset (List.mem_append_right _ (List.mem_singleton_self _))
    cases List.eq_of_mem_replicate hev
    exact absurd hpast.1 (by decide)

end LnConv
