import LnConv.Tracker
import Mathlib.Data.List.Dedup

/-!
# Every message is finalised once

Where an id always stands for the same message and no tuple carries the sentinel time,
the aggregator emits one row for every id it saw.
-/

namespace LnConv

/-- Tuples of one id carry the same message. -/
def SameIdentity {n : Nat} (l : List (Sighting n)) : Prop :=
  ∀ x ∈ l, ∀ y ∈ l, x.gossip.id = y.gossip.id → x.gossip.kind = y.gossip.kind ∧
    x.gossip.scid = y.gossip.scid ∧ x.gossip.direction = y.gossip.direction ∧
    x.gossip.timestamp = y.gossip.timestamp

/-- What the first tuple of each id says. -/
def Identity.ofSightings {n : Nat} (l : List (Sighting n)) : Identity where
  key i := (l.find? fun x => x.gossip.id = i).bind fun x => x.gossip.chanKey
  version i := ((l.find? fun x => x.gossip.id = i).map fun x => x.gossip.timestamp).getD 0

theorem SameIdentity.fits {n : Nat} {l : List (Sighting n)} (h : SameIdentity l) :
    ∀ x ∈ l, (Identity.ofSightings l).Fits x := by
  intro x hx
  have hfind : (l.find? fun y => y.gossip.id = x.gossip.id).isSome :=
    List.find?_isSome.2 ⟨x, hx, by simp⟩
  obtain ⟨y, hy⟩ := Option.isSome_iff_exists.1 hfind
  have hid : y.gossip.id = x.gossip.id := by simpa using List.find?_some hy
  obtain ⟨hkind, hscid, hdir, hts⟩ := h x hx y (List.mem_of_find?_eq_some hy) hid.symm
  simp only [Identity.Fits, Identity.ofSightings, hy, Option.bind_some, Option.map_some,
    Option.getD_some, hts, and_true]
  simp only [Gossip.chanKey, hscid, hkind, hdir]

/-! ## Coverage counts filled slots -/

section Coverage

variable {n : Nat} {I : Identity}

def MsgInflight.filled (m : MsgInflight n) : Nat :=
  (Finset.univ.filter fun v => m.times v ≠ NOT_SEEN).card

theorem MsgInflight.filled_see {m : MsgInflight n} {v : Fin n} {ns : Nat}
    (hv : m.times v = NOT_SEEN) (hns : ns ≠ NOT_SEEN) : (m.see v ns).filled = m.filled + 1 := by
  have hset : (Finset.univ.filter fun w => (m.see v ns).times w ≠ NOT_SEEN) =
      insert v (Finset.univ.filter fun w => m.times w ≠ NOT_SEEN) := by
    ext w
    simp only [Finset.mem_filter, Finset.mem_univ, true_and, Finset.mem_insert]
    by_cases hw : w = v
    · subst hw; simp [see, hns]
    · simp [see, hw]
  rw [filled, hset, Finset.card_insert_of_notMem (by simp [hv]), filled]

theorem MsgInflight.filled_le (m : MsgInflight n) : m.filled ≤ n :=
  (Finset.card_le_univ _).trans (by simp)

theorem MsgInflight.length_sorted (m : MsgInflight n) : m.sorted.length = m.filled := by
  rw [sorted, List.length_insertionSort, List.filter_map, List.length_map, filled]
  rfl

theorem percentileEntry_isSome {P : Type} [PctIndex P] (k coverage originNs : Nat)
    (sorted : List Nat) (p : P) : (percentileEntry k coverage originNs sorted p).isSome ↔
      (PctIndex.pctToIndex p k < coverage → PctIndex.pctToIndex p k < sorted.length) := by
  unfold percentileEntry
  dsimp only
  split
  · next hlt => simp [hlt]
  · next hge => simp [hge]

/-- A row is there unless a percentile looks past the filled slots. -/
theorem finalizeMsg_isSome {P : Type} [PctIndex P] {m : MsgInflight n} {i : MsgId} {ps : List P} :
    (finalizeMsg i m ps).isSome ↔ ∀ p ∈ ps, PctIndex.pctToIndex p n < m.coverage →
      PctIndex.pctToIndex p n < m.filled := by
  have hps : (finalizeMsg i m ps).isSome ↔
      (ps.mapM (percentileEntry n m.coverage m.originNs m.sorted)).isSome := by
    rw [finalizeMsg]
    cases ps.mapM (percentileEntry n m.coverage m.originNs m.sorted) <;> simp
  rw [hps]
  clear hps
  induction ps with
  | nil => simp
  | cons p ps ih =>
    have hp := percentileEntry_isSome n m.coverage m.originNs m.sorted p
    rw [m.length_sorted] at hp
    rw [List.forall_mem_cons, List.mapM_cons]
    refine Iff.trans ?_ (and_congr hp ih)
    cases percentileEntry n m.coverage m.originNs m.sorted p <;>
      cases ps.mapM (percentileEntry n m.coverage m.originNs m.sorted) <;> simp

/-- What a phase says of its message's coverage. -/
def Phase.Counted : Phase n → Prop
  | unseen => True
  | live m => m.coverage = m.filled ∧ 0 < m.coverage ∧ m.coverage < n
  | closed m _ => m.coverage = m.filled

theorem Phase.counted_ofInflight {m : MsgInflight n} {v : Fin n} {ns : Nat}
    (hm : m.coverage = m.filled) (hv : m.times v = NOT_SEEN) (hns : ns ≠ NOT_SEEN) :
    (Phase.ofInflight (m.see v ns)).Counted := by
  have hcov : (m.see v ns).coverage = (m.see v ns).filled := by
    rw [MsgInflight.filled_see hv hns, ← hm]; rfl
  have hle := (m.see v ns).filled_le
  unfold ofInflight
  split
  · exact hcov
  · exact ⟨hcov, Nat.succ_pos _, by omega⟩

theorem Phase.Counted.record {p : Phase n} (h : p.Counted) {x : Sighting n}
    (hx : x.timeNs ≠ NOT_SEEN) : (p.record x).Counted := by
  cases p with
  | unseen =>
    refine counted_ofInflight ?_ rfl hx
    simp [MsgInflight.new, MsgInflight.filled]
  | live m =>
    simp only [Phase.record]
    split
    · exact h
    · next hv => exact counted_ofInflight h.1 (not_not.1 hv) hx
  | closed m b => exact h

theorem Tracker.counted_run {l : List (Sighting n)} (hl : ∀ x ∈ l, x.timeNs ≠ NOT_SEEN) (i : MsgId) :
    ((Tracker.run I l).phase i).Counted := by
  induction l using List.reverseRecOn generalizing i with
  | nil => trivial
  | append_singleton l x ih =>
    have ih := ih fun y hy => hl y (List.mem_append_left _ hy)
    have hx := hl x (List.mem_append_right _ (List.mem_singleton.2 rfl))
    rw [Tracker.run_concat]
    by_cases hc : ((run I l).phase x.gossip.id).isClosed
    · simpa [step, hc] using ih i
    · simp only [Bool.not_eq_true] at hc
      by_cases hi : i = x.gossip.id
      · subst hi
        rw [phase_step_self hc]
        exact (ih _).record hx
      · rw [phase_step_of_ne hc hi]
        have hp := ih i
        rcases phase_advance I (run I l) x.gossip.id i with ha | ha <;> rw [ha]
        · exact hp
        · cases hq : (run I l).phase i <;> simp_all [Phase.close, Phase.Counted]

theorem Tracker.not_fails_of_counted {P : Type} [PctIndex P] {ps : List P} {t : Tracker n}
    (h : ∀ i, (t.phase i).Counted) : ¬ t.Fails ps := by
  rintro ⟨i, m, b, hi, hm⟩
  have hc := h i
  rw [hi] at hc
  have hsome : (finalizeMsg i m ps).isSome := finalizeMsg_isSome.2 fun p _ hp => by
    rwa [← show m.coverage = m.filled from hc]
  rw [hm] at hsome
  cases hsome

end Coverage

/-! ## Finalised once -/

section Final

variable {P : Type} [PctIndex P] {n : Nat}

/-- The scids and directions that `pack_cu_key` keeps apart. -/
def Sighting.Packs (x : Sighting n) : Prop :=
  (∀ s ∈ x.gossip.scid, s < 2 ^ 63) ∧ x.gossip.direction ≤ 1

/-- A state between two tuples: what is in flight after `seen`. -/
structure InFlightOf (seen : List (Sighting n)) (s : AggregatorState P n) : Prop where
  disjoint : ∀ i ∈ s.finalized, s.inFlight.lookup i = none
  coverage : ∀ i m, s.inFlight.lookup i = some m →
    m.coverage = m.filled ∧ 0 < m.coverage ∧ m.coverage < n
  byChannel : (∀ x ∈ seen, x.Packs) → ∀ scid < 2 ^ 63, ∀ direction ≤ 1, ∀ i,
    i ∈ (s.inflightByChannel.lookup (packCuKey scid direction)).getD [] ↔
      (s.inFlight.lookup i).isSome ∧ ∃ x ∈ seen, x.gossip.id = i ∧
        x.gossip.kind = .channelUpdate ∧ x.gossip.scid = some scid ∧ x.gossip.direction = direction

theorem chanKey_eq_packCuKey {x : Sighting n} (hx : x.Packs) {scid direction : Nat}
    (hs : scid < 2 ^ 63) (hd : direction ≤ 1) :
    x.gossip.chanKey = some (packCuKey scid direction) ↔ x.gossip.kind = .channelUpdate ∧
      x.gossip.scid = some scid ∧ x.gossip.direction = direction := by
  unfold Gossip.chanKey
  cases hsc : x.gossip.scid with
  | none => simp
  | some s =>
    by_cases hk : x.gossip.kind = .channelUpdate
    · simp [hk, packCuKey_inj (hx.1 s hsc) hx.2 hs hd]
    · simp [hk]

theorem Tracks.inFlightOf {ps : List P} {I : Identity} {l : List (Sighting n)}
    {s : AggregatorState P n} (h : Tracks ps I s (.run I l)) (hl : ∀ x ∈ l, I.Fits x)
    (ht : ∀ x ∈ l, x.timeNs ≠ NOT_SEEN) : InFlightOf l s where
  disjoint i hi := by
    rw [h.inFlight]
    rw [h.finalized] at hi
    cases hp : (Tracker.run I l).phase i <;> simp_all [Phase.isClosed, Phase.live?]
  coverage i m hm := by
    rw [h.inFlight] at hm
    have hc := Tracker.counted_run (I := I) ht i
    cases hp : (Tracker.run I l).phase i with
    | live m' => rw [hp] at hm hc; cases hm; exact hc
    | unseen => rw [hp] at hm; cases hm
    | closed m' b => rw [hp] at hm; cases hm
  byChannel hpk scid hs direction hd i := by
    rw [h.mem_byChannel, h.inFlight, and_comm]
    refine and_congr_right fun hlive => ⟨fun hk => ?_, ?_⟩
    · obtain ⟨x, hx, rfl⟩ : ∃ x ∈ l, x.gossip.id = i := by
        by_contra hno
        push Not at hno
        rw [Tracker.phase_run_eq_unseen.2 hno] at hlive
        cases hlive
      exact ⟨x, hx, rfl, (chanKey_eq_packCuKey (hpk x hx) hs hd).1 ((hl x hx).1.trans hk)⟩
    · rintro ⟨x, hx, rfl, hx'⟩
      exact (hl x hx).1.symm.trans ((chanKey_eq_packCuKey (hpk x hx) hs hd).2 hx')

/-- One row for every id that occurs, and no panic; and what holds on the way. -/
theorem finalised_exactly_once (ps : List P) {bs : List (Fin n × List FirstSeenEntry)}
    (hid : SameIdentity (sightings bs)) (ht : ∀ x ∈ sightings bs, x.timeNs < NOT_SEEN) :
    (∃ s, AggregatorState.aggregate ps bs = some s ∧
      (s.mirror.map MsgStats.id).Perm ((sightings bs).map fun x => x.gossip.id).dedup ∧
      s.finalizedCount = ((sightings bs).map fun x => x.gossip.id).dedup.length) ∧
    ∀ seen, seen <+: sightings bs → ∃ s : AggregatorState P n,
      AggregatorState.handleSightings { percentiles := ps } seen = some s ∧ InFlightOf seen s := by
  set I := Identity.ofSightings (sightings bs)
  have hfits : ∀ x ∈ sightings bs, I.Fits x := hid.fits
  have hseen : ∀ x ∈ sightings bs, x.timeNs ≠ NOT_SEEN := fun x hx => (ht x hx).ne
  constructor
  · obtain ⟨hsome, hnone⟩ := aggregate_tracks ps hfits
    cases hs : AggregatorState.aggregate ps bs with
    | none =>
      refine absurd (hnone hs) (Tracker.not_fails_of_counted fun i => ?_)
      have hc := Tracker.counted_run (I := I) hseen i
      cases hp : (Tracker.run I (sightings bs)).phase i <;>
        simp_all [Tracker.drain, Phase.drain, Phase.Counted]
    | some s =>
      obtain ⟨hrows, -⟩ := hsome s hs
      have hperm : (s.mirror.map MsgStats.id).Perm
          ((sightings bs).map fun x => x.gossip.id).dedup := by
        rw [hrows.ids, List.perm_ext_iff_of_nodup hrows.nodup (List.nodup_dedup _)]
        intro i
        rw [hrows.finalized, List.mem_dedup, List.mem_map]
        have hun := Tracker.phase_run_eq_unseen (I := I) (l := sightings bs) (i := i)
        cases hp : (Tracker.run I (sightings bs)).phase i <;>
          simp_all [Tracker.drain, Phase.drain, Phase.isClosed]
      exact ⟨s, rfl, hperm, by rw [hrows.count, ← hrows.ids, hperm.length_eq]⟩
  · intro seen hpre
    have hsub : ∀ x ∈ seen, x ∈ sightings bs := fun x hx => hpre.subset hx
    obtain ⟨hsome, hnone⟩ := tracks_run ps (l := seen) fun x hx =>
      hfits x (hsub x hx)
    have ht' : ∀ x ∈ seen, x.timeNs ≠ NOT_SEEN := fun x hx => hseen x (hsub x hx)
    cases hs : AggregatorState.handleSightings (n := n) { percentiles := ps } seen with
    | none =>
      exact absurd (hnone hs) (Tracker.not_fails_of_counted (Tracker.counted_run ht'))
    | some s => exact ⟨s, rfl, (hsome s hs).inFlightOf (fun x hx => hfits x (hsub x hx)) ht'⟩

end Final

/-! ## Samples -/

/-- An update of channel `scid`, under the id `id`. -/
def updateOf (id scid timestamp : Nat) : Gossip :=
  ⟨id, none, .channelUpdate, 130, some scid, 0, timestamp⟩

/-- Node 1 flushes both versions of an update before node 0 does. -/
def twoVersions : List (Fin 2 × List FirstSeenEntry) :=
  [(1, [⟨updateOf 1 7 10, 120⟩, ⟨updateOf 2 7 20, 220⟩]),
    (0, [⟨updateOf 1 7 10, 100⟩, ⟨updateOf 2 7 20, 200⟩])]

theorem finalised_exactly_once_sample : ∃ s, AggregatorState.aggregate [(⟨50⟩ : Percent)]
    twoVersions = some s ∧ (s.mirror.map MsgStats.id).Perm [1, 2] ∧ s.finalizedCount = 2 := by
  have hid : SameIdentity (sightings twoVersions) := by unfold SameIdentity; decide
  have ht : ∀ x ∈ sightings twoVersions, x.timeNs < NOT_SEEN := by decide
  obtain ⟨⟨s, hs, hperm, hcount⟩, -⟩ := finalised_exactly_once [(⟨50⟩ : Percent)] hid ht
  exact ⟨s, hs, hperm, hcount⟩

def sentinelTime : List (Fin 1 × List FirstSeenEntry) := [(0, [⟨updateOf 1 7 10, NOT_SEEN⟩])]

def wideScid : List (Sighting 2) := [⟨0, updateOf 1 0 10, 100⟩, ⟨0, updateOf 2 (2 ^ 63) 10, 100⟩]

/-- A time that is the sentinel leaves the slot empty and the lookup fails; a scid of
64 bits shares the key of another. -/
theorem sentinel_panics_wide_scid_collides :
    (SameIdentity (sightings sentinelTime) ∧
      AggregatorState.aggregate [(⟨50⟩ : Percent)] sentinelTime = none) ∧
    SameIdentity wideScid ∧ ∃ s : AggregatorState Percent 2,
      AggregatorState.handleSightings { percentiles := [] } wideScid = some s ∧
        2 ∈ (s.inflightByChannel.lookup (packCuKey 0 0)).getD [] := by
  have hwide : ((AggregatorState.handleSightings (n := 2) { percentiles := ([] : List Percent) }
      wideScid).any fun s => decide (2 ∈ (s.inflightByChannel.lookup (packCuKey 0 0)).getD [])) =
        true := by
    decide +kernel
  obtain ⟨s, hs, hmem⟩ := (Option.any_eq_true _ _).1 hwide
  refine ⟨⟨by unfold SameIdentity; decide, ?_⟩, by unfold SameIdentity; decide,
    s, hs, of_decide_eq_true hmem⟩
  have hnone : (AggregatorState.aggregate [(⟨50⟩ : Percent)] sentinelTime).isNone = true := by
    decide +kernel
  exact Option.isNone_iff_eq_none.1 hnone

end LnConv
