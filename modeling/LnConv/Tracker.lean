import LnConv.Aggregator
import Mathlib.Data.Fintype.Card

/-!
# What the aggregator tracks

A message is unseen, live or closed, and a channel key has the latest version seen.
`Tracker` keeps just that, as functions; `Tracks` relates it to the aggregator's maps
and counters, and every step of the aggregator is a step of the tracker. What the
tracker does to a key depends on the sightings of this key alone.
-/

namespace LnConv

/-- A first-seen tuple with the node it comes from. -/
structure Sighting (n : Nat) where
  node : Fin n
  gossip : Gossip
  timeNs : Nat
  deriving DecidableEq

/-- The tuples of a queue of batches, in the order they are handled. -/
def sightings {n : Nat} (batches : List (Fin n × List FirstSeenEntry)) : List (Sighting n) :=
  batches.flatMap fun b => b.2.map fun e => ⟨b.1, e.gossip, e.timeNs⟩

/-- What an id stands for, as far as the aggregator reads it. -/
structure Identity where
  key : MsgId → Option Nat
  version : MsgId → Nat

def Identity.Fits {n : Nat} (I : Identity) (x : Sighting n) : Prop :=
  x.gossip.chanKey = I.key x.gossip.id ∧ x.gossip.timestamp = I.version x.gossip.id

inductive Phase (n : Nat) where
  | unseen
  | live (m : MsgInflight n)
  | closed (m : MsgInflight n) (superseded : Bool)

namespace Phase

variable {n : Nat}

def live? : Phase n → Option (MsgInflight n)
  | live m => some m
  | _ => none

def isClosed : Phase n → Bool
  | closed _ _ => true
  | _ => false

def isSuperseded : Phase n → Bool
  | closed _ b => b
  | _ => false

/-- A newer version comes in. -/
def close : Phase n → Phase n
  | live m => closed m true
  | p => p

/-- The run ends. -/
def drain : Phase n → Phase n
  | live m => closed m false
  | p => p

def ofInflight (m : MsgInflight n) : Phase n := if m.coverage = n then closed m false else live m

def record (x : Sighting n) : Phase n → Phase n
  | unseen => ofInflight ((MsgInflight.new n x.timeNs x.gossip.sizeBytes).see x.node x.timeNs)
  | live m => if m.times x.node ≠ NOT_SEEN then live m else ofInflight (m.see x.node x.timeNs)
  | closed m b => closed m b

end Phase

structure Tracker (n : Nat) where
  latest : Nat → Option Nat
  phase : MsgId → Phase n

namespace Tracker

variable {n : Nat} (I : Identity)

def init : Tracker n := ⟨fun _ => none, fun _ => .unseen⟩

/-- Closes what is live under a key, except `id`. -/
def supersede (t : Tracker n) (k : Nat) (id : MsgId) : Tracker n where
  latest := Function.update t.latest k (some (I.version id))
  phase i := if i ≠ id ∧ I.key i = some k then (t.phase i).close else t.phase i

/-- A version newer than the latest of its key supersedes. -/
def advance (t : Tracker n) (id : MsgId) : Tracker n :=
  match I.key id with
  | some k => if (t.latest k).all (· < I.version id) then t.supersede I k id else t
  | none => t

def step (t : Tracker n) (x : Sighting n) : Tracker n :=
  let id := x.gossip.id
  if (t.phase id).isClosed then t
  else
    let t := t.advance I id
    { t with phase := Function.update t.phase id ((t.phase id).record x) }

def run (l : List (Sighting n)) : Tracker n := l.foldl (step I) init

def drain (t : Tracker n) : Tracker n := { t with phase := fun i => (t.phase i).drain }

/-- Some closed message has no row. -/
def Fails {P : Type} [PctIndex P] (ps : List P) (t : Tracker n) : Prop :=
  ∃ i m b, t.phase i = .closed m b ∧ finalizeMsg i m ps = none

/-- Closing a message, on its way through `finalize`. -/
def closeAt (t : Tracker n) (i : MsgId) (m : MsgInflight n) (superseded : Bool) : Tracker n :=
  { t with phase := Function.update t.phase i (.closed m superseded) }

variable {I} {t : Tracker n} {x : Sighting n} {i : MsgId}

theorem phase_advance_self (id : MsgId) : (t.advance I id).phase id = t.phase id := by
  unfold advance
  split
  · split
    · simp [supersede]
    · rfl
  · rfl

/-- What is live may be closed, the rest stays. -/
theorem phase_advance (I : Identity) (t : Tracker n) (id i : MsgId) :
    (t.advance I id).phase i = t.phase i ∨ (t.advance I id).phase i = (t.phase i).close := by
  unfold advance
  split
  · split
    · simp only [supersede]
      split
      · exact .inr rfl
      · exact .inl rfl
    · exact .inl rfl
  · exact .inl rfl

theorem phase_advance_of_closed {id : MsgId} (h : (t.phase i).isClosed) :
    (t.advance I id).phase i = t.phase i := by
  rcases phase_advance I t id i with ha | ha
  · exact ha
  · rw [ha]
    cases hp : t.phase i <;> simp_all [Phase.isClosed, Phase.close]

theorem phase_step_self (h : (t.phase x.gossip.id).isClosed = false) :
    (t.step I x).phase x.gossip.id = (t.phase x.gossip.id).record x := by
  simp [step, h, phase_advance_self]

theorem phase_step_of_ne (h : (t.phase x.gossip.id).isClosed = false) (hi : i ≠ x.gossip.id) :
    (t.step I x).phase i = (t.advance I x.gossip.id).phase i := by
  simp [step, h, hi]

theorem phase_step_of_closed (h : (t.phase i).isClosed) : (t.step I x).phase i = t.phase i := by
  by_cases hx : (t.phase x.gossip.id).isClosed
  · simp [step, hx]
  · have hne : i ≠ x.gossip.id := by rintro rfl; exact hx h
    rw [phase_step_of_ne (by simpa using hx) hne, phase_advance_of_closed h]

theorem Fails.step {P : Type} [PctIndex P] {ps : List P} (h : t.Fails ps) :
    (t.step I x).Fails ps := by
  obtain ⟨i, m, b, hi, hm⟩ := h
  exact ⟨i, m, b, by rw [phase_step_of_closed (by rw [hi]; rfl), hi], hm⟩

theorem run_concat (l : List (Sighting n)) (x : Sighting n) :
    run I (l ++ [x]) = (run I l).step I x := List.foldl_append

theorem ofInflight_ne_unseen (m : MsgInflight n) : Phase.ofInflight m ≠ .unseen := by
  unfold Phase.ofInflight
  split <;> exact fun h => nomatch h

theorem record_ne_unseen (p : Phase n) : p.record x ≠ .unseen := by
  cases p with
  | unseen => exact ofInflight_ne_unseen _
  | live m =>
    simp only [Phase.record]
    split
    · exact fun h => nomatch h
    · exact ofInflight_ne_unseen _
  | closed m b => exact fun h => nomatch h

theorem isSuperseded_ofInflight (m : MsgInflight n) : (Phase.ofInflight m).isSuperseded = false := by
  unfold Phase.ofInflight
  split <;> rfl

theorem isSuperseded_record {p : Phase n} (h : p.isClosed = false) :
    (p.record x).isSuperseded = false := by
  cases p with
  | unseen => exact isSuperseded_ofInflight _
  | live m =>
    simp only [Phase.record]
    split
    · rfl
    · exact isSuperseded_ofInflight _
  | closed m b => cases h

theorem phase_advance_eq_unseen {id : MsgId} :
    (t.advance I id).phase i = .unseen ↔ t.phase i = .unseen := by
  rcases phase_advance I t id i with ha | ha <;> rw [ha]
  cases t.phase i <;> simp [Phase.close]

theorem phase_step_eq_unseen :
    (t.step I x).phase i = .unseen ↔ t.phase i = .unseen ∧ i ≠ x.gossip.id := by
  by_cases hc : (t.phase x.gossip.id).isClosed
  · simp only [step, hc, if_true, iff_self_and]
    rintro h rfl
    rw [h] at hc; cases hc
  · simp only [Bool.not_eq_true] at hc
    by_cases hi : i = x.gossip.id
    · subst hi; simp [phase_step_self hc, record_ne_unseen]
    · simp [phase_step_of_ne hc hi, phase_advance_eq_unseen, hi]

/-- The ids of a run are those that are not unseen. -/
theorem phase_run_eq_unseen {l : List (Sighting n)} :
    (run I l).phase i = .unseen ↔ ∀ x ∈ l, x.gossip.id ≠ i := by
  induction l using List.reverseRecOn with
  | nil => simp [run, init]
  | append_singleton l x ih =>
    rw [run_concat, phase_step_eq_unseen, ih, ne_comm (a := i)]
    simp [or_imp, forall_and]

/-- Only ids whose key has seen a version as new are live. -/
def LiveCovered (I : Identity) (t : Tracker n) : Prop :=
  ∀ i k, (t.phase i).live?.isSome → I.key i = some k → ∃ v ∈ t.latest k, I.version i ≤ v

/-- Latest versions only grow. -/
theorem latest_advance (id : MsgId) {k v : Nat} (h : v ∈ t.latest k) :
    ∃ v' ∈ (t.advance I id).latest k, v ≤ v' := by
  unfold advance
  split
  · next k' _ =>
    split
    · next hall =>
      by_cases hk : k = k'
      · subst hk
        rw [Option.mem_def.1 h] at hall
        exact ⟨I.version id, by simp [supersede], by simpa using le_of_lt (by simpa using hall)⟩
      · exact ⟨v, by simpa [supersede, hk] using h, le_rfl⟩
    · exact ⟨v, h, le_rfl⟩
  · exact ⟨v, h, le_rfl⟩

/-- Once advanced to, a version is covered. -/
theorem le_latest_advance {id : MsgId} {k : Nat} (hk : I.key id = some k) :
    ∃ v ∈ (t.advance I id).latest k, I.version id ≤ v := by
  simp only [advance, hk]
  split
  · exact ⟨I.version id, by simp [supersede], le_rfl⟩
  · next hall =>
    cases hl : t.latest k with
    | none => simp [hl] at hall
    | some v => exact ⟨v, rfl, by simpa [hl] using hall⟩

theorem live_of_live_advance {id : MsgId} (h : ((t.advance I id).phase i).live?.isSome) :
    (t.phase i).live?.isSome := by
  rcases phase_advance I t id i with ha | ha <;> rw [ha] at h
  · exact h
  · cases hp : t.phase i <;> simp_all [Phase.close, Phase.live?]

theorem LiveCovered.advance (h : LiveCovered I t) (id : MsgId) : LiveCovered I (t.advance I id) := by
  intro i k hl hk
  obtain ⟨v, hv, hle⟩ := h i k (live_of_live_advance hl) hk
  obtain ⟨v', hv', hle'⟩ := latest_advance (I := I) id hv
  exact ⟨v', hv', hle.trans hle'⟩

theorem LiveCovered.step (h : LiveCovered I t) : LiveCovered I (t.step I x) := by
  by_cases hc : (t.phase x.gossip.id).isClosed
  · simpa [Tracker.step, hc] using h
  · simp only [Bool.not_eq_true] at hc
    intro i k hl hk
    have hlatest : (t.step I x).latest k = (t.advance I x.gossip.id).latest k := by
      simp [Tracker.step, hc]
    rw [hlatest]
    by_cases hi : i = x.gossip.id
    · subst hi; exact le_latest_advance hk
    · rw [phase_step_of_ne hc hi] at hl
      exact h.advance _ i k hl hk

theorem liveCovered_run (l : List (Sighting n)) : LiveCovered I (run I l) := by
  induction l using List.reverseRecOn with
  | nil => intro i k h; cases h
  | append_singleton l x ih => rw [run_concat]; exact ih.step

end Tracker

/-! ## The aggregator is a tracker -/

section Refinement

variable {P : Type} [PctIndex P] {n : Nat} {ps : List P} {I : Identity}

/-- The rows and counters are those of the closed messages. -/
structure Rows (ps : List P) (s : AggregatorState P n) (t : Tracker n) : Prop where
  percentiles : s.percentiles = ps
  finalized : ∀ i, i ∈ s.finalized ↔ (t.phase i).isClosed
  nodup : s.finalized.Nodup
  ids : s.mirror.map MsgStats.id = s.finalized
  rows : ∀ row ∈ s.mirror, ∃ m b, t.phase row.id = .closed m b ∧ finalizeMsg row.id m ps = some row
  count : s.finalizedCount = s.finalized.length
  superseded : s.supersededCount = s.finalized.countP fun i => (t.phase i).isSuperseded

structure Tracks (ps : List P) (I : Identity) (s : AggregatorState P n) (t : Tracker n) : Prop
    extends Rows ps s t where
  inFlight : ∀ i, s.inFlight.lookup i = (t.phase i).live?
  latest : ∀ k, s.latestVersion.lookup k = t.latest k
  nodup_byChannel : ∀ k, ((s.inflightByChannel.lookup k).getD []).Nodup
  mem_byChannel : ∀ k i, i ∈ (s.inflightByChannel.lookup k).getD [] ↔
    I.key i = some k ∧ (t.phase i).live?.isSome

theorem finalizeMsg_id {i : MsgId} {m : MsgInflight n} {row : MsgStats P}
    (h : finalizeMsg i m ps = some row) : row.id = i := by
  simp only [finalizeMsg, Option.bind_eq_bind, Option.bind_eq_some_iff] at h
  obtain ⟨_, -, h⟩ := h
  cases h; rfl

theorem Rows.not_fails {s : AggregatorState P n} {t : Tracker n} (h : Rows ps s t) :
    ¬ t.Fails ps := by
  rintro ⟨i, m, b, hi, hm⟩
  have hmem : i ∈ s.mirror.map MsgStats.id := by
    rw [h.ids, h.finalized, hi]; rfl
  obtain ⟨row, hrow, rfl⟩ := List.mem_map.1 hmem
  obtain ⟨m', b', hi', hm'⟩ := h.rows row hrow
  cases hi.symm.trans hi'
  rw [hm] at hm'
  cases hm'

theorem nodup_intSet_insert {l : IntSet} (h : l.Nodup) (i : Nat) : (l.insert i).Nodup := by
  unfold IntSet.insert
  split
  · exact h
  · next hnew =>
    refine List.nodup_append.2 ⟨h, List.nodup_singleton i, fun a ha b hb hab => hnew ?_⟩
    rwa [← List.mem_singleton.1 hb, ← hab]

/-- `finalize` emits the row of a message that is not closed. -/
theorem Rows.finalize {s s' : AggregatorState P n} {t : Tracker n} (h : Rows ps s t) {i : MsgId}
    {m : MsgInflight n} (hi : (t.phase i).isClosed = false) (hs : s.finalize i m = some s')
    (b : Bool) :
    Rows ps { s' with supersededCount := s.supersededCount + b.toNat } (t.closeAt i m b) ∧
      s'.inFlight = s.inFlight.erase i ∧ s'.latestVersion = s.latestVersion ∧
      s'.inflightByChannel = s.inflightByChannel ∧ s'.supersededCount = s.supersededCount := by
  simp only [AggregatorState.finalize, Option.bind_eq_bind, Option.bind_eq_some_iff] at hs
  obtain ⟨row, hrow, hs⟩ := hs
  cases hs
  have hnew : i ∉ s.finalized := by rw [h.finalized, hi]; simp
  have hne : ∀ j ∈ s.finalized, j ≠ i := fun j hj => by rintro rfl; exact hnew hj
  refine ⟨⟨h.percentiles, fun j => ?_, ?_, ?_, fun r hr => ?_, ?_, ?_⟩, rfl, rfl, rfl, rfl⟩
  · by_cases hj : j = i
    · subst hj
      simp [AggregatorState.pushFinalized, IntSet.insert, hnew, Tracker.closeAt, Phase.isClosed]
    · simp [AggregatorState.pushFinalized, IntSet.insert, hnew, hj, Tracker.closeAt, h.finalized]
  · exact nodup_intSet_insert h.nodup i
  · simp [AggregatorState.pushFinalized, IntSet.insert, hnew, h.ids, finalizeMsg_id hrow]
  · rcases List.mem_append.1 hr with hr | hr
    · obtain ⟨m', b', hp, hm⟩ := h.rows r hr
      have hrne : r.id ≠ i := by rintro rfl; rw [hp] at hi; cases hi
      exact ⟨m', b', by simp [Tracker.closeAt, hrne, hp], hm⟩
    · cases List.mem_singleton.1 hr
      rw [h.percentiles] at hrow
      rw [finalizeMsg_id hrow]
      exact ⟨m, b, by simp [Tracker.closeAt], hrow⟩
  · simp [AggregatorState.pushFinalized, IntSet.insert, hnew, h.count]
  · have hold : s.finalized.countP (fun j => ((t.closeAt i m b).phase j).isSuperseded) =
        s.finalized.countP fun j => (t.phase j).isSuperseded :=
      List.countP_congr fun j hj => by simp [Tracker.closeAt, hne j hj]
    simp only [AggregatorState.pushFinalized, IntSet.insert, hnew, if_false, List.countP_append,
      hold, h.superseded, List.countP_singleton]
    simp [Tracker.closeAt, Phase.isSuperseded]
    cases b <;> rfl

theorem AggregatorState.finalize_eq_none {s : AggregatorState P n} (hps : s.percentiles = ps)
    {i : MsgId} {m : MsgInflight n} (h : s.finalize i m = none) : finalizeMsg i m ps = none := by
  simp only [AggregatorState.finalize, hps, Option.bind_eq_bind] at h
  cases hm : finalizeMsg i m ps with
  | none => rfl
  | some row => rw [hm] at h; cases h

namespace Tracker

/-- Supersession closes the ids the index lists for the key. -/
def closeAll (t : Tracker n) (ids : List MsgId) : Tracker n :=
  { t with phase := fun i => if i ∈ ids then (t.phase i).close else t.phase i }

theorem closeAll_cons {t : Tracker n} {i : MsgId} {ids : List MsgId} {m : MsgInflight n}
    (hi : t.phase i = .live m) (hids : i ∉ ids) :
    (t.closeAt i m true).closeAll ids = t.closeAll (i :: ids) := by
  simp only [closeAll, closeAt, Tracker.mk.injEq, true_and]
  funext j
  by_cases hj : j = i
  · subst hj; simp [hids, hi, Phase.close]
  · simp [hj]

end Tracker

theorem Rows.supersedeAll {id : MsgId} {ids : List MsgId} (hids : ids.Nodup) (hid : id ∉ ids)
    {s : AggregatorState P n} {t : Tracker n} (h : Rows ps s t)
    (hfl : ∀ i, s.inFlight.lookup i = (t.phase i).live?)
    (hlive : ∀ i ∈ ids, (t.phase i).live?.isSome) :
    (∀ s', ids.foldlM (AggregatorState.supersedeOld id) s = some s' →
      Rows ps s' (t.closeAll ids) ∧
        (∀ i, s'.inFlight.lookup i = ((t.closeAll ids).phase i).live?) ∧
        s'.latestVersion = s.latestVersion ∧ s'.inflightByChannel = s.inflightByChannel) ∧
    (ids.foldlM (AggregatorState.supersedeOld id) s = none → (t.closeAll ids).Fails ps) := by
  induction ids generalizing s t with
  | nil =>
    refine ⟨fun s' hs => ?_, fun hs => nomatch hs⟩
    cases hs
    exact ⟨by simpa [Tracker.closeAll] using h, by simpa [Tracker.closeAll] using hfl, rfl, rfl⟩
  | cons i ids ih =>
    obtain ⟨hi, hids⟩ := List.nodup_cons.1 hids
    obtain ⟨m, hm⟩ : ∃ m, t.phase i = .live m := by
      have := hlive i (List.mem_cons_self ..)
      cases hp : t.phase i <;> simp_all [Phase.live?]
    have hne : i ≠ id := fun e => hid (e ▸ List.mem_cons_self ..)
    have hlook : s.inFlight.lookup i = some m := by rw [hfl, hm]; rfl
    simp only [List.foldlM_cons, AggregatorState.supersedeOld, hne, if_false, hlook,
      Option.bind_eq_bind]
    cases hf : s.finalize i m with
    | none =>
      refine ⟨fun s' hs => (nomatch hs), fun _ => ⟨i, m, true, ?_,
        AggregatorState.finalize_eq_none h.percentiles hf⟩⟩
      simp [Tracker.closeAll, hm, Phase.close]
    | some s₁ =>
      obtain ⟨hrows, herase, hlv, hbc, hsup⟩ := h.finalize (by rw [hm]; rfl) hf true
      simp only [Option.map_some, Option.bind_some, hsup, ← Tracker.closeAll_cons hm hi]
      rw [← hlv, ← hbc]
      refine ih hids (fun h => hid (List.mem_cons_of_mem _ h)) hrows (fun j => ?_) fun j hj => ?_
      · by_cases hj : j = i
        · subst hj; simp [herase, Tracker.closeAt, Phase.live?]
        · simp [herase, Tracker.closeAt, hj, hfl]
      · have hji : j ≠ i := by rintro rfl; exact hi hj
        simpa [Tracker.closeAt, hji] using hlive j (List.mem_cons_of_mem _ hj)

/-- `supersede` is `advance`. -/
theorem Tracks.supersede {s : AggregatorState P n} {t : Tracker n} (h : Tracks ps I s t)
    (hcov : Tracker.LiveCovered I t) {g : Gossip} {k : Nat} (hk : I.key g.id = some k)
    (hv : g.timestamp = I.version g.id) :
    (∀ s', s.supersede k g = some s' → Tracks ps I s' (t.advance I g.id)) ∧
      (s.supersede k g = none → (t.advance I g.id).Fails ps) := by
  simp only [AggregatorState.supersede, Tracker.advance, hk, h.latest, hv, gt_iff_lt]
  by_cases hall : (t.latest k).all (· < I.version g.id)
  · simp only [hall, if_true]
    set ids := (s.inflightByChannel.lookup k).getD [] with hids
    have hmem : ∀ i, i ∈ ids ↔ I.key i = some k ∧ (t.phase i).live?.isSome := h.mem_byChannel k
    -- the index does not list `g.id`: it would be covered
    have hid : g.id ∉ ids := by
      intro hin
      obtain ⟨hk', hl⟩ := (hmem _).1 hin
      obtain ⟨v, hv, hle⟩ := hcov g.id k hl hk'
      rw [Option.mem_def.1 hv] at hall
      have : v < I.version g.id := by simpa using hall
      omega
    have hclose : ∀ i, ((t.supersede I k g.id).phase i) = ((t.closeAll ids).phase i) := by
      intro i
      simp only [Tracker.supersede, Tracker.closeAll, hmem]
      by_cases hik : I.key i = some k
      · by_cases hl : (t.phase i).live?.isSome
        · have hne : i ≠ g.id := by rintro rfl; exact hid ((hmem _).2 ⟨hik, hl⟩)
          simp [hik, hl, hne]
        · have : (t.phase i).close = t.phase i := by
            cases hp : t.phase i <;> simp_all [Phase.close, Phase.live?]
          simp [hl, this]
      · simp [hik]
    obtain ⟨hsome, hnone⟩ := Rows.supersedeAll (s := { s with
        latestVersion := s.latestVersion.insert k (I.version g.id)
        inflightByChannel := if (s.inflightByChannel.lookup k).isSome
          then s.inflightByChannel.insert k [] else s.inflightByChannel }) (h.nodup_byChannel k) hid
      ⟨h.percentiles, h.finalized, h.nodup, h.ids, h.rows, h.count, h.superseded⟩ h.inFlight
      fun i hi => ((hmem i).1 hi).2
    have hby : ∀ k', ((if (s.inflightByChannel.lookup k).isSome
        then s.inflightByChannel.insert k [] else s.inflightByChannel).lookup k').getD [] =
        if k' = k then [] else (s.inflightByChannel.lookup k').getD [] := by
      intro k'
      by_cases hkk : k' = k
      · subst hkk
        cases hl : s.inflightByChannel.lookup k' <;> simp [hl]
      · cases hl : s.inflightByChannel.lookup k <;> simp [hkk]
    refine ⟨fun s' hs => ?_, fun hs => ?_⟩
    · obtain ⟨hrows, hfl, hlv, hbc⟩ := hsome s' hs
      refine ⟨⟨hrows.percentiles, ?_, hrows.nodup, hrows.ids, ?_, hrows.count, ?_⟩, ?_, fun k' => ?_,
        fun k' => ?_, fun k' i => ?_⟩
      · simpa only [hclose] using hrows.finalized
      · simpa only [hclose] using hrows.rows
      · simpa only [hclose] using hrows.superseded
      · simpa only [hclose] using hfl
      · rw [hlv]
        by_cases hkk : k' = k
        · subst hkk; simp [Tracker.supersede]
        · simp [Tracker.supersede, hkk, h.latest]
      · rw [hbc, hby]
        split
        · exact List.nodup_nil
        · exact h.nodup_byChannel k'
      · rw [hbc, hby, hclose]
        simp only [Tracker.closeAll, hmem]
        split
        · next hkk =>
          subst hkk
          simp only [List.not_mem_nil, false_iff, not_and]
          intro hik
          cases hp : t.phase i <;> simp [hik, Phase.close, Phase.live?]
        · next hkk =>
          rw [h.mem_byChannel]
          by_cases hik : I.key i = some k
          · simp [hik, Ne.symm hkk]
          · simp [hik]
    · obtain ⟨i, m, b, hi, hm⟩ := hnone hs
      exact ⟨i, m, b, by rw [hclose, hi], hm⟩
  · simp only [Bool.not_eq_true] at hall
    simp only [hall]
    exact ⟨fun s' hs => by cases hs; exact h, fun hs => by cases hs⟩

theorem getD_removeFromChannel (byChannel : IntMap IntSet) (key : Option Nat) (id : MsgId) (k : Nat) :
    ((removeFromChannel byChannel key id).lookup k).getD [] = if key = some k
      then List.erase ((byChannel.lookup k).getD []) id else (byChannel.lookup k).getD [] := by
  cases key with
  | none => rfl
  | some k' =>
    simp only [removeFromChannel]
    by_cases hk : k' = k
    · subst hk
      cases hl : byChannel.lookup k' <;> simp [hl]
    · cases hl : byChannel.lookup k' <;> simp [hk, Ne.symm hk]

theorem getD_insertToChannel (byChannel : IntMap IntSet) (key : Option Nat) (id : MsgId) (k : Nat) :
    ((insertToChannel byChannel key id).lookup k).getD [] = if key = some k
      then IntSet.insert ((byChannel.lookup k).getD []) id else (byChannel.lookup k).getD [] := by
  cases key with
  | none => rfl
  | some k' =>
    simp only [insertToChannel]
    by_cases hk : k' = k
    · subst hk; simp
    · simp [hk, Ne.symm hk]

/-- The record of a sighting, as `Phase.record` sees it. -/
theorem Tracks.record_phase {s : AggregatorState P n} {t : Tracker n} (h : Tracks ps I s t)
    {x : Sighting n} (hc : (t.phase x.gossip.id).isClosed = false) {m : MsgInflight n}
    (hm : m = (s.inFlight.lookup x.gossip.id).getD (.new n x.timeNs x.gossip.sizeBytes)) :
    (t.phase x.gossip.id).record x =
      if m.times x.node ≠ NOT_SEEN then t.phase x.gossip.id
      else .ofInflight (m.see x.node x.timeNs) := by
  rw [hm, h.inFlight]
  cases hp : t.phase x.gossip.id with
  | unseen => rfl
  | live m' => rfl
  | closed m' b => rw [hp] at hc; cases hc

/-- The slot that completes a message: its row is emitted, and the index forgets it. -/
theorem Tracks.complete {s s₁ : AggregatorState P n} {t : Tracker n} (h : Tracks ps I s t)
    {id : MsgId} (hc : (t.phase id).isClosed = false) {m : MsgInflight n}
    (hf : s.finalize id m = some s₁) :
    Tracks ps I { s₁ with
      inflightByChannel := removeFromChannel s₁.inflightByChannel (I.key id) id }
      (t.closeAt id m false) := by
  obtain ⟨hrows, hfl, hlv, hbc, hsup⟩ := h.toRows.finalize hc hf false
  refine ⟨⟨hrows.percentiles, hrows.finalized, hrows.nodup, hrows.ids, hrows.rows, hrows.count, ?_⟩,
    fun i => ?_, fun k => ?_, fun k => ?_, fun k i => ?_⟩
  · rw [hsup]
    exact hrows.superseded
  · rw [hfl]
    by_cases hi : i = id
    · subst hi
      simp [Tracker.closeAt, Phase.live?]
    · simp [Tracker.closeAt, hi, h.inFlight]
  · rw [hlv, h.latest]
    rfl
  · simp only [getD_removeFromChannel, hbc]
    split
    · exact (h.nodup_byChannel k).erase id
    · exact h.nodup_byChannel k
  · simp only [getD_removeFromChannel, hbc]
    by_cases hk : I.key id = some k
    · rw [if_pos hk, (h.nodup_byChannel k).mem_erase_iff, h.mem_byChannel]
      by_cases hi : i = id
      · subst hi
        simp [Tracker.closeAt, Phase.live?]
      · simp [Tracker.closeAt, hi]
    · rw [if_neg hk, h.mem_byChannel]
      by_cases hi : i = id
      · subst hi
        simp [hk]
      · simp [Tracker.closeAt, hi]

/-- The slot of a message that others are still to see: nothing is emitted. -/
theorem Tracks.fill {s : AggregatorState P n} {t : Tracker n} (h : Tracks ps I s t) {id : MsgId}
    (hc : (t.phase id).isClosed = false) (m : MsgInflight n) :
    Tracks ps I { s with
      inFlight := s.inFlight.insert id m
      inflightByChannel := insertToChannel s.inflightByChannel (I.key id) id }
      { t with phase := Function.update t.phase id (.live m) } := by
  -- no closed message is touched
  have hphase : ∀ i ∈ s.finalized, Function.update t.phase id (.live m) i = t.phase i := by
    refine fun i hi => Function.update_of_ne ?_ _ _
    rintro rfl
    rw [h.finalized, hc] at hi
    cases hi
  refine ⟨⟨h.percentiles, fun i => ?_, h.nodup, h.ids, fun row hrow => ?_, h.count, ?_⟩,
    fun i => ?_, fun k => ?_, fun k => ?_, fun k i => ?_⟩
  · rw [h.finalized]
    by_cases hi : i = id
    · subst hi
      rw [hc]
      simp [Phase.isClosed]
    · simp [hi]
  · obtain ⟨m₀, b, hp, hr⟩ := h.rows row hrow
    refine ⟨m₀, b, ?_, hr⟩
    dsimp only
    rw [hphase _ (by rw [h.finalized, hp]; rfl), hp]
  · exact h.superseded.trans (List.countP_congr fun i hi => by
      dsimp only
      rw [hphase i hi])
  · by_cases hi : i = id
    · subst hi
      simp [Phase.live?]
    · simp [hi, h.inFlight]
  · exact h.latest k
  · rw [getD_insertToChannel]
    split
    · exact nodup_intSet_insert (h.nodup_byChannel k) id
    · exact h.nodup_byChannel k
  · simp only [getD_insertToChannel, IntSet.insert]
    by_cases hk : I.key id = some k
    · rw [if_pos hk]
      by_cases hi : i = id
      · subst hi
        split <;> simp_all [Phase.live?]
      · split <;> simp [hi, h.mem_byChannel]
    · rw [if_neg hk, h.mem_byChannel]
      by_cases hi : i = id
      · subst hi
        simp [hk]
      · simp [hi]

/-- `record` is the last part of a tracker step. -/
theorem Tracks.record {s : AggregatorState P n} {t t' : Tracker n} (h : Tracks ps I s t)
    {x : Sighting n} (hx : I.Fits x) (hc : (t.phase x.gossip.id).isClosed = false)
    (ht' : t' = { t with
      phase := Function.update t.phase x.gossip.id ((t.phase x.gossip.id).record x) }) :
    (∀ s', s.record x.gossip.chanKey x.node x.gossip x.timeNs = some s' → Tracks ps I s' t') ∧
      (s.record x.gossip.chanKey x.node x.gossip x.timeNs = none → t'.Fails ps) := by
  obtain ⟨hkey, -⟩ := hx
  unfold AggregatorState.record
  generalize hm : (s.inFlight.lookup x.gossip.id).getD (.new n x.timeNs x.gossip.sizeBytes) = m
  rw [h.record_phase hc hm.symm] at ht'
  rw [hkey]
  generalize x.gossip.id = id at hc ht' ⊢
  dsimp only
  split
  · next hslot =>
    rw [if_pos hslot, Function.update_eq_self] at ht'
    subst ht'
    exact ⟨fun s' hs => by cases hs; exact h, fun hs => nomatch hs⟩
  · next hslot =>
    rw [if_neg hslot] at ht'
    generalize m.see x.node x.timeNs = m' at ht' ⊢
    split
    · -- all nodes have seen it
      next hcov =>
      rw [Phase.ofInflight, if_pos hcov] at ht'
      subst ht'
      cases hf : s.finalize id m' with
      | none =>
        exact ⟨fun s' hs => (nomatch hs), fun _ => ⟨id, m', false, by simp,
          AggregatorState.finalize_eq_none h.percentiles hf⟩⟩
      | some s₁ =>
        refine ⟨fun s' hs => ?_, fun hs => nomatch hs⟩
        cases hs
        exact h.complete hc hf
    · next hcov =>
      rw [Phase.ofInflight, if_neg hcov] at ht'
      subst ht'
      refine ⟨fun s' hs => ?_, fun hs => nomatch hs⟩
      cases hs
      exact h.fill hc m'

/-- Every step of the aggregator is a step of the tracker. -/
theorem Tracks.step {s : AggregatorState P n} {t : Tracker n} (h : Tracks ps I s t)
    (hcov : Tracker.LiveCovered I t) {x : Sighting n} (hx : I.Fits x) :
    (∀ s', s.handleOneFirstSeen x.node x.gossip x.timeNs = some s' → Tracks ps I s' (t.step I x)) ∧
      (s.handleOneFirstSeen x.node x.gossip x.timeNs = none → (t.step I x).Fails ps) := by
  unfold AggregatorState.handleOneFirstSeen Tracker.step
  dsimp only
  by_cases hc : (t.phase x.gossip.id).isClosed
  · rw [if_pos ((h.finalized _).2 hc), if_pos hc]
    exact ⟨fun s' hs => by cases hs; exact h, fun hs => nomatch hs⟩
  · rw [if_neg (fun hf => hc ((h.finalized _).1 hf)), if_neg hc]
    simp only [Bool.not_eq_true] at hc
    have hadv : (∀ s₁, (x.gossip.chanKey.elim (some s) fun key => s.supersede key x.gossip) =
          some s₁ → Tracks ps I s₁ (t.advance I x.gossip.id)) ∧
        ((x.gossip.chanKey.elim (some s) fun key => s.supersede key x.gossip) = none →
          (t.advance I x.gossip.id).Fails ps) := by
      rw [hx.1]
      cases hk : I.key x.gossip.id with
      | none =>
        rw [Tracker.advance, hk]
        exact ⟨fun s' hs => by cases hs; exact h, fun hs => nomatch hs⟩
      | some k => exact h.supersede hcov hk hx.2
    have hc' : ((t.advance I x.gossip.id).phase x.gossip.id).isClosed = false := by
      rw [Tracker.phase_advance_self, hc]
    cases hs : x.gossip.chanKey.elim (some s) fun key => s.supersede key x.gossip with
    | none =>
      obtain ⟨i, m, b, hi, hm⟩ := hadv.2 hs
      have hne : i ≠ x.gossip.id := by rintro rfl; rw [hi] at hc'; cases hc'
      exact ⟨fun s' hs' => (nomatch hs'), fun _ => ⟨i, m, b, by simp [hne, hi], hm⟩⟩
    | some s₁ => exact (hadv.1 s₁ hs).record hx hc' rfl

/-! ## Runs -/

/-- The tuples of a queue, one after the other. -/
def AggregatorState.handleSightings (s : AggregatorState P n) (l : List (Sighting n)) :
    Option (AggregatorState P n) :=
  l.foldlM (fun s x => s.handleOneFirstSeen x.node x.gossip x.timeNs) s

theorem foldlM_handleFirstSeenBatch (s : AggregatorState P n)
    (bs : List (Fin n × List FirstSeenEntry)) :
    bs.foldlM (fun (s : AggregatorState P n) b => s.handleFirstSeenBatch b.1 b.2) s =
      s.handleSightings (sightings bs) := by
  induction bs generalizing s with
  | nil => rfl
  | cons b bs ih =>
    simp only [List.foldlM_cons, AggregatorState.handleSightings, sightings, List.flatMap_cons,
      List.foldlM_append, List.foldlM_map, AggregatorState.handleFirstSeenBatch] at ih ⊢
    simp only [ih]

theorem Tracks.init : Tracks (n := n) ps I { percentiles := ps } .init where
  percentiles := rfl
  finalized i := by simp [Tracker.init, Phase.isClosed]
  nodup := List.nodup_nil
  ids := rfl
  rows := by simp
  count := rfl
  superseded := rfl
  inFlight i := rfl
  latest k := rfl
  nodup_byChannel k := List.nodup_nil
  mem_byChannel k i := by simp [Tracker.init, Phase.live?]

/-- The aggregator follows the tracker over a whole run, unless a row fails. -/
theorem tracks_run (ps : List P) {l : List (Sighting n)} (hl : ∀ x ∈ l, I.Fits x) :
    (∀ s : AggregatorState P n, AggregatorState.handleSightings { percentiles := ps } l = some s →
      Tracks ps I s (.run I l)) ∧
    (AggregatorState.handleSightings (n := n) { percentiles := ps } l = none →
      (Tracker.run I l).Fails ps) := by
  induction l using List.reverseRecOn with
  | nil => exact ⟨fun s hs => by cases hs; exact .init, fun hs => nomatch hs⟩
  | append_singleton l x ih =>
    obtain ⟨hsome, hnone⟩ := ih fun y hy => hl y (List.mem_append_left _ hy)
    simp only [AggregatorState.handleSightings, List.foldlM_append, Option.bind_eq_bind,
      List.foldlM_cons, List.foldlM_nil, Tracker.run_concat] at hsome hnone ⊢
    cases hs : l.foldlM (fun (s : AggregatorState P n) x =>
        s.handleOneFirstSeen x.node x.gossip x.timeNs) { percentiles := ps } with
    | none => exact ⟨fun s' hs' => (nomatch hs'), fun _ => (hnone hs).step⟩
    | some s₁ =>
      simpa using (hsome s₁ hs).step (Tracker.liveCovered_run l)
        (hl x (List.mem_append_right _ (List.mem_singleton.2 rfl)))

namespace Tracker

def drainAll (t : Tracker n) (ids : List MsgId) : Tracker n :=
  { t with phase := fun i => if i ∈ ids then (t.phase i).drain else t.phase i }

theorem drainAll_cons {t : Tracker n} {i : MsgId} {ids : List MsgId} {m : MsgInflight n}
    (hi : t.phase i = .live m) (hids : i ∉ ids) :
    (t.closeAt i m false).drainAll ids = t.drainAll (i :: ids) := by
  simp only [drainAll, closeAt, Tracker.mk.injEq, true_and]
  funext j
  by_cases hj : j = i
  · subst hj; simp [hids, hi, Phase.drain]
  · simp [hj]

end Tracker

theorem Rows.drainAll {es : List (Sigma fun _ : Nat => MsgInflight n)}
    (hes : (es.map Sigma.fst).Nodup) {s : AggregatorState P n} {t : Tracker n} (h : Rows ps s t)
    (hlive : ∀ e ∈ es, t.phase e.1 = .live e.2) :
    (∀ s', es.foldlM AggregatorState.finalizeDrained s = some s' →
      Rows ps s' (t.drainAll (es.map Sigma.fst)) ∧ (s.inFlight = ∅ → s'.inFlight = ∅)) ∧
    (es.foldlM AggregatorState.finalizeDrained s = none →
      (t.drainAll (es.map Sigma.fst)).Fails ps) := by
  induction es generalizing s t with
  | nil =>
    refine ⟨fun s' hs => ?_, fun hs => nomatch hs⟩
    cases hs
    exact ⟨by simpa [Tracker.drainAll] using h, id⟩
  | cons e es ih =>
    obtain ⟨i, m⟩ := e
    obtain ⟨hi, hes⟩ := List.nodup_cons.1 hes
    have hm : t.phase i = .live m := hlive ⟨i, m⟩ (List.mem_cons_self ..)
    have hopen : (t.phase i).isClosed = false := by rw [hm]; rfl
    have hnew : i ∉ s.finalized := by rw [h.finalized, hopen]; simp
    simp only [List.foldlM_cons, AggregatorState.finalizeDrained, hnew, if_false,
      Option.bind_eq_bind, List.map_cons]
    cases hf : s.finalize i m with
    | none =>
      refine ⟨fun s' hs => (nomatch hs), fun _ => ⟨i, m, false, ?_,
        AggregatorState.finalize_eq_none h.percentiles hf⟩⟩
      simp [Tracker.drainAll, hm, Phase.drain]
    | some s₁ =>
      obtain ⟨hrows, herase, -, -, hsup⟩ := h.finalize hopen hf false
      have hrows : Rows ps s₁ (t.closeAt i m false) := by
        simpa only [Bool.toNat_false, Nat.add_zero, ← hsup] using hrows
      rw [← Tracker.drainAll_cons hm hi]
      obtain ⟨hsome, hnone⟩ := ih hes hrows fun e he => by
        have hne : e.1 ≠ i := by rintro rfl; exact hi (List.mem_map.2 ⟨e, he, rfl⟩)
        simpa [Tracker.closeAt, hne] using hlive e (List.mem_cons_of_mem _ he)
      refine ⟨fun s' hs => ?_, hnone⟩
      obtain ⟨hr, hfl⟩ := hsome s' hs
      exact ⟨hr, fun h0 => hfl (by rw [herase, h0]; rfl)⟩

/-- `finalize_remaining` is `drain`. -/
theorem Tracks.finalizeRemaining {s : AggregatorState P n} {t : Tracker n} (h : Tracks ps I s t) :
    (∀ s', s.finalizeRemaining = some s' → Rows ps s' t.drain ∧ s'.inFlight = ∅ ∧
      s'.inflightByChannel = ∅) ∧
    (s.finalizeRemaining = none → t.drain.Fails ps) := by
  have hmem : ∀ e : Sigma fun _ : Nat => MsgInflight n,
      e ∈ s.inFlight.entries ↔ t.phase e.1 = .live e.2 := by
    intro e
    rw [← AList.mem_lookup_iff, h.inFlight]
    cases hp : t.phase e.1 <;> simp [Phase.live?]
  have hdrain : t.drainAll (s.inFlight.entries.map Sigma.fst) = t.drain := by
    simp only [Tracker.drainAll, Tracker.drain, Tracker.mk.injEq, true_and]
    funext i
    split
    · rfl
    · next hi =>
      cases hp : t.phase i with
      | live m => exact absurd (List.mem_map_of_mem ((hmem ⟨i, m⟩).2 hp)) hi
      | unseen => rfl
      | closed m b => rfl
  obtain ⟨hsome, hnone⟩ := Rows.drainAll (s := { s with inFlight := ∅ }) s.inFlight.nodupKeys
    ⟨h.percentiles, h.finalized, h.nodup, h.ids, h.rows, h.count, h.superseded⟩
    fun e he => (hmem e).1 he
  rw [hdrain] at hsome hnone
  simp only [AggregatorState.finalizeRemaining, Option.bind_eq_bind]
  cases hs : s.inFlight.entries.foldlM AggregatorState.finalizeDrained { s with inFlight := ∅ } with
  | none => exact ⟨fun s' hs' => (nomatch hs'), fun _ => hnone hs⟩
  | some s₁ =>
    obtain ⟨hr, hfl⟩ := hsome s₁ hs
    refine ⟨fun s' hs' => ?_, fun hs' => nomatch hs'⟩
    cases hs'
    exact ⟨⟨hr.percentiles, hr.finalized, hr.nodup, hr.ids, hr.rows, hr.count, hr.superseded⟩,
      hfl rfl, rfl⟩

/-- The rows of a whole run are those of the drained tracker, unless one fails. -/
theorem aggregate_tracks (ps : List P) {bs : List (Fin n × List FirstSeenEntry)}
    (hbs : ∀ x ∈ sightings bs, I.Fits x) :
    (∀ s, AggregatorState.aggregate ps bs = some s →
      Rows ps s (Tracker.run I (sightings bs)).drain ∧ s.inFlight = ∅) ∧
    (AggregatorState.aggregate ps bs = none →
      (Tracker.run I (sightings bs)).drain.Fails ps) := by
  obtain ⟨hsome, hnone⟩ := tracks_run ps hbs
  simp only [AggregatorState.aggregate, foldlM_handleFirstSeenBatch, Option.bind_eq_bind]
  cases hs : AggregatorState.handleSightings (n := n) { percentiles := ps } (sightings bs) with
  | none =>
    obtain ⟨i, m, b, hi, hm⟩ := hnone hs
    exact ⟨fun s' hs' => (nomatch hs'),
      fun _ => ⟨i, m, b, by simp [Tracker.drain, hi, Phase.drain], hm⟩⟩
  | some s₁ =>
    obtain ⟨hsome', hnone'⟩ := (hsome s₁ hs).finalizeRemaining
    exact ⟨fun s' hs' => ⟨(hsome' s' hs').1, (hsome' s' hs').2.1⟩, hnone'⟩

end Refinement

end LnConv
