import LnConv.Finalised
import LnConv.KeyRuns
import LnConv.Lib.Interleave
import Mathlib.Data.Finset.Max

/-!
# The delivery order

Two queues that hand over the same tuples, each node's in the same order, need not end
with the same rows: a version of a channel that is superseded before all its tuples
arrive stays incomplete. The rows are independent of the order exactly if this cannot
happen.
-/

namespace LnConv

section Order

variable {P : Type} [PctIndex P] {n : Nat}

/-- A queue of batches with the tuples of `l`, each node's in their order. -/
def Delivers (l : List (Sighting n)) (bs : List (Fin n × List FirstSeenEntry)) : Prop :=
  SameProj Sighting.node l (sightings bs)

/-- No queue makes a difference, and none fails. -/
def OrderIndependent (ps : List P) (l : List (Sighting n)) : Prop :=
  ∀ bs bs', Delivers l bs → Delivers l bs' → ∃ s s', AggregatorState.aggregate ps bs = some s ∧
    AggregatorState.aggregate ps bs' = some s' ∧ s.mirror.Perm s'.mirror ∧
    s.supersededCount = s'.supersededCount

/-- Every node that has tuples of the key has one of the newest version first. -/
def NewestFirst (k : Nat) (l : List (Sighting n)) : Prop :=
  ∀ v, ∀ x ∈ (l.filter fun y => y.node = v ∧ y.gossip.chanKey = some k).head?,
    ∀ y ∈ l, y.gossip.chanKey = some k → y.gossip.timestamp ≤ x.gossip.timestamp

def FromOneNode (k : Nat) (l : List (Sighting n)) : Prop :=
  ∀ x ∈ l, ∀ y ∈ l, x.gossip.chanKey = some k → y.gossip.chanKey = some k → x.node = y.node

structure Settled (ps : List P) (l : List (Sighting n)) : Prop where
  filled : ∀ i, ∀ p ∈ ps, PctIndex.pctToIndex p n < (ofId i l).length →
    PctIndex.pctToIndex p n < (ofId i l).countP fun x => x.timeNs ≠ NOT_SEEN
  size : ∀ x ∈ l, ∀ y ∈ l, x.gossip.id = y.gossip.id → x.gossip.sizeBytes = y.gossip.sizeBytes
  key : ∀ k, FromOneNode k l ∨ NewestFirst k l

/-! ## Queues and lists -/

/-- A batch for every tuple. -/
def singles (l : List (Sighting n)) : List (Fin n × List FirstSeenEntry) :=
  l.map fun x => (x.node, [⟨x.gossip, x.timeNs⟩])

theorem sightings_singles (l : List (Sighting n)) : sightings (singles l) = l := by
  rw [sightings, singles, List.flatMap_map]
  exact List.flatMap_singleton' l

variable {l g g' : List (Sighting n)} {ps : List P} {I : Identity}

theorem perm_of_sameProj (h : SameProj Sighting.node l g) : l.Perm g :=
  h.swap_induction (fun _ x y _ _ _ hp => hp.trans ((List.Perm.swap y x _).append_left _)) (.refl l)

theorem OncePerNode.of_sameProj (hone : OncePerNode l) (h : SameProj Sighting.node l g) :
    OncePerNode g := ((perm_of_sameProj h).map _).nodup_iff.1 hone

/-! ## If nothing newer can come in -/

theorem NewestFirst.of_sameProj {k : Nat} (h : NewestFirst k l) (hg : SameProj Sighting.node l g) :
    NewestFirst k g := by
  have hsplit : ∀ (v : Fin n) (m : List (Sighting n)),
      m.filter (fun y => decide (y.node = v ∧ y.gossip.chanKey = some k)) =
        (m.filter (fun y => decide (y.node = v))).filter fun y =>
          decide (y.gossip.chanKey = some k) := by
    intro v m
    rw [List.filter_filter]
    exact List.filter_congr fun y _ => by simp [Bool.and_comm]
  intro v x hx y hy
  rw [hsplit, ← hg v, ← hsplit] at hx
  exact h v x hx y (hg.mem_iff.2 hy)

/-- Then nothing of the key is superseded. -/
theorem NewestFirst.not_superseded {k : Nat} (h : NewestFirst k l) (hI : ∀ x ∈ l, I.Fits x)
    {i : MsgId} (hi : I.key i = some k) : ((Tracker.run I l).phase i).isSuperseded = false := by
  rw [(Tracker.agreeAt_ofKey l).phase i hi]
  cases hl : Tracker.ofKey I k l with
  | nil => rfl
  | cons x R =>
    have hmem : ∀ y ∈ x :: R, y ∈ l ∧ I.key y.gossip.id = some k := fun y hy =>
      Tracker.mem_ofKey.1 (hl ▸ hy)
    obtain ⟨hx, hxk⟩ := hmem x (List.mem_cons_self ..)
    have hhead : x ∈ (l.filter fun y => y.node = x.node ∧ y.gossip.chanKey = some k).head? := by
      have hkey : l.filter (fun y => decide (y.node = x.node ∧ y.gossip.chanKey = some k)) =
          (Tracker.ofKey I k l).filter fun y => decide (y.node = x.node) := by
        rw [Tracker.ofKey, List.filter_filter]
        apply List.filter_congr
        intro y hy
        simp [(hI y hy).1]
      rw [hkey, hl, List.filter_cons_of_pos (by simp)]
      rfl
    have hR : ∀ y ∈ R, I.version y.gossip.id ≤ I.version x.gossip.id := by
      intro y hy
      obtain ⟨hyl, hyk⟩ := hmem y (List.mem_cons_of_mem _ hy)
      have := h x.node x hhead y hyl ((hI y hyl).1.trans hyk)
      rwa [(hI y hyl).2, (hI x hx).2] at this
    have hover := overtaken_run (I := I) (k := k) (P := []) (x := x) (R := R)
      (fun y hy => (hmem y hy).2) List.nodup_nil List.nodup_nil (by simp) hR (by simp)
    exact hover.rest i hi (by simp)

/-- Not superseded in either order, a message ends up the same. -/
theorem phase_eq_of_not_superseded (hone : OncePerNode l) (hg : SameProj Sighting.node l g)
    (hsize : ∀ x ∈ l, ∀ y ∈ l, x.gossip.id = y.gossip.id →
      x.gossip.sizeBytes = y.gossip.sizeBytes) {i : MsgId}
    (hl : ((Tracker.run I l).phase i).isSuperseded = false)
    (hs : ((Tracker.run I g).phase i).isSuperseded = false) :
    (Tracker.run I g).phase i = (Tracker.run I l).phase i := by
  have hgone := hone.of_sameProj hg
  have hperm : (ofId i l).Perm (ofId i g) := (perm_of_sameProj hg).filter _
  rcases (traces_run hone i).of_not_superseded hl (hone.length_ofId_le i) with
    ⟨hnil, hp⟩ | ⟨m, hm, hp⟩ <;>
  rcases (traces_run hgone i).of_not_superseded hs (hgone.length_ofId_le i) with
    ⟨hnil', hp'⟩ | ⟨m', hm', hp'⟩
  · rw [hp, hp']
  · rw [hnil] at hperm
    have := hm'.length_pos
    simp [← hperm.length_eq] at this
  · rw [hnil'] at hperm
    have := hm.length_pos
    simp [hperm.length_eq] at this
  · rw [hp, hp', hm.eq_of_perm hm' hperm fun x hx y hy => hsize x (mem_ofId.1 hx).1 y
      (mem_ofId.1 hy).1 ((mem_ofId.1 hx).2.trans (mem_ofId.1 hy).2.symm)]

theorem FromOneNode.ofKey_eq {k : Nat} (h : FromOneNode k l) (hI : ∀ x ∈ l, I.Fits x)
    (hg : SameProj Sighting.node l g) : Tracker.ofKey I k g = Tracker.ofKey I k l := by
  by_cases hex : ∃ x ∈ l, I.key x.gossip.id = some k
  · obtain ⟨x, hx, hxk⟩ := hex
    have hsplit : ∀ m : List (Sighting n), (∀ y ∈ m, y ∈ l) →
        Tracker.ofKey I k m = Tracker.ofKey I k (m.filter (Sighting.node · = x.node)) := by
      intro m hm
      rw [Tracker.ofKey, Tracker.ofKey, List.filter_filter]
      apply List.filter_congr
      intro y hy
      by_cases hyk : I.key y.gossip.id = some k
      · have := h y (hm y hy) x hx ((hI y (hm y hy)).1.trans hyk) ((hI x hx).1.trans hxk)
        simp [hyk, this]
      · simp [hyk]
    rw [hsplit g fun y hy => hg.mem_iff.2 hy, ← hg, ← hsplit l fun _ hy => hy]
  · have hnil : ∀ m : List (Sighting n), (∀ y ∈ m, y ∈ l) → Tracker.ofKey I k m = [] :=
      fun m hm => List.filter_eq_nil_iff.2 fun y hy hyk => hex ⟨y, hm y hy, by simpa using hyk⟩
    rw [hnil g fun y hy => hg.mem_iff.2 hy, hnil l fun _ hy => hy]

/-- A message whose tuples all come from one node has at most one. -/
theorem OncePerNode.length_le_one (hone : OncePerNode l) {i : MsgId}
    (h : ∀ x ∈ ofId i l, ∀ y ∈ ofId i l, x.node = y.node) : (ofId i l).length ≤ 1 := by
  have hnd := hone.nodup_nodes i
  cases hl : ofId i l with
  | nil => exact Nat.zero_le _
  | cons x xs =>
    cases xs with
    | nil => exact le_rfl
    | cons y ys =>
      rw [hl] at hnd h
      have := h x (by simp) y (by simp)
      simp [this] at hnd

theorem Settled.phase_eq (h : Settled ps l) (hone : OncePerNode l) (hI : ∀ x ∈ l, I.Fits x)
    (hg : SameProj Sighting.node l g) (i : MsgId) :
    (Tracker.run I g).phase i = (Tracker.run I l).phase i := by
  cases hi : I.key i with
  | none =>
    exact phase_eq_of_not_superseded hone hg h.size (Tracker.isSuperseded_of_key_none hi l)
      (Tracker.isSuperseded_of_key_none hi g)
  | some k =>
    rcases h.key k with hk | hk
    · rw [(Tracker.agreeAt_ofKey g).phase i hi, (Tracker.agreeAt_ofKey l).phase i hi,
        hk.ofKey_eq hI hg]
    · exact phase_eq_of_not_superseded hone hg h.size (hk.not_superseded hI hi)
        ((hk.of_sameProj hg).not_superseded (fun x hx => hI x (hg.mem_iff.2 hx)) hi)

/-- The entry of a message has all its tuples, however it ends. -/
theorem Settled.seen (h : Settled ps l) (hone : OncePerNode l) (hI : ∀ x ∈ l, I.Fits x) {i : MsgId}
    {m : MsgInflight n} {b : Bool} (hm : (Tracker.run I l).drain.phase i = .closed m b) :
    Seen (ofId i l) m := by
  have htr := traces_run (I := I) hone i
  have hns : ((Tracker.run I l).phase i).isSuperseded = false → Seen (ofId i l) m := by
    intro hs
    rcases htr.of_not_superseded hs (hone.length_ofId_le i) with ⟨-, hp⟩ | ⟨m', hm', hp⟩
    · simp [Tracker.drain, hp, Phase.drain] at hm
    · have : m' = m := by
        simp only [Tracker.drain, hp, Phase.ofInflight] at hm
        split at hm <;> (cases hm; rfl)
      exact this ▸ hm'
  cases hi : I.key i with
  | none => exact hns (Tracker.isSuperseded_of_key_none hi l)
  | some k =>
    rcases h.key k with hk | hk
    · -- one tuple at most: a superseded message has it
      have hkey : ∀ x ∈ ofId i l, x ∈ l ∧ x.gossip.chanKey = some k := fun x hx => by
        obtain ⟨hxl, hid⟩ := mem_ofId.1 hx
        exact ⟨hxl, (hI x hxl).1.trans (by rw [hid, hi])⟩
      have hle := hone.length_le_one (i := i) fun x hx y hy =>
        hk x (hkey x hx).1 y (hkey y hy).1 (hkey x hx).2 (hkey y hy).2
      cases hp : (Tracker.run I l).phase i with
      | unseen => simp [Tracker.drain, hp, Phase.drain] at hm
      | live m' => exact hns (by rw [hp]; rfl)
      | closed m' b' =>
        rw [hp] at htr
        obtain ⟨xs', hpre, hs, -⟩ := htr
        have hpos := hs.length_pos
        cases hpre.eq_of_length (by have := hpre.length_le; omega)
        simp only [Tracker.drain, hp, Phase.drain, Phase.closed.injEq] at hm
        exact hm.1 ▸ hs
    · exact hns (hk.not_superseded hI hi)

theorem Seen.filled {xs : List (Sighting n)} {m : MsgInflight n} (h : Seen xs m)
    (hxs : (xs.map Sighting.node).Nodup) : m.filled = xs.countP fun x => x.timeNs ≠ NOT_SEEN := by
  have hset : (Finset.univ.filter fun v => m.times v ≠ NOT_SEEN) =
      ((xs.filter fun x => x.timeNs ≠ NOT_SEEN).map Sighting.node).toFinset := by
    ext v
    simp only [Finset.mem_filter, Finset.mem_univ, true_and, List.mem_toFinset, List.mem_map,
      List.mem_filter, decide_eq_true_eq]
    constructor
    · intro hv
      by_contra hno
      refine hv (h.rest v fun x hx hxv => hno ⟨x, ⟨hx, ?_⟩, hxv⟩)
      rwa [← hxv, h.times x hx] at hv
    · rintro ⟨x, ⟨hx, ht⟩, rfl⟩
      rwa [h.times x hx]
  rw [MsgInflight.filled, hset, List.toFinset_card_of_nodup, List.length_map,
    List.countP_eq_length_filter]
  exact hxs.sublist (List.filter_sublist.map _)

theorem Settled.not_fails (h : Settled ps l) (hone : OncePerNode l) (hI : ∀ x ∈ l, I.Fits x) :
    ¬ (Tracker.run I l).drain.Fails ps := by
  rintro ⟨i, m, b, hm, hnone⟩
  have hs := h.seen hone hI hm
  have : (finalizeMsg i m ps).isSome := finalizeMsg_isSome.2 fun p hp hlt => by
    rw [hs.filled (hone.nodup_nodes i)]
    rw [hs.coverage] at hlt
    exact h.filled i p hp hlt
  rw [hnone] at this
  cases this

/-- Same phases, same output. -/
theorem Rows.perm {s s' : AggregatorState P n} {t t' : Tracker n} (h : Rows ps s t)
    (h' : Rows ps s' t') (ht : ∀ i, t.phase i = t'.phase i) :
    s.mirror.Perm s'.mirror ∧ s.supersededCount = s'.supersededCount := by
  have hfin : s.finalized.Perm s'.finalized :=
    (List.perm_ext_iff_of_nodup h.nodup h'.nodup).2 fun i => by rw [h.finalized, h'.finalized, ht]
  have hmem : ∀ {s s' : AggregatorState P n} {t t' : Tracker n}, Rows ps s t → Rows ps s' t' →
      (∀ i, t.phase i = t'.phase i) → ∀ row ∈ s.mirror, row ∈ s'.mirror := by
    intro s s' t t' h h' ht row hrow
    obtain ⟨m, b, hp, hm⟩ := h.rows row hrow
    have hid : row.id ∈ s'.mirror.map MsgStats.id := by
      rw [h'.ids, h'.finalized, ← ht, hp]; rfl
    obtain ⟨row', hrow', hid'⟩ := List.mem_map.1 hid
    obtain ⟨m', b', hp', hm'⟩ := h'.rows row' hrow'
    rw [hid', ← ht, hp] at hp'
    cases hp'
    rw [hid', hm] at hm'
    cases hm'
    exact hrow'
  constructor
  · refine (List.perm_ext_iff_of_nodup ?_ ?_).2 fun row =>
      ⟨hmem h h' ht row, hmem h' h (fun i => (ht i).symm) row⟩
    · exact List.Nodup.of_map MsgStats.id (by rw [h.ids]; exact h.nodup)
    · exact List.Nodup.of_map MsgStats.id (by rw [h'.ids]; exact h'.nodup)
  · rw [h.superseded, h'.superseded, hfin.countP_eq]
    exact List.countP_congr fun i _ => by rw [ht]

/-- Settled tuples end with the same rows in every order. -/
theorem Settled.orderIndependent (h : Settled ps l) (hone : OncePerNode l)
    (hI : ∀ x ∈ l, I.Fits x) : OrderIndependent ps l := by
  have hrun : ∀ bs, Delivers l bs → ∃ s, AggregatorState.aggregate ps bs = some s ∧
      Rows ps s (Tracker.run I (sightings bs)).drain := by
    intro bs hbs
    obtain ⟨hsome, hnone⟩ := aggregate_tracks ps (I := I)
      fun x hx => hI x (hbs.mem_iff.2 hx)
    cases hs : AggregatorState.aggregate ps bs with
    | none =>
      obtain ⟨i, m, b, hm, hf⟩ := hnone hs
      refine absurd ⟨i, m, b, ?_, hf⟩ (h.not_fails hone hI)
      rw [← hm]
      simp only [Tracker.drain, h.phase_eq hone hI hbs]
    | some s => exact ⟨s, rfl, (hsome s hs).1⟩
  intro bs bs' hbs hbs'
  obtain ⟨s, hs, hr⟩ := hrun bs hbs
  obtain ⟨s', hs', hr'⟩ := hrun bs' hbs'
  refine ⟨s, s', hs, hs', hr.perm hr' fun i => ?_⟩
  simp only [Tracker.drain, h.phase_eq hone hI hbs, h.phase_eq hone hI hbs']

/-! ## If something newer can come in -/

theorem OrderIndependent.rows (h : OrderIndependent ps l) (hI : ∀ x ∈ l, I.Fits x)
    (hg : SameProj Sighting.node l g) (hg' : SameProj Sighting.node l g') :
    ∃ s s', Rows ps s (Tracker.run I g).drain ∧ Rows ps s' (Tracker.run I g').drain ∧
      s.mirror.Perm s'.mirror ∧ s.supersededCount = s'.supersededCount := by
  obtain ⟨s, s', hs, hs', hperm, hcount⟩ := h (singles g) (singles g')
    (by rwa [Delivers, sightings_singles]) (by rwa [Delivers, sightings_singles])
  have hrows := (aggregate_tracks ps (I := I) fun x hx =>
    hI x (hg.mem_iff.2 (by rwa [sightings_singles] at hx))).1 s hs
  have hrows' := (aggregate_tracks ps (I := I) fun x hx =>
    hI x (hg'.mem_iff.2 (by rwa [sightings_singles] at hx))).1 s' hs'
  rw [sightings_singles] at hrows hrows'
  exact ⟨s, s', hrows.1, hrows'.1, hperm, hcount⟩

theorem finalizeMsg_data {i : MsgId} {m : MsgInflight n} {row : MsgStats P}
    (h : finalizeMsg i m ps = some row) : row.coverage = m.coverage ∧ row.sizeBytes = m.sizeBytes := by
  simp only [finalizeMsg, Option.bind_eq_bind, Option.bind_eq_some_iff] at h
  obtain ⟨_, -, h⟩ := h
  cases h; exact ⟨rfl, rfl⟩

theorem Rows.row_of_closed {s : AggregatorState P n} {t : Tracker n} (h : Rows ps s t) {i : MsgId}
    {m : MsgInflight n} {b : Bool} (hm : t.phase i = .closed m b) :
    ∃ row ∈ s.mirror, row.id = i ∧ row.coverage = m.coverage ∧ row.sizeBytes = m.sizeBytes := by
  have hid : i ∈ s.mirror.map MsgStats.id := by rw [h.ids, h.finalized, hm]; rfl
  obtain ⟨row, hrow, rfl⟩ := List.mem_map.1 hid
  obtain ⟨m', b', hp, hf⟩ := h.rows row hrow
  rw [hm] at hp
  cases hp
  exact ⟨row, hrow, rfl, finalizeMsg_data hf⟩

/-- The rows agree on coverage and size. -/
theorem OrderIndependent.data_eq (h : OrderIndependent ps l) (hI : ∀ x ∈ l, I.Fits x)
    (hg : SameProj Sighting.node l g) (hg' : SameProj Sighting.node l g') {i : MsgId}
    {m m' : MsgInflight n} {b b' : Bool} (hm : (Tracker.run I g).drain.phase i = .closed m b)
    (hm' : (Tracker.run I g').drain.phase i = .closed m' b') :
    m.coverage = m'.coverage ∧ m.sizeBytes = m'.sizeBytes := by
  obtain ⟨s, s', hr, hr', hperm, -⟩ := h.rows hI hg hg'
  obtain ⟨row, hrow, hid, hcov, hsize⟩ := hr.row_of_closed hm
  obtain ⟨row', hrow', hid', hcov', hsize'⟩ := hr'.row_of_closed hm'
  have hnd : (s'.mirror.map MsgStats.id).Nodup := by rw [hr'.ids]; exact hr'.nodup
  have heq : row = row' := List.inj_on_of_nodup_map hnd (hperm.mem_iff.1 hrow) hrow'
    (hid.trans hid'.symm)
  subst heq
  exact ⟨hcov.symm.trans hcov', hsize.symm.trans hsize'⟩

theorem Tracker.exists_closed_drain {l : List (Sighting n)} {x : Sighting n} (hx : x ∈ l) :
    ∃ m b, (Tracker.run I l).drain.phase x.gossip.id = .closed m b ∧
      m.coverage = ((Tracker.run I l).phase x.gossip.id).coverage := by
  have hne : (Tracker.run I l).phase x.gossip.id ≠ .unseen := fun h =>
    phase_run_eq_unseen.1 h x hx rfl
  cases hp : (Tracker.run I l).phase x.gossip.id with
  | unseen => exact absurd hp hne
  | live m => exact ⟨m, false, by simp [drain, hp, Phase.drain], rfl⟩
  | closed m b => exact ⟨m, b, by simp [drain, hp, Phase.drain], rfl⟩

theorem OrderIndependent.coverage_eq (h : OrderIndependent ps l) (hI : ∀ x ∈ l, I.Fits x)
    (hg : SameProj Sighting.node l g) (hg' : SameProj Sighting.node l g') {x : Sighting n}
    (hx : x ∈ l) : ((Tracker.run I g).phase x.gossip.id).coverage =
      ((Tracker.run I g').phase x.gossip.id).coverage := by
  obtain ⟨m, b, hm, hc⟩ := Tracker.exists_closed_drain (I := I) (hg.mem_iff.1 hx)
  obtain ⟨m', b', hm', hc'⟩ := Tracker.exists_closed_drain (I := I) (hg'.mem_iff.1 hx)
  rw [← hc, ← hc', (h.data_eq hI hg hg' hm hm').1]

/-! ### How many are superseded -/

def idsOf (l : List (Sighting n)) : List MsgId := (l.map fun x => x.gossip.id).dedup

theorem mem_idsOf {i : MsgId} : i ∈ idsOf l ↔ ∃ x ∈ l, x.gossip.id = i := by
  simp [idsOf]

theorem nodup_idsOf (l : List (Sighting n)) : (idsOf l).Nodup := List.nodup_dedup _

/-- How many of the messages `ids` a run supersedes. -/
def supersededOf (I : Identity) (ids : List MsgId) (g : List (Sighting n)) : Nat :=
  ids.countP fun i => ((Tracker.run I g).phase i).isSuperseded

def keyIds (I : Identity) (k : Nat) (l : List (Sighting n)) : List MsgId :=
  (idsOf l).filter fun i => I.key i = some k

def otherIds (I : Identity) (k : Nat) (l : List (Sighting n)) : List MsgId :=
  (idsOf l).filter fun i => I.key i ≠ some k

theorem supersededOf_split (k : Nat) : supersededOf I (idsOf l) g =
    supersededOf I (keyIds I k l) g + supersededOf I (otherIds I k l) g := by
  rw [supersededOf, List.countP_eq_countP_filter_add _ _ fun i => decide (I.key i = some k)]
  simp only [supersededOf, keyIds, otherIds, ne_eq, decide_not]

theorem OrderIndependent.total_eq (h : OrderIndependent ps l) (hI : ∀ x ∈ l, I.Fits x)
    (hg : SameProj Sighting.node l g) (hg' : SameProj Sighting.node l g') :
    supersededOf I (idsOf l) g = supersededOf I (idsOf l) g' := by
  have hcount : ∀ {g : List (Sighting n)} {s : AggregatorState P n}, SameProj Sighting.node l g →
      Rows ps s (Tracker.run I g).drain → s.supersededCount = supersededOf I (idsOf l) g := by
    intro g s hg hr
    have hfin : s.finalized.Perm (idsOf l) := by
      apply (List.perm_ext_iff_of_nodup hr.nodup (nodup_idsOf l)).2
      intro i
      have hun := Tracker.phase_run_eq_unseen (I := I) (l := g) (i := i)
      rw [hr.finalized, mem_idsOf]
      have hmem : (∃ x ∈ l, x.gossip.id = i) ↔ ∃ x ∈ g, x.gossip.id = i :=
        exists_congr fun x => and_congr_left fun _ => hg.mem_iff
      rw [hmem]
      cases hp : (Tracker.run I g).phase i <;> simp_all [Tracker.drain, Phase.drain, Phase.isClosed]
    rw [hr.superseded, hfin.countP_eq, supersededOf]
    apply List.countP_congr
    intro i _
    cases hp : (Tracker.run I g).phase i <;> simp [Tracker.drain, hp, Phase.drain, Phase.isSuperseded]
  obtain ⟨s, s', hr, hr', -, hs⟩ := h.rows hI hg hg'
  rw [← hcount hg hr, ← hcount hg' hr', hs]

/-- The messages of one key are superseded alike, too: neighbours that swap concern one
key at most, and the total stays the same. -/
theorem OrderIndependent.count_eq (h : OrderIndependent ps l) (hI : ∀ x ∈ l, I.Fits x) (k : Nat)
    (hg : SameProj Sighting.node l g) :
    supersededOf I (keyIds I k l) g = supersededOf I (keyIds I k l) l := by
  refine hg.swap_induction (P := fun g => supersededOf I (keyIds I k l) g =
    supersededOf I (keyIds I k l) l) (fun pre x y post hne hl hP => ?_) rfl
  rw [← hP]
  -- runs that agree on the tuples of a key agree on what is superseded of it
  have hkey : ∀ k', Tracker.ofKey I k' (pre ++ y :: x :: post) =
      Tracker.ofKey I k' (pre ++ x :: y :: post) → ∀ i, I.key i = some k' →
      (Tracker.run I (pre ++ y :: x :: post)).phase i =
        (Tracker.run I (pre ++ x :: y :: post)).phase i := by
    intro k' hof i hi
    rw [(Tracker.agreeAt_ofKey _).phase i hi, hof, ← (Tracker.agreeAt_ofKey _).phase i hi]
  by_cases hxy : I.key x.gossip.id = some k ∧ I.key y.gossip.id = some k
  · have htotal := h.total_eq hI (hl.trans (.swap hne pre post)) hl
    rw [supersededOf_split k, supersededOf_split k] at htotal
    have hother : supersededOf I (otherIds I k l) (pre ++ y :: x :: post) =
        supersededOf I (otherIds I k l) (pre ++ x :: y :: post) := by
      apply List.countP_congr
      intro i hi
      have hik : I.key i ≠ some k := by simpa using (List.mem_filter.1 hi).2
      cases hk' : I.key i with
      | none => rw [Tracker.isSuperseded_of_key_none hk', Tracker.isSuperseded_of_key_none hk']
      | some k' =>
        have hne' : k ≠ k' := by rintro rfl; exact hik hk'
        rw [hkey k' ?_ i hk']
        simp [Tracker.ofKey_append, Tracker.ofKey_cons, hxy.1, hxy.2, hne']
    omega
  · apply List.countP_congr
    intro i hi
    rw [hkey k ?_ i (by simpa using (List.mem_filter.1 hi).2)]
    simp only [Tracker.ofKey_append, Tracker.ofKey_cons]
    by_cases hx : I.key x.gossip.id = some k
    · have hy : I.key y.gossip.id ≠ some k := fun hy => hxy ⟨hx, hy⟩
      simp [hx, hy]
    · simp [hx]

theorem countP_mem_eq_length {L S : List MsgId} (hL : L.Nodup) (hS : S.Nodup) (h : S ⊆ L) :
    L.countP (· ∈ S) = S.length := by
  rw [List.countP_eq_length_filter]
  refine ((List.perm_ext_iff_of_nodup (hL.filter _) hS).2 fun i => ?_).length_eq
  simp only [List.mem_filter, decide_eq_true_eq, and_iff_right_iff_imp]
  exact fun hi => h hi

/-- What comes before the first tuple of the newest version is superseded, no more. -/
theorem count_of_overtaken {k : Nat} (hone : OncePerNode l) (hg : SameProj Sighting.node l g)
    {Q R : List (Sighting n)} {x : Sighting n} (hk : Tracker.ofKey I k g = Q ++ x :: R)
    (hids : (Q.map fun y => y.gossip.id).Nodup)
    (hlt : ∀ y ∈ Q, I.version y.gossip.id < I.version x.gossip.id)
    (hmax : ∀ y ∈ l, I.key y.gossip.id = some k → I.version y.gossip.id ≤ I.version x.gossip.id)
    (hn : 2 ≤ n) :
    Overtaken I k (I.version x.gossip.id) (Q.map fun y => y.gossip.id)
      (Tracker.run I (Tracker.ofKey I k g)) ∧
    supersededOf I (keyIds I k l) g = Q.length := by
  have hmem : ∀ y ∈ Q ++ x :: R, y ∈ l ∧ I.key y.gossip.id = some k := fun y hy => by
    obtain ⟨hyg, hyk⟩ := Tracker.mem_ofKey.1 (hk ▸ hy : y ∈ Tracker.ofKey I k g)
    exact ⟨hg.mem_iff.2 hyg, hyk⟩
  have honeQ : OncePerNode Q := (hone.of_sameProj hg).sublist <| by
    have : Q.Sublist (Tracker.ofKey I k g) := hk ▸ List.sublist_append_left _ _
    exact this.trans List.filter_sublist
  have hover : Overtaken I k (I.version x.gossip.id) (Q.map fun y => y.gossip.id)
      (Tracker.run I (Tracker.ofKey I k g)) := by
    rw [hk]
    refine overtaken_run (fun y hy => (hmem y hy).2) honeQ hids hlt (fun y hy => ?_) fun _ => hn
    obtain ⟨hyl, hyk⟩ := hmem y (by simp [hy])
    exact hmax y hyl hyk
  refine ⟨hover, ?_⟩
  have hsub : (Q.map fun y => y.gossip.id) ⊆ keyIds I k l := fun i hi => by
    obtain ⟨y, hy, rfl⟩ := List.mem_map.1 hi
    obtain ⟨hyl, hyk⟩ := hmem y (by simp [hy])
    exact List.mem_filter.2 ⟨mem_idsOf.2 ⟨y, hyl, rfl⟩, by simpa using hyk⟩
  have hlen : (Q.map fun y => y.gossip.id).length = Q.length := List.length_map _
  rw [← hlen,
    ← countP_mem_eq_length ((nodup_idsOf l).filter _) hids hsub]
  apply List.countP_congr
  intro i hi
  have hik : I.key i = some k := by simpa using (List.mem_filter.1 hi).2
  rw [(Tracker.agreeAt_ofKey g).phase i hik, decide_eq_true_eq]
  constructor
  · intro hs
    by_contra hno
    rw [hover.rest i hik hno] at hs
    cases hs
  · intro hiQ
    obtain ⟨m, hm, -⟩ := hover.closed i hiQ
    rw [hm]; rfl

theorem OncePerNode.nodup_ids (hone : OncePerNode l) {v : Fin n} (hv : ∀ x ∈ l, x.node = v) :
    (l.map fun x => x.gossip.id).Nodup := by
  have hnd : l.Nodup := List.Nodup.of_map _ hone
  rw [OncePerNode, List.nodup_map_iff_inj_on hnd] at hone
  rw [List.nodup_map_iff_inj_on hnd]
  intro x hx y hy hxy
  exact hone x hx y hy (by rw [hv x hx, hv y hy, hxy])

/-- The part of a list before the first element that is no more older than `M`. -/
theorem exists_older_split (f : Sighting n → Nat) (M : Nat) (L : List (Sighting n)) :
    ∃ Q R, L = Q ++ R ∧ (∀ y ∈ Q, f y < M) ∧ ∀ y ∈ R.head?, M ≤ f y := by
  induction L with
  | nil => exact ⟨[], [], rfl, by simp, by simp⟩
  | cons x L ih =>
    by_cases hx : f x < M
    · obtain ⟨Q, R, rfl, hQ, hR⟩ := ih
      exact ⟨x :: Q, R, rfl, by simpa [hx] using hQ, hR⟩
    · exact ⟨[], x :: L, rfl, by simp, by simpa using hx⟩

/-- The tuples of one node. -/
def fromNode (v : Fin n) (l : List (Sighting n)) : List (Sighting n) :=
  l.filter (Sighting.node · = v)

theorem mem_fromNode {v : Fin n} {x : Sighting n} : x ∈ fromNode v l ↔ x ∈ l ∧ x.node = v := by
  simp [fromNode]

theorem nodup_ids_of_sublist {v : Fin n} (hone : OncePerNode l) {Q : List (Sighting n)}
    (hQ : Q.Sublist (fromNode v l)) : (Q.map fun x => x.gossip.id).Nodup :=
  (hone.sublist (hQ.trans List.filter_sublist)).nodup_ids fun _ hx =>
    (mem_fromNode.1 (hQ.subset hx)).2

theorem two_le_of_ne {u w : Fin n} (h : u ≠ w) : 2 ≤ n := by
  have hu := u.isLt
  have hw := w.isLt
  have := Fin.val_ne_of_ne h
  omega

/-- The streams of two nodes first. -/
theorem sameProj_blocks {u w : Fin n} (h : u ≠ w) (l : List (Sighting n)) :
    SameProj Sighting.node l (fromNode u l ++ fromNode w l ++
      l.filter fun x => x.node ≠ u ∧ x.node ≠ w) := SameProj.blocks h l

section Overtake

variable {k M : Nat} {u w : Fin n}

theorem ofKey_eq_cons {L S : List (Sighting n)} {x : Sighting n} (h : Tracker.ofKey I k L = x :: S) :
    ∃ L₁ L₂, L = L₁ ++ x :: L₂ ∧ Tracker.ofKey I k L₁ = [] ∧ I.key x.gossip.id = some k ∧
      Tracker.ofKey I k L₂ = S := by
  obtain ⟨L₁, L₂, rfl, hL₁, hx, hL₂⟩ := List.filter_eq_cons_iff.1 h
  exact ⟨L₁, L₂, rfl, List.filter_eq_nil_iff.2 hL₁, by simpa using hx, hL₂⟩

theorem fromNode_ne (h : u ≠ w) : ∀ y ∈ fromNode u l, ∀ z ∈ fromNode w l, y.node ≠ z.node := by
  intro y hy z hz
  rw [(mem_fromNode.1 hy).2, (mem_fromNode.1 hz).2]
  exact h

/-- `u` comes to the newest version with `x`, after the older `Q`, and `w` starts with the
older `b`. -/
structure Overtakes (I : Identity) (l : List (Sighting n)) (k M : Nat) (u w : Fin n)
    (Q R W : List (Sighting n)) (x b : Sighting n) : Prop where
  ne : u ≠ w
  ofKey_left : Tracker.ofKey I k (fromNode u l) = Q ++ x :: R
  ofKey_right : Tracker.ofKey I k (fromNode w l) = b :: W
  newest : I.version x.gossip.id = M
  older : ∀ y ∈ Q, I.version y.gossip.id < M
  behind : I.version b.gossip.id < M
  max : ∀ y ∈ l, I.key y.gossip.id = some k → I.version y.gossip.id ≤ M

namespace Overtakes

variable {Q R W : List (Sighting n)} {x b : Sighting n}

theorem nodup_ids (h : Overtakes I l k M u w Q R W x b) (hone : OncePerNode l) :
    (Q.map fun y => y.gossip.id).Nodup := by
  refine nodup_ids_of_sublist (v := u) hone ?_
  have hQ : Q.Sublist (Tracker.ofKey I k (fromNode u l)) :=
    h.ofKey_left ▸ List.sublist_append_left _ _
  exact hQ.trans List.filter_sublist

/-- `u` first: its older versions are superseded after one tuple. -/
theorem left_first (h : Overtakes I l k M u w Q R W x b) (hone : OncePerNode l) :
    ∃ g, SameProj Sighting.node l g ∧
      Overtaken I k M (Q.map fun y => y.gossip.id) (Tracker.run I (Tracker.ofKey I k g)) ∧
      supersededOf I (keyIds I k l) g = Q.length := by
  refine ⟨_, sameProj_blocks h.ne l, ?_⟩
  have hkey : Tracker.ofKey I k (fromNode u l ++ fromNode w l ++
      l.filter fun x => x.node ≠ u ∧ x.node ≠ w) = Q ++ x :: (R ++ (b :: W ++
        Tracker.ofKey I k (l.filter fun x => x.node ≠ u ∧ x.node ≠ w))) := by
    rw [Tracker.ofKey_append, Tracker.ofKey_append, h.ofKey_right, h.ofKey_left]
    simp
  have hcount := count_of_overtaken (I := I) hone (sameProj_blocks h.ne l) hkey (h.nodup_ids hone)
    (by rw [h.newest]; exact h.older) (by rw [h.newest]; exact h.max) (two_le_of_ne h.ne)
  rwa [h.newest] at hcount

/-- `b` right after the same message from `u`: two tuples are in time. -/
theorem right_after (h : Overtakes I l k M u w Q R W x b) (hone : OncePerNode l) {c : Sighting n}
    (hc : c ∈ Q) (hid : c.gossip.id = b.gossip.id) :
    ∃ g, SameProj Sighting.node l g ∧ c ∈ l ∧ I.key c.gossip.id = some k ∧
      2 ≤ ((Tracker.run I g).phase c.gossip.id).coverage := by
  obtain ⟨Q₁, Q₂, rfl⟩ := List.append_of_mem hc
  obtain ⟨U, U', hU, hU₁, hUk⟩ := List.filter_eq_append_iff.1
    (show (fromNode u l).filter (fun y => decide (I.key y.gossip.id = some k)) =
      Q₁ ++ (c :: (Q₂ ++ x :: R)) from h.ofKey_left.trans (by simp))
  obtain ⟨U₂, U₃, rfl, hU₂, hck, hU₃⟩ := ofKey_eq_cons hUk
  obtain ⟨V, V', hV, hV₀, hbk, hV₁⟩ := ofKey_eq_cons h.ofKey_right
  have hcu : c ∈ fromNode u l := by rw [hU]; simp
  have hbw : b ∈ fromNode w l := by rw [hV]; simp
  have hmeet : SameProj Sighting.node
      (fromNode u l ++ fromNode w l ++ l.filter fun x => x.node ≠ u ∧ x.node ≠ w)
      (U ++ U₂ ++ [c] ++ (V ++ [b] ++ (U₃ ++ (V' ++
        l.filter fun x => x.node ≠ u ∧ x.node ≠ w)))) := by
    have hne : ∀ y ∈ U₃, ∀ z ∈ V ++ [b], y.node ≠ z.node := fun y hy z hz =>
      fromNode_ne h.ne y (by rw [hU]; simp [hy]) z (by
        rw [hV, List.append_cons]
        exact List.mem_append_left _ hz)
    have heq : fromNode u l ++ fromNode w l =
        U ++ U₂ ++ [c] ++ U₃ ++ (V ++ [b] ++ V') := by
      rw [hU, hV]
      simp
    rw [heq]
    exact .meet hne V' _
  refine ⟨_, (sameProj_blocks h.ne l).trans hmeet, (mem_fromNode.1 hcu).1, hck, ?_⟩
  have hkey : Tracker.ofKey I k (U ++ U₂ ++ [c] ++ (V ++ [b] ++ (U₃ ++ (V' ++
      l.filter fun x => x.node ≠ u ∧ x.node ≠ w)))) = Q₁ ++ c :: b :: Tracker.ofKey I k (U₃ ++ (V' ++
        l.filter fun x => x.node ≠ u ∧ x.node ≠ w)) := by
    rw [Tracker.ofKey_append, Tracker.ofKey_append, Tracker.ofKey_append, Tracker.ofKey_append,
      Tracker.ofKey_append, hV₀, show Tracker.ofKey I k U = Q₁ from hU₁, hU₂]
    simp [hck, hbk, Tracker.ofKey]
  have hfresh : ∀ z ∈ Q₁, z.gossip.id ≠ c.gossip.id := by
    have hids := h.nodup_ids hone
    rw [List.map_append, List.nodup_append] at hids
    exact fun z hz => hids.2.2 z.gossip.id (List.mem_map_of_mem hz) c.gossip.id (by simp)
  rw [(Tracker.agreeAt_ofKey _).phase c.gossip.id hck, hkey]
  exact two_le_coverage hfresh hid.symm (fromNode_ne h.ne c hcu b hbw)

/-- `b` first: it is superseded, too. -/
theorem right_first (h : Overtakes I l k M u w Q R W x b) (hone : OncePerNode l)
    (hb : b.gossip.id ∉ Q.map fun y => y.gossip.id) :
    ∃ g, SameProj Sighting.node l g ∧ supersededOf I (keyIds I k l) g = Q.length + 1 := by
  obtain ⟨V, V', hV, hV₀, hbk, hV₁⟩ := ofKey_eq_cons h.ofKey_right
  have hmeet : SameProj Sighting.node
      (fromNode u l ++ fromNode w l ++ l.filter fun x => x.node ≠ u ∧ x.node ≠ w)
      (V ++ [b] ++ (fromNode u l ++ (V' ++ l.filter fun x => x.node ≠ u ∧ x.node ≠ w))) := by
    have hne : ∀ y ∈ fromNode u l, ∀ z ∈ V ++ [b], y.node ≠ z.node := fun y hy z hz =>
      fromNode_ne h.ne y hy z (by
        rw [hV, List.append_cons]
        exact List.mem_append_left _ hz)
    rw [hV, List.append_cons]
    exact SameProj.meet (u := []) hne V' _
  refine ⟨_, (sameProj_blocks h.ne l).trans hmeet, ?_⟩
  have hkey : Tracker.ofKey I k (V ++ [b] ++ (fromNode u l ++ (V' ++
      l.filter fun x => x.node ≠ u ∧ x.node ≠ w))) = (b :: Q) ++ x :: (R ++ Tracker.ofKey I k (V' ++
        l.filter fun x => x.node ≠ u ∧ x.node ≠ w)) := by
    rw [Tracker.ofKey_append, Tracker.ofKey_append, Tracker.ofKey_append, hV₀, h.ofKey_left]
    simp [hbk, Tracker.ofKey]
  exact (count_of_overtaken (I := I) hone ((sameProj_blocks h.ne l).trans hmeet) hkey
    (List.nodup_cons.2 ⟨hb, h.nodup_ids hone⟩) (by rw [h.newest]; simpa [h.behind] using h.older)
    (by rw [h.newest]; exact h.max) (two_le_of_ne h.ne)).2

end Overtakes

/-- If `u` has a tuple of the newest version and `w` starts with an older one, then it
matters how the two are interleaved. -/
theorem OrderIndependent.not_older_first (h : OrderIndependent ps l) (hone : OncePerNode l)
    (hI : ∀ x ∈ l, I.Fits x)
    (hmax : ∀ y ∈ l, I.key y.gossip.id = some k → I.version y.gossip.id ≤ M) (huw : u ≠ w)
    {q b : Sighting n} (hq : q ∈ Tracker.ofKey I k (fromNode u l))
    (hqM : I.version q.gossip.id = M) (hb : b ∈ (Tracker.ofKey I k (fromNode w l)).head?)
    (hbM : I.version b.gossip.id < M) : False := by
  obtain ⟨Q, R, hK, hQ, hR⟩ := exists_older_split (fun y => I.version y.gossip.id) M
    (Tracker.ofKey I k (fromNode u l))
  obtain ⟨x, R', rfl, hxM⟩ : ∃ x R', R = x :: R' ∧ I.version x.gossip.id = M := by
    cases R with
    | nil =>
      rw [hK, List.append_nil] at hq
      exact absurd (hQ q hq) (by omega)
    | cons x R =>
      refine ⟨x, R, rfl, le_antisymm ?_ (hR x rfl)⟩
      have hx : x ∈ Tracker.ofKey I k (fromNode u l) := by rw [hK]; simp
      obtain ⟨hxl, hxk⟩ := Tracker.mem_ofKey.1 hx
      exact hmax x (mem_fromNode.1 hxl).1 hxk
  obtain ⟨W, hW⟩ : ∃ W, Tracker.ofKey I k (fromNode w l) = b :: W := List.head?_eq_some_iff.1 hb
  have ho : Overtakes I l k M u w Q R' W x b := ⟨huw, hK, hW, hxM, hQ, hbM, hmax⟩
  obtain ⟨g, hg, hover, hcount⟩ := ho.left_first hone
  by_cases hbQ : b.gossip.id ∈ Q.map fun y => y.gossip.id
  · obtain ⟨c, hcQ, hid⟩ := List.mem_map.1 hbQ
    obtain ⟨g', hg', hcl, hck, htwo⟩ := ho.right_after hone hcQ hid
    obtain ⟨m, hm, hcov⟩ := hover.closed c.gossip.id (List.mem_map_of_mem hcQ)
    rw [← h.coverage_eq hI hg hg' hcl, (Tracker.agreeAt_ofKey _).phase c.gossip.id hck, hm] at htwo
    exact absurd hcov (ne_of_gt htwo)
  · obtain ⟨g', hg', hcount'⟩ := ho.right_first hone hbQ
    have hsame := h.count_eq hI k hg
    have hsame' := h.count_eq hI k hg'
    omega

end Overtake

/-- A node's first tuple of a key. -/
theorem filter_node_key_eq (hI : ∀ x ∈ l, I.Fits x) (k : Nat) (v : Fin n) :
    l.filter (fun y => decide (y.node = v ∧ y.gossip.chanKey = some k)) =
      Tracker.ofKey I k (fromNode v l) := by
  rw [Tracker.ofKey, fromNode, List.filter_filter]
  apply List.filter_congr
  intro y hy
  simp [(hI y hy).1, Bool.and_comm]

theorem OrderIndependent.key (h : OrderIndependent ps l) (hone : OncePerNode l)
    (hI : ∀ x ∈ l, I.Fits x) (k : Nat) : FromOneNode k l ∨ NewestFirst k l := by
  by_contra hno
  rw [not_or] at hno
  obtain ⟨hmany, hold⟩ := hno
  simp only [FromOneNode, NewestFirst] at hmany hold
  push Not at hmany hold
  obtain ⟨x, hx, y, hy, hxk, hyk, hxy⟩ := hmany
  obtain ⟨v, a, ha, z, hz, hzk, haz⟩ := hold
  rw [filter_node_key_eq hI] at ha
  -- a tuple of the newest version
  obtain ⟨q, hq, hmax⟩ := Finset.exists_max_image (Tracker.ofKey I k l).toFinset
    (fun y => I.version y.gossip.id)
    ⟨x, List.mem_toFinset.2 (Tracker.mem_ofKey.2 ⟨hx, (hI x hx).1.symm.trans hxk⟩)⟩
  obtain ⟨hql, hqk⟩ := Tracker.mem_ofKey.1 (List.mem_toFinset.1 hq)
  have hmax : ∀ y ∈ l, I.key y.gossip.id = some k →
      I.version y.gossip.id ≤ I.version q.gossip.id := fun y hy hk =>
    hmax y (List.mem_toFinset.2 (Tracker.mem_ofKey.2 ⟨hy, hk⟩))
  have hin : ∀ y ∈ l, I.key y.gossip.id = some k → y ∈ Tracker.ofKey I k (fromNode y.node l) :=
    fun y hy hk => Tracker.mem_ofKey.2 ⟨mem_fromNode.2 ⟨hy, rfl⟩, hk⟩
  have haM : I.version a.gossip.id < I.version q.gossip.id := by
    have hmem := (Tracker.mem_ofKey.1 (List.mem_of_mem_head? ha)).1
    rw [(hI z hz).2, (hI a (mem_fromNode.1 hmem).1).2] at haz
    exact haz.trans_le (hmax z hz ((hI z hz).1.symm.trans hzk))
  by_cases hqv : q.node = v
  · -- another node with tuples of the key
    obtain ⟨y', hy', hy'k, hy'v⟩ : ∃ y' ∈ l, I.key y'.gossip.id = some k ∧ y'.node ≠ v := by
      by_cases hxv : x.node = v
      · exact ⟨y, hy, (hI y hy).1.symm.trans hyk, fun hyv => hxy (hxv.trans hyv.symm)⟩
      · exact ⟨x, hx, (hI x hx).1.symm.trans hxk, hxv⟩
    obtain ⟨b, hb⟩ : ∃ b, b ∈ (Tracker.ofKey I k (fromNode y'.node l)).head? :=
      Option.isSome_iff_exists.1 (List.isSome_head?.2 (List.ne_nil_of_mem (hin y' hy' hy'k)))
    have hbmem := List.mem_of_mem_head? hb
    obtain ⟨hbl, hbk⟩ := Tracker.mem_ofKey.1 hbmem
    rcases (hmax b (mem_fromNode.1 hbl).1 hbk).lt_or_eq with hbM | hbM
    · exact h.not_older_first hone hI hmax (by rw [hqv]; exact hy'v.symm) (hin q hql hqk) rfl hb hbM
    · exact h.not_older_first hone hI hmax hy'v hbmem hbM ha haM
  · exact h.not_older_first hone hI hmax hqv (hin q hql hqk) rfl ha haM

/-- The first of two tuples in a run decides the size. -/
theorem OrderIndependent.size (h : OrderIndependent ps l) (hone : OncePerNode l)
    (hI : ∀ x ∈ l, I.Fits x) : ∀ x ∈ l, ∀ y ∈ l, x.gossip.id = y.gossip.id →
      x.gossip.sizeBytes = y.gossip.sizeBytes := by
  have hfirst : ∀ {u w : Fin n} {x : Sighting n}, u ≠ w → x ∈ fromNode u l → ∀ {m b},
      (Tracker.run I (fromNode u l ++ fromNode w l ++
        l.filter fun x => x.node ≠ u ∧ x.node ≠ w)).drain.phase x.gossip.id = .closed m b →
      m.sizeBytes = x.gossip.sizeBytes := by
    intro u w x huw hx m b hm
    have hg := sameProj_blocks huw l
    have hof : ofId x.gossip.id (fromNode u l) = [x] :=
      ofId_eq_singleton (nodup_ids_of_sublist hone (List.Sublist.refl _)) hx
    have htr := traces_run (I := I) (hone.of_sameProj hg) x.gossip.id
    rw [ofId_append, ofId_append, hof, List.append_assoc, List.singleton_append] at htr
    generalize (ofId x.gossip.id (fromNode w l) ++ _) = S at htr
    have hseen : ∃ xs', xs' <+: x :: S ∧ Seen xs' m := by
      simp only [Tracker.drain] at hm
      generalize (Tracker.run I (fromNode u l ++ fromNode w l ++
        l.filter fun x => x.node ≠ u ∧ x.node ≠ w)).phase x.gossip.id = p at htr hm
      cases p with
      | unseen => cases hm
      | live m' => cases hm; exact ⟨_, List.prefix_refl _, htr.1⟩
      | closed m' b' =>
        cases hm
        obtain ⟨xs', hpre, hs, -⟩ := htr
        exact ⟨xs', hpre, hs⟩
    obtain ⟨xs', hpre, hs⟩ := hseen
    obtain ⟨z, hz, hsize⟩ := hs.size
    obtain ⟨T, hT⟩ := hpre
    cases xs' with
    | nil => cases hz
    | cons z' zs =>
      cases hz
      cases hT
      exact hsize
  intro x hx y hy hid
  by_cases hnode : x.node = y.node
  · have hinj := (List.nodup_map_iff_inj_on (List.Nodup.of_map _ hone)).1 hone
    rw [hinj x hx y hy (by rw [hnode, hid])]
  · have hgx := sameProj_blocks hnode l
    have hgy := sameProj_blocks (Ne.symm hnode) l
    obtain ⟨m, b, hm, -⟩ := Tracker.exists_closed_drain (I := I) (hgx.mem_iff.1 hx)
    obtain ⟨m', b', hm', -⟩ := Tracker.exists_closed_drain (I := I) (hgy.mem_iff.1 hy)
    rw [← hfirst hnode (mem_fromNode.2 ⟨hx, rfl⟩) hm,
      ← hfirst (Ne.symm hnode) (mem_fromNode.2 ⟨hy, rfl⟩) hm']
    exact (h.data_eq hI hgx hgy hm (hid ▸ hm')).2

/-- The output does not depend on the order in which the nodes' tuples come in exactly
if the tuples are settled. -/
theorem delivery_order_independent (ps : List P) (hone : OncePerNode l) (hid : SameIdentity l) :
    OrderIndependent ps l ↔ Settled ps l := by
  have hI := hid.fits
  refine ⟨fun h => ?_, fun h => h.orderIndependent hone hI⟩
  have hset : Settled ([] : List P) l := ⟨by simp, h.size hone hI, h.key hone hI⟩
  refine ⟨fun i p hp hlt => ?_, hset.size, hset.key⟩
  -- no row fails, so each percentile finds its slot
  have hne : ofId i l ≠ [] := by
    rintro hnil
    rw [hnil] at hlt
    cases hlt
  obtain ⟨x, hx⟩ := List.exists_mem_of_ne_nil _ hne
  obtain ⟨hxl, rfl⟩ := mem_ofId.1 hx
  obtain ⟨m, b, hm, -⟩ := Tracker.exists_closed_drain (I := .ofSightings l) hxl
  have hs := hset.seen hone hI hm
  obtain ⟨s, -, hr, -⟩ := h.rows hI (.refl l) (.refl l)
  have hsome : (finalizeMsg x.gossip.id m ps).isSome := by
    by_contra hno
    exact hr.not_fails ⟨_, m, b, hm, by simpa using hno⟩
  have := finalizeMsg_isSome.1 hsome p hp (by rwa [hs.coverage])
  rwa [hs.filled (hone.nodup_nodes _)] at this

end Order

/-! ## Samples -/

/-- Node 0 alone sees two versions of channel 7; both nodes see one of channel 8. -/
def settledTuples : List (Sighting 2) :=
  [⟨0, updateOf 1 7 10, 100⟩, ⟨0, updateOf 2 7 20, 200⟩, ⟨1, updateOf 3 8 10, 150⟩,
    ⟨0, updateOf 3 8 10, 120⟩]

theorem delivery_order_independent_sample :
    OrderIndependent [(⟨50⟩ : Percent)] settledTuples := by
  have hone : OncePerNode settledTuples := by unfold OncePerNode; decide
  have hid : SameIdentity settledTuples := by unfold SameIdentity; decide
  refine (delivery_order_independent [(⟨50⟩ : Percent)] hone hid).2 ⟨?_, by decide, fun k => ?_⟩
  · have hall : ∀ x ∈ settledTuples, x.timeNs ≠ NOT_SEEN := by decide
    intro i p _ hlt
    have hcount : (ofId i settledTuples).countP (fun x => x.timeNs ≠ NOT_SEEN) =
        (ofId i settledTuples).length :=
      List.countP_eq_length.2 fun x hx => by simpa using hall x (mem_ofId.1 hx).1
    rwa [hcount]
  · by_cases hk : k = packCuKey 7 0
    · subst hk
      left; unfold FromOneNode; decide
    · have hts : ∀ x ∈ settledTuples,
          x.gossip.chanKey = some (packCuKey 7 0) ∨ x.gossip.timestamp = 10 := by decide
      refine .inr fun v x hx y hy hyk => ?_
      have hx' := List.mem_filter.1 (List.mem_of_mem_head? hx)
      have hxk : x.gossip.chanKey = some k := by simpa using (of_decide_eq_true hx'.2).2
      have hx10 := (hts x hx'.1).resolve_left fun h => hk (by simpa [hxk] using h)
      have hy10 := (hts y hy).resolve_left fun h => hk (by simpa [hyk] using h)
      omega

/-- Both nodes see both versions of an update. -/
def versionTuples : List (Sighting 2) := sightings twoVersions

/-- Each version is flushed before the next one comes in. -/
def flushedOften : List (Fin 2 × List FirstSeenEntry) :=
  [(1, [⟨updateOf 1 7 10, 120⟩]), (0, [⟨updateOf 1 7 10, 100⟩]),
    (1, [⟨updateOf 2 7 20, 220⟩]), (0, [⟨updateOf 2 7 20, 200⟩])]

/-- Flushed together, the first node's newer version closes the older one before the
second node's tuple for it comes in. -/
theorem flush_interval_matters : OncePerNode versionTuples ∧ SameIdentity versionTuples ∧
    ¬ OrderIndependent [(⟨50⟩ : Percent)] versionTuples := by
  refine ⟨by unfold OncePerNode; decide, by unfold SameIdentity; decide, fun h => ?_⟩
  obtain ⟨s, s', hs, hs', hperm, -⟩ := h twoVersions flushedOften (.refl _)
    (by unfold Delivers SameProj; decide)
  have hlate : ((AggregatorState.aggregate [(⟨50⟩ : Percent)] twoVersions).all fun s =>
      decide ((1, 1) ∈ s.mirror.map fun row => (row.id, row.coverage))) = true := by
    decide +kernel
  have hearly : ((AggregatorState.aggregate [(⟨50⟩ : Percent)] flushedOften).all fun s =>
      decide ((1, 1) ∉ s.mirror.map fun row => (row.id, row.coverage))) = true := by
    decide +kernel
  rw [hs, Option.all_some, decide_eq_true_eq] at hlate
  rw [hs', Option.all_some, decide_eq_true_eq] at hearly
  exact hearly ((hperm.map _).mem_iff.1 hlate)

end LnConv
