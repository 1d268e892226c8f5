import LnConv.Diff

/-!
# What a diff reports

`IsDiff a b kind which r` says in terms of the entries of the two states what a diff has to
count and to list. It says it of both sides in the same way, so the lock order cannot matter.
-/

namespace LnConv

/-- An entry of a state; a channel announcement stands at timestamp `0`. -/
structure Entry where
  key : Nat
  timestamp : Nat
  sizeBytes : Nat

def NodeState.entries (s : NodeState) : SketchKind → List Entry
  | .chanUpdates => s.chanUpdates.entries.map fun e => ⟨e.1, e.2.1, e.2.2⟩
  | .nodeAnns => s.nodeAnns.entries.map fun e => ⟨e.1, e.2.1, e.2.2⟩
  | .chanAnns => s.chanAnns.entries.map fun e => ⟨e.1, 0, e.2⟩

/-- The entry has its key and timestamp in common with the state. -/
def Entry.SharedBy (e : Entry) (s : NodeState) (kind : SketchKind) : Prop :=
  s.view kind.toGossip e.key = WithBot.some e.timestamp

/-- The state lacks the key, or holds it under an older timestamp. -/
def Entry.NewerThan (e : Entry) (s : NodeState) (kind : SketchKind) : Prop :=
  s.view kind.toGossip e.key < WithBot.some e.timestamp

instance (e : Entry) (s : NodeState) (kind : SketchKind) : Decidable (e.SharedBy s kind) :=
  inferInstanceAs (Decidable (_ = _))

instance (e : Entry) (s : NodeState) (kind : SketchKind) : Decidable (e.NewerThan s kind) :=
  inferInstanceAs (Decidable (_ < _))

section Spec

variable [MsgHash]

/-- The gossip that announces an entry. -/
def Entry.gossip (e : Entry) : SketchKind → Gossip
  | .chanUpdates => synthCu e.key (e.timestamp, e.sizeBytes)
  | .nodeAnns => synthNa e.key (e.timestamp, e.sizeBytes)
  | .chanAnns => synthChanAnn e.key e.sizeBytes

/-- What `s` has newer than `other`, if it is asked for. -/
def NodeState.newerThan (s other : NodeState) (kind : SketchKind) (wanted : Bool) : List Gossip :=
  if wanted then ((s.entries kind).filter (·.NewerThan other kind)).map (·.gossip kind) else []

structure IsDiff (a b : NodeState) (kind : SketchKind) (which : WhichSide) (r : DiffResult) :
    Prop where
  aOnlyCount : r.aOnlyCount = (a.entries kind).countP fun e => ¬ e.SharedBy b kind
  bOnlyCount : r.bOnlyCount = (b.entries kind).countP fun e => ¬ e.SharedBy a kind
  intersection : r.intersection = (a.entries kind).countP (·.SharedBy b kind)
  intersection' : r.intersection = (b.entries kind).countP (·.SharedBy a kind)
  aNewer : r.aNewer.Perm (a.newerThan b kind which.wantA)
  bNewer : r.bNewer.Perm (b.newerThan a kind which.wantB)

variable {a b : NodeState} {kind : SketchKind} {which : WhichSide} {r r' : DiffResult}

theorem IsDiff.swap (h : IsDiff a b kind which r) : IsDiff b a kind which.swap r.swap :=
  ⟨h.bOnlyCount, h.aOnlyCount, h.intersection', h.intersection,
    by rw [WhichSide.wantA_swap]; exact h.bNewer, by rw [WhichSide.wantB_swap]; exact h.aNewer⟩

/-- Two diffs of the same states agree up to the order of their lists. -/
theorem IsDiff.unique (h : IsDiff a b kind which r) (h' : IsDiff a b kind which r') :
    r.aOnlyCount = r'.aOnlyCount ∧ r.bOnlyCount = r'.bOnlyCount ∧
      r.intersection = r'.intersection ∧ r.aNewer.Perm r'.aNewer ∧ r.bNewer.Perm r'.bNewer :=
  ⟨h.aOnlyCount.trans h'.aOnlyCount.symm, h.bOnlyCount.trans h'.bOnlyCount.symm,
    h.intersection.trans h'.intersection.symm, h.aNewer.trans h'.aNewer.symm,
    h.bNewer.trans h'.bNewer.symm⟩

/-- Each entry is shared or on its own side. -/
theorem IsDiff.length (h : IsDiff a b kind which r) :
    r.aOnlyCount + r.intersection = (a.entries kind).length ∧
      r.bOnlyCount + r.intersection = (b.entries kind).length := by
  constructor
  · rw [h.aOnlyCount, h.intersection, Nat.add_comm]
    simpa using (List.length_eq_countP_add_countP (l := a.entries kind) (·.SharedBy b kind)).symm
  · rw [h.bOnlyCount, h.intersection', Nat.add_comm]
    simpa using (List.length_eq_countP_add_countP (l := b.entries kind) (·.SharedBy a kind)).symm

end Spec

/-! ## Counting the keys two maps share -/

section Shared

variable {V : Type} {stamp : V → Nat} {synth : Nat → V → Gossip} {la lb : IntMap V}
  {which : WhichSide}

theorem countP_keys (m : IntMap V) (P : Nat → Prop) [DecidablePred P] :
    (m.entries.countP fun e => P e.1) = (m.keys.filter P).length := by
  rw [AList.keys, List.keys, List.filter_map, List.length_map, List.countP_eq_length_filter]
  rfl

/-- Keys that are in both maps are counted alike over either. -/
theorem countP_shared {P : Nat → Prop} [DecidablePred P] (hP : ∀ k, P k → k ∈ la ∧ k ∈ lb) :
    (la.entries.countP fun e => P e.1) = lb.entries.countP fun e => P e.1 := by
  rw [countP_keys, countP_keys]
  refine List.Perm.length_eq ((List.perm_ext_iff_of_nodup (la.keys_nodup.filter _)
    (lb.keys_nodup.filter _)).2 fun k => ?_)
  simp only [List.mem_filter, decide_eq_true_eq]
  exact ⟨fun h => ⟨(hP k h.2).2, h.2⟩, fun h => ⟨(hP k h.2).1, h.2⟩⟩

theorem stampView_of_mem {e : Sigma fun _ : Nat => V} (he : e ∈ la.entries) :
    stampView stamp la e.1 = WithBot.some (stamp e.2) :=
  stampView_of_lookup (AList.mem_lookup_iff.2 he)

theorem mem_of_stampView {k : Nat} (h : stampView stamp la k ≠ ⊥) : k ∈ la := by
  rw [← AList.lookup_isSome, ← Option.ne_none_iff_isSome]
  exact fun hn => h (stampView_eq_bot.2 hn)

theorem countP_stamp_eq (stamp : V → Nat) (la lb : IntMap V) :
    (la.entries.countP fun e => stampView stamp lb e.1 = WithBot.some (stamp e.2)) =
      lb.entries.countP fun e => stampView stamp la e.1 = WithBot.some (stamp e.2) := by
  have hshared : ∀ k, stampView stamp la k = stampView stamp lb k ∧ stampView stamp la k ≠ ⊥ →
      k ∈ la ∧ k ∈ lb :=
    fun k hk => ⟨mem_of_stampView hk.2, mem_of_stampView (hk.1 ▸ hk.2)⟩
  have hcomm := countP_shared hshared
  refine (List.countP_congr fun e he => ?_).trans (hcomm.trans (List.countP_congr fun e he => ?_))
  · rw [decide_eq_true_eq, decide_eq_true_eq, stampView_of_mem he]
    exact ⟨fun h => ⟨h.symm, WithBot.coe_ne_bot⟩, fun h => h.1.symm⟩
  · rw [decide_eq_true_eq, decide_eq_true_eq, stampView_of_mem he]
    exact ⟨fun h => h.1, fun h => ⟨h, h ▸ WithBot.coe_ne_bot⟩⟩

theorem countP_stamp_ne (stamp : V → Nat) (la lb : IntMap V) :
    (la.entries.countP fun e => (lb.lookup e.1).isSome &&
      stampView stamp lb e.1 ≠ WithBot.some (stamp e.2)) =
      lb.entries.countP fun e => (la.lookup e.1).isSome &&
        stampView stamp la e.1 ≠ WithBot.some (stamp e.2) := by
  have hshared : ∀ k, stampView stamp la k ≠ stampView stamp lb k ∧ k ∈ la ∧ k ∈ lb →
      k ∈ la ∧ k ∈ lb := fun k hk => hk.2
  have hcomm := countP_shared hshared
  have hmem : ∀ {m : IntMap V} {e : Sigma fun _ : Nat => V}, e ∈ m.entries → e.1 ∈ m :=
    fun he => AList.lookup_isSome.1 (by rw [AList.mem_lookup_iff.2 he]; rfl)
  refine (List.countP_congr fun e he => ?_).trans (hcomm.trans (List.countP_congr fun e he => ?_))
  · rw [Bool.and_eq_true, decide_eq_true_eq, decide_eq_true_eq, stampView_of_mem he,
      AList.lookup_isSome]
    exact ⟨fun h => ⟨h.2.symm, hmem he, h.1⟩, fun h => ⟨h.2.2, h.1.symm⟩⟩
  · rw [Bool.and_eq_true, decide_eq_true_eq, decide_eq_true_eq, stampView_of_mem he,
      AList.lookup_isSome]
    exact ⟨fun h => ⟨h.2.1, h.1⟩, fun h => ⟨h.2, h.1, hmem he⟩⟩

/-! ## The loops report the diff -/

theorem diffFirst_intersection (r : DiffResult) (e : Sigma fun _ : Nat => V) :
    (diffFirst stamp synth lb which r e).intersection =
      r.intersection + if stampView stamp lb e.1 = WithBot.some (stamp e.2) then 1 else 0 := by
  unfold diffFirst
  cases h : lb.lookup e.1 with
  | none => cases which.wantA <;> simp [stampView_eq_bot.2 h]
  | some vb =>
    by_cases he : stamp vb = stamp e.2
    · simp [stampView_of_lookup h, he]
    · simp only [he, if_false, stampView_of_lookup h, WithBot.coe_inj, Nat.add_zero]
      split <;> split <;> rfl

theorem foldl_diffFirst_intersection (es : List (Sigma fun _ : Nat => V)) (r : DiffResult) :
    (es.foldl (diffFirst stamp synth lb which) r).intersection =
      r.intersection + es.countP fun e => stampView stamp lb e.1 = WithBot.some (stamp e.2) := by
  induction es generalizing r with
  | nil => simp
  | cons e es ih =>
    rw [List.foldl_cons, ih, diffFirst_intersection, List.countP_cons]
    simp only [decide_eq_true_eq]
    omega

theorem foldl_diffSecond_intersection (es : List (Sigma fun _ : Nat => V)) (r : DiffResult) :
    (es.foldl (diffSecond synth la which) r).intersection = r.intersection := by
  induction es generalizing r with
  | nil => rfl
  | cons e es ih =>
    rw [List.foldl_cons, ih, diffSecond]
    split
    · rfl
    · cases which.wantB <;> rfl

theorem diffMaps_intersection (la lb : IntMap V) (which : WhichSide) :
    (diffMaps stamp synth la lb which).intersection =
      la.entries.countP fun e => stampView stamp lb e.1 = WithBot.some (stamp e.2) := by
  rw [diffMaps, foldl_diffSecond_intersection, foldl_diffFirst_intersection, Nat.zero_add]

/-- The second side is counted like the first, although in two loops. -/
theorem diffMaps_bOnlyCount' (la lb : IntMap V) (which : WhichSide) :
    (diffMaps stamp synth la lb which).bOnlyCount =
      lb.entries.countP fun e => stampView stamp la e.1 ≠ WithBot.some (stamp e.2) := by
  have hsplit := List.countP_eq_countP_filter_add lb.entries
    (fun e => decide (stampView stamp la e.1 ≠ WithBot.some (stamp e.2)))
    fun e => (la.lookup e.1).isSome
  rw [diffMaps_bOnlyCount, countP_stamp_ne, hsplit, List.countP_filter, List.countP_filter]
  congr 1
  · simp only [Bool.and_comm]
  · apply List.countP_congr
    intro e _
    cases h : la.lookup e.1 with
    | none => simp [stampView_eq_bot.2 h]
    | some v => simp

theorem diffMaps_bNewer_perm {K : GossipKind} (hs : Rebuilds K stamp synth lb)
    (which : WhichSide) : (diffMaps stamp synth la lb which).bNewer.Perm
      (if which.wantB then lb.entries.filterMap (pickA stamp synth la) else []) := by
  cases hw : which.wantB with
  | false => simp [diffMaps_bNewer, hw]
  | true =>
    -- the list of the mirrored call has the same gossips, and neither repeats one
    have hb : (diffMaps stamp synth la lb which).bNewer.Nodup :=
      (newerList_diffMaps_bNewer hs hw).nodup.of_map
    have ha : (diffMaps stamp synth lb la .a).aNewer.Nodup :=
      (newerList_diffMaps_aNewer hs rfl).nodup.of_map
    rw [diffMaps_aNewer] at ha
    rw [diffMaps_bNewer, hw] at hb ⊢
    exact (List.perm_ext_iff_of_nodup hb ha).2 fun g => mem_pickB.trans mem_pickA.symm

end Shared

/-! ## The diff of two states -/

theorem WhichSide.swap_swap (w : WhichSide) : w.swap.swap = w := by cases w <;> rfl

section Diff

variable [MsgHash] {a b : NodeState} {kind : SketchKind}

/-- How a map is the part of a state for a kind. -/
structure IsPart {V : Type} (stamp : V → Nat) (synth : Nat → V → Gossip) (m : IntMap V)
    (s : NodeState) (kind : SketchKind) : Prop where
  view : s.view kind.toGossip = stampView stamp m
  rebuilds : Rebuilds kind.toGossip stamp synth m
  entries : ∃ entry : (Sigma fun _ : Nat => V) → Entry, s.entries kind = m.entries.map entry ∧
    ∀ e, (entry e).key = e.1 ∧ (entry e).timestamp = stamp e.2 ∧ (entry e).gossip kind = synth e.1 e.2

theorem IsPart.countP_entries {V : Type} {stamp : V → Nat} {synth : Nat → V → Gossip}
    {la lb : IntMap V} (ha : IsPart stamp synth la a kind) (hb : IsPart stamp synth lb b kind) :
    (a.entries kind).countP (fun e => ¬ e.SharedBy b kind) =
        (la.entries.countP fun e => stampView stamp lb e.1 ≠ WithBot.some (stamp e.2)) ∧
      (a.entries kind).countP (·.SharedBy b kind) =
        la.entries.countP fun e => stampView stamp lb e.1 = WithBot.some (stamp e.2) := by
  obtain ⟨entry, hentries, hentry⟩ := ha.entries
  rw [hentries, List.countP_map, List.countP_map]
  constructor
  all_goals
    apply List.countP_congr
    intro e _
    simp [Entry.SharedBy, hb.view, hentry]

theorem IsPart.newerThan {V : Type} {stamp : V → Nat} {synth : Nat → V → Gossip}
    {la lb : IntMap V} (ha : IsPart stamp synth la a kind) (hb : IsPart stamp synth lb b kind)
    (wanted : Bool) : a.newerThan b kind wanted =
      if wanted then la.entries.filterMap (pickA stamp synth lb) else [] := by
  obtain ⟨entry, hentries, hentry⟩ := ha.entries
  cases wanted with
  | false => rfl
  | true =>
    rw [NodeState.newerThan, if_pos rfl, if_pos rfl, hentries]
    induction la.entries with
    | nil => rfl
    | cons e es ih =>
      have hpick : pickA stamp synth lb e =
          if (entry e).NewerThan b kind then some ((entry e).gossip kind) else none := by
        simp only [pickA, Entry.NewerThan, hb.view, hentry]
      rw [List.map_cons, List.filter_cons, List.filterMap_cons, hpick]
      by_cases hn : (entry e).NewerThan b kind
      · simpa [hn] using ih
      · simpa [hn] using ih

theorem IsPart.isDiff {V : Type} {stamp : V → Nat} {synth : Nat → V → Gossip} {la lb : IntMap V}
    (ha : IsPart stamp synth la a kind) (hb : IsPart stamp synth lb b kind) (which : WhichSide) :
    IsDiff a b kind which (diffMaps stamp synth la lb which) where
  aOnlyCount := by rw [(ha.countP_entries hb).1, diffMaps_aOnlyCount]
  bOnlyCount := by rw [(hb.countP_entries ha).1, diffMaps_bOnlyCount']
  intersection := by rw [(ha.countP_entries hb).2, diffMaps_intersection]
  intersection' := by rw [(hb.countP_entries ha).2, diffMaps_intersection, countP_stamp_eq]
  aNewer := by rw [ha.newerThan hb, diffMaps_aNewer]
  bNewer := by rw [hb.newerThan ha]; exact diffMaps_bNewer_perm hb.rebuilds which

theorem isPart_chanUpdates (s : NodeState) :
    IsPart Prod.fst synthCu s.chanUpdates s .chanUpdates :=
  ⟨rfl, rebuilds_synthCu s, _, rfl, fun _ => ⟨rfl, rfl, rfl⟩⟩

theorem isPart_nodeAnns (s : NodeState) : IsPart Prod.fst synthNa s.nodeAnns s .nodeAnns :=
  ⟨rfl, rebuilds_synthNa _, _, rfl, fun _ => ⟨rfl, rfl, rfl⟩⟩

theorem isPart_chanAnns (s : NodeState) :
    IsPart scidStamp synthChanAnn s.chanAnns s .chanAnns :=
  ⟨rfl, rebuilds_synthChanAnn _, _, rfl, fun _ => ⟨rfl, rfl, rfl⟩⟩

theorem isDiff_diffOfKind (a b : NodeState) (kind : SketchKind) (which : WhichSide) :
    IsDiff a b kind which (diffOfKind a b kind which) := by
  cases kind with
  | chanUpdates => exact (isPart_chanUpdates a).isDiff (isPart_chanUpdates b) which
  | nodeAnns => exact (isPart_nodeAnns a).isDiff (isPart_nodeAnns b) which
  | chanAnns => exact (isPart_chanAnns a).isDiff (isPart_chanAnns b) which

theorem isDiff_computeDiff (a b : NodeState) (kind : SketchKind) (which : WhichSide) :
    IsDiff a b kind which (computeDiff a b kind which) := by
  unfold computeDiff
  split
  · exact isDiff_diffOfKind a b kind which
  · have h := (isDiff_diffOfKind b a kind which.swap).swap
    rwa [WhichSide.swap_swap] at h

omit [MsgHash] in
theorem nodup_entries (s : NodeState) (kind : SketchKind) :
    ((s.entries kind).map Entry.key).Nodup := by
  cases kind <;> rw [NodeState.entries, List.map_map]
  · exact s.chanUpdates.keys_nodup
  · exact s.nodeAnns.keys_nodup
  · exact s.chanAnns.keys_nodup

/-- The gossip of an entry carries its key, timestamp and size. -/
theorem gossip_of_mem_entries {s : NodeState} {e : Entry} (he : e ∈ s.entries kind) :
    (e.gossip kind).kind = kind.toGossip ∧ (e.gossip kind).key? = some e.key ∧
      (e.gossip kind).timestamp = e.timestamp ∧ (e.gossip kind).sizeBytes = e.sizeBytes := by
  cases kind with
  | chanUpdates =>
    obtain ⟨x, hx, rfl⟩ := List.mem_map.1 he
    exact ⟨rfl, (rebuilds_synthCu s _ _ (AList.mem_lookup_iff.2 hx)).2.1, rfl, rfl⟩
  | nodeAnns => exact ⟨rfl, rfl, rfl, rfl⟩
  | chanAnns =>
    obtain ⟨x, -, rfl⟩ := List.mem_map.1 he
    exact ⟨rfl, rfl, rfl, rfl⟩

/-- `computeDiff` reports the diff, whichever state is locked first, and the call with the
sides exchanged reports the same with the sides exchanged. -/
theorem computeDiff_reports (a b : NodeState) (kind : SketchKind) (which : WhichSide) :
    let r := computeDiff a b kind which
    let r' := computeDiff b a kind which.swap
    (∀ s : NodeState, ((s.entries kind).map Entry.key).Nodup ∧ ∀ e ∈ s.entries kind,
      (e.gossip kind).kind = kind.toGossip ∧ (e.gossip kind).key? = some e.key ∧
      (e.gossip kind).timestamp = e.timestamp ∧ (e.gossip kind).sizeBytes = e.sizeBytes) ∧
    IsDiff a b kind which r ∧
    r.aOnlyCount + r.intersection = (a.entries kind).length ∧
    r.bOnlyCount + r.intersection = (b.entries kind).length ∧
    r'.aOnlyCount = r.bOnlyCount ∧ r'.bOnlyCount = r.aOnlyCount ∧
    r'.intersection = r.intersection ∧ r'.aNewer.Perm r.bNewer ∧ r'.bNewer.Perm r.aNewer := by
  intro r r'
  have h : IsDiff a b kind which r := isDiff_computeDiff a b kind which
  exact ⟨fun s => ⟨nodup_entries s kind, fun e he => gossip_of_mem_entries he⟩, h, h.length.1,
    h.length.2, (isDiff_computeDiff b a kind which.swap).unique h.swap⟩

end Diff

end LnConv
