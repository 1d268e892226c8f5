import LnConv.State

/-!
# Symmetric differences

`computeDiff a b kind which` compares the maps of one kind. Its three cases are
one pair of loops over maps whose values carry a stamp; a channel announcement's
stamp is constant, so a common key always counts as an intersection.
-/

namespace LnConv

/-- Which side of a diff materialises its newer-only gossips. -/
inductive WhichSide where
  | a
  | b
  | both
  deriving DecidableEq, Repr

namespace WhichSide

def wantA : WhichSide → Bool
  | a | both => true
  | b => false

def wantB : WhichSide → Bool
  | b | both => true
  | a => false

def swap : WhichSide → WhichSide
  | a => b
  | b => a
  | both => both

@[simp] theorem wantA_swap (w : WhichSide) : w.swap.wantA = w.wantB := by cases w <;> rfl

@[simp] theorem wantB_swap (w : WhichSide) : w.swap.wantB = w.wantA := by cases w <;> rfl

end WhichSide

structure DiffResult where
  aOnlyCount : Nat
  bOnlyCount : Nat
  intersection : Nat
  aNewer : List Gossip
  bNewer : List Gossip

def DiffResult.swap (r : DiffResult) : DiffResult :=
  { aOnlyCount := r.bOnlyCount
    bOnlyCount := r.aOnlyCount
    intersection := r.intersection
    aNewer := r.bNewer
    bNewer := r.aNewer }

section Loops

variable {V : Type} (stamp : V → Nat) (synth : Nat → V → Gossip)

/-- The body of the loop over `la`. -/
def diffFirst (lb : IntMap V) (which : WhichSide) (r : DiffResult) (e : Sigma fun _ : Nat => V) :
    DiffResult :=
  match lb.lookup e.1 with
  | some vb =>
    if stamp vb = stamp e.2 then { r with intersection := r.intersection + 1 }
    else
      let r := { r with aOnlyCount := r.aOnlyCount + 1, bOnlyCount := r.bOnlyCount + 1 }
      if stamp e.2 > stamp vb then
        if which.wantA then { r with aNewer := r.aNewer ++ [synth e.1 e.2] } else r
      else if which.wantB then { r with bNewer := r.bNewer ++ [synth e.1 vb] } else r
  | none =>
    let r := { r with aOnlyCount := r.aOnlyCount + 1 }
    if which.wantA then { r with aNewer := r.aNewer ++ [synth e.1 e.2] } else r

/-- The body of the loop over `lb`. -/
def diffSecond (la : IntMap V) (which : WhichSide) (r : DiffResult) (e : Sigma fun _ : Nat => V) :
    DiffResult :=
  if (la.lookup e.1).isSome then r
  else
    let r := { r with bOnlyCount := r.bOnlyCount + 1 }
    if which.wantB then { r with bNewer := r.bNewer ++ [synth e.1 e.2] } else r

def diffMaps (la lb : IntMap V) (which : WhichSide) : DiffResult :=
  lb.entries.foldl (diffSecond synth la which)
    (la.entries.foldl (diffFirst stamp synth lb which) ⟨0, 0, 0, [], []⟩)

end Loops

section Synth

variable [MsgHash]

/-- The gossip a reply rebuilds from an entry of `chanUpdates`. -/
def synthCu (packed : Nat) (v : Nat × Nat) : Gossip :=
  synthChanUpdate (unpackCuKey packed).1 (unpackCuKey packed).2 v.1 v.2

def synthNa (origin : Nat) (v : Nat × Nat) : Gossip := synthNodeAnn origin v.1 v.2

def diffChanUpdates (la lb : ChanUpdatesMap) (which : WhichSide) : DiffResult :=
  diffMaps Prod.fst synthCu la lb which

def diffNodeAnns (la lb : NodeAnnsMap) (which : WhichSide) : DiffResult :=
  diffMaps Prod.fst synthNa la lb which

def diffChanAnns (la lb : ChanAnnsMap) (which : WhichSide) : DiffResult :=
  diffMaps scidStamp synthChanAnn la lb which

def diffOfKind (first second : NodeState) (kind : SketchKind) (which : WhichSide) : DiffResult :=
  match kind with
  | .chanUpdates => diffChanUpdates first.chanUpdates second.chanUpdates which
  | .nodeAnns => diffNodeAnns first.nodeAnns second.nodeAnns which
  | .chanAnns => diffChanAnns first.chanAnns second.chanAnns which

/-- The smaller index goes first; the result is in the caller's orientation. -/
def computeDiff (a b : NodeState) (kind : SketchKind) (which : WhichSide) : DiffResult :=
  if a.idx ≤ b.idx then diffOfKind a b kind which
  else (diffOfKind b a kind which.swap).swap

end Synth

/-! ## What the loops compute -/

section Loops

variable {V : Type} {stamp : V → Nat} {synth : Nat → V → Gossip} {la lb : IntMap V}
  {which : WhichSide}

/-- What the first loop adds to `aNewer`. -/
def pickA (stamp : V → Nat) (synth : Nat → V → Gossip) (lb : IntMap V)
    (e : Sigma fun _ : Nat => V) : Option Gossip :=
  if stampView stamp lb e.1 < WithBot.some (stamp e.2) then some (synth e.1 e.2) else none

/-- What the first loop adds to `bNewer`. -/
def pickB (stamp : V → Nat) (synth : Nat → V → Gossip) (lb : IntMap V)
    (e : Sigma fun _ : Nat => V) : Option Gossip :=
  (lb.lookup e.1).bind fun vb => if stamp e.2 < stamp vb then some (synth e.1 vb) else none

/-- What the second loop adds to `bNewer`. -/
def pickAbsent (synth : Nat → V → Gossip) (la : IntMap V) (e : Sigma fun _ : Nat => V) :
    Option Gossip :=
  if (la.lookup e.1).isSome then none else some (synth e.1 e.2)

theorem diffFirst_aNewer (r : DiffResult) (e : Sigma fun _ : Nat => V) :
    (diffFirst stamp synth lb which r e).aNewer =
      r.aNewer ++ if which.wantA then (pickA stamp synth lb e).toList else [] := by
  unfold diffFirst pickA stampView
  cases h : lb.lookup e.1 with
  | none => cases hw : which.wantA <;> simp
  | some vb =>
    rcases lt_trichotomy (stamp vb) (stamp e.2) with hlt | heq | hgt
    · cases hw : which.wantA <;> simp [hlt, hlt.ne]
    · simp [heq]
    · cases hw : which.wantB <;> simp [hgt.ne', hgt.not_gt]

theorem diffFirst_bNewer (r : DiffResult) (e : Sigma fun _ : Nat => V) :
    (diffFirst stamp synth lb which r e).bNewer =
      r.bNewer ++ if which.wantB then (pickB stamp synth lb e).toList else [] := by
  unfold diffFirst pickB
  cases h : lb.lookup e.1 with
  | none => cases hw : which.wantA <;> simp
  | some vb =>
    rcases lt_trichotomy (stamp vb) (stamp e.2) with hlt | heq | hgt
    · cases hw : which.wantA <;> simp [hlt, hlt.ne, hlt.le]
    · simp [heq]
    · cases hw : which.wantB <;> simp [hgt.ne', hgt.not_gt, hgt]

theorem foldl_diffFirst_aNewer (es : List (Sigma fun _ : Nat => V)) (r : DiffResult) :
    (es.foldl (diffFirst stamp synth lb which) r).aNewer =
      r.aNewer ++ if which.wantA then es.filterMap (pickA stamp synth lb) else [] := by
  induction es generalizing r with
  | nil => simp
  | cons e es ih =>
    rw [List.foldl_cons, ih, diffFirst_aNewer]
    cases which.wantA <;> cases h : pickA stamp synth lb e <;> simp [h]

theorem foldl_diffFirst_bNewer (es : List (Sigma fun _ : Nat => V)) (r : DiffResult) :
    (es.foldl (diffFirst stamp synth lb which) r).bNewer =
      r.bNewer ++ if which.wantB then es.filterMap (pickB stamp synth lb) else [] := by
  induction es generalizing r with
  | nil => simp
  | cons e es ih =>
    rw [List.foldl_cons, ih, diffFirst_bNewer]
    cases which.wantB <;> cases h : pickB stamp synth lb e <;> simp [h]

theorem foldl_diffSecond_aNewer (es : List (Sigma fun _ : Nat => V)) (r : DiffResult) :
    (es.foldl (diffSecond synth la which) r).aNewer = r.aNewer := by
  induction es generalizing r with
  | nil => rfl
  | cons e es ih =>
    rw [List.foldl_cons, ih, diffSecond]
    split
    · rfl
    · cases which.wantB <;> rfl

theorem foldl_diffSecond_bNewer (es : List (Sigma fun _ : Nat => V)) (r : DiffResult) :
    (es.foldl (diffSecond synth la which) r).bNewer =
      r.bNewer ++ if which.wantB then es.filterMap (pickAbsent synth la) else [] := by
  induction es generalizing r with
  | nil => simp
  | cons e es ih =>
    rw [List.foldl_cons, ih, diffSecond]
    cases hw : which.wantB <;> cases h : (la.lookup e.1).isSome <;> simp [pickAbsent, h]

theorem diffMaps_aNewer (la lb : IntMap V) (which : WhichSide) :
    (diffMaps stamp synth la lb which).aNewer =
      if which.wantA then la.entries.filterMap (pickA stamp synth lb) else [] := by
  rw [diffMaps, foldl_diffSecond_aNewer, foldl_diffFirst_aNewer, List.nil_append]

theorem diffMaps_bNewer (la lb : IntMap V) (which : WhichSide) :
    (diffMaps stamp synth la lb which).bNewer =
      if which.wantB then la.entries.filterMap (pickB stamp synth lb) ++
        lb.entries.filterMap (pickAbsent synth la) else [] := by
  rw [diffMaps, foldl_diffSecond_bNewer, foldl_diffFirst_bNewer]
  cases which.wantB <;> simp

theorem mem_pickA {g : Gossip} :
    g ∈ la.entries.filterMap (pickA stamp synth lb) ↔
      ∃ k v, la.lookup k = some v ∧ stampView stamp lb k < WithBot.some (stamp v) ∧ g = synth k v := by
  simp only [List.mem_filterMap, Sigma.exists, ← AList.mem_lookup_iff, Option.mem_def, pickA,
    Option.ite_none_right_eq_some, Option.some.injEq, eq_comm (b := g)]

theorem mem_pickB {g : Gossip} :
    g ∈ la.entries.filterMap (pickB stamp synth lb) ++ lb.entries.filterMap (pickAbsent synth la) ↔
      ∃ k v, lb.lookup k = some v ∧ stampView stamp la k < WithBot.some (stamp v) ∧ g = synth k v := by
  simp only [List.mem_append, List.mem_filterMap, Sigma.exists, ← AList.mem_lookup_iff,
    Option.mem_def]
  constructor
  · rintro (⟨k, v, hv, h⟩ | ⟨k, v, hv, h⟩)
    · obtain ⟨w, hw, h⟩ := Option.bind_eq_some_iff.1 h
      split at h
      · next hlt =>
        exact ⟨k, w, hw, by simpa [stampView_of_lookup hv] using hlt, by simpa using h.symm⟩
      · cases h
    · unfold pickAbsent at h
      split at h
      · cases h
      · next hn =>
        have : la.lookup k = none := by simpa using hn
        exact ⟨k, v, hv, by simp [stampView_eq_bot.2 this], by simpa using h.symm⟩
  · rintro ⟨k, w, hw, hlt, rfl⟩
    cases hv : la.lookup k with
    | none => exact .inr ⟨k, w, hw, by simp [pickAbsent, hv]⟩
    | some v =>
      rw [stampView_of_lookup hv, WithBot.coe_lt_coe] at hlt
      exact .inl ⟨k, v, hv, by simp [pickB, hw, hlt]⟩

theorem diffFirst_aOnlyCount (r : DiffResult) (e : Sigma fun _ : Nat => V) :
    (diffFirst stamp synth lb which r e).aOnlyCount =
      r.aOnlyCount + if stampView stamp lb e.1 ≠ WithBot.some (stamp e.2) then 1 else 0 := by
  unfold diffFirst
  cases h : lb.lookup e.1 with
  | none => cases which.wantA <;> simp [stampView_eq_bot.2 h]
  | some vb =>
    by_cases he : stamp vb = stamp e.2
    · simp [stampView_of_lookup h, he]
    · simp only [he, if_false, stampView_of_lookup h, ne_eq, WithBot.coe_inj, not_false_eq_true,
        if_true]
      split <;> split <;> rfl

theorem diffFirst_bOnlyCount (r : DiffResult) (e : Sigma fun _ : Nat => V) :
    (diffFirst stamp synth lb which r e).bOnlyCount =
      r.bOnlyCount +
        if (lb.lookup e.1).isSome && stampView stamp lb e.1 ≠ WithBot.some (stamp e.2) then 1
        else 0 := by
  unfold diffFirst
  cases h : lb.lookup e.1 with
  | none => cases which.wantA <;> simp
  | some vb =>
    by_cases he : stamp vb = stamp e.2
    · simp [stampView_of_lookup h, he]
    · simp only [he, if_false, stampView_of_lookup h, ne_eq, WithBot.coe_inj, not_false_eq_true,
        Option.isSome_some, decide_true, Bool.and_self, if_true]
      split <;> split <;> rfl

theorem foldl_diffFirst_aOnlyCount (es : List (Sigma fun _ : Nat => V)) (r : DiffResult) :
    (es.foldl (diffFirst stamp synth lb which) r).aOnlyCount =
      r.aOnlyCount + es.countP fun e => stampView stamp lb e.1 ≠ WithBot.some (stamp e.2) := by
  induction es generalizing r with
  | nil => simp
  | cons e es ih =>
    rw [List.foldl_cons, ih, diffFirst_aOnlyCount, List.countP_cons]
    simp only [decide_eq_true_eq]
    omega

theorem foldl_diffFirst_bOnlyCount (es : List (Sigma fun _ : Nat => V)) (r : DiffResult) :
    (es.foldl (diffFirst stamp synth lb which) r).bOnlyCount =
      r.bOnlyCount + es.countP fun e =>
        (lb.lookup e.1).isSome && stampView stamp lb e.1 ≠ WithBot.some (stamp e.2) := by
  induction es generalizing r with
  | nil => simp
  | cons e es ih =>
    rw [List.foldl_cons, ih, diffFirst_bOnlyCount, List.countP_cons]
    omega

theorem foldl_diffSecond_aOnlyCount (es : List (Sigma fun _ : Nat => V)) (r : DiffResult) :
    (es.foldl (diffSecond synth la which) r).aOnlyCount = r.aOnlyCount := by
  induction es generalizing r with
  | nil => rfl
  | cons e es ih =>
    rw [List.foldl_cons, ih, diffSecond]
    split
    · rfl
    · cases which.wantB <;> rfl

theorem foldl_diffSecond_bOnlyCount (es : List (Sigma fun _ : Nat => V)) (r : DiffResult) :
    (es.foldl (diffSecond synth la which) r).bOnlyCount =
      r.bOnlyCount + es.countP fun e => !(la.lookup e.1).isSome := by
  induction es generalizing r with
  | nil => simp
  | cons e es ih =>
    rw [List.foldl_cons, ih, List.countP_cons, diffSecond]
    cases h : (la.lookup e.1).isSome <;> cases which.wantB <;> simp <;> omega

theorem diffMaps_aOnlyCount (la lb : IntMap V) (which : WhichSide) :
    (diffMaps stamp synth la lb which).aOnlyCount =
      la.entries.countP fun e => stampView stamp lb e.1 ≠ WithBot.some (stamp e.2) := by
  rw [diffMaps, foldl_diffSecond_aOnlyCount, foldl_diffFirst_aOnlyCount, Nat.zero_add]

theorem diffMaps_bOnlyCount (la lb : IntMap V) (which : WhichSide) :
    (diffMaps stamp synth la lb which).bOnlyCount =
      (la.entries.countP fun e =>
        (lb.lookup e.1).isSome && stampView stamp lb e.1 ≠ WithBot.some (stamp e.2)) +
        lb.entries.countP fun e => !(la.lookup e.1).isSome := by
  rw [diffMaps, foldl_diffSecond_bOnlyCount, foldl_diffFirst_bOnlyCount, Nat.zero_add]

/-- Both counts vanish exactly between maps with the same stamps. -/
theorem diffMaps_counts_eq_zero (la lb : IntMap V) (which : WhichSide) :
    (diffMaps stamp synth la lb which).aOnlyCount = 0 ∧
      (diffMaps stamp synth la lb which).bOnlyCount = 0 ↔
      stampView stamp la = stampView stamp lb := by
  rw [diffMaps_aOnlyCount, diffMaps_bOnlyCount, Nat.add_eq_zero_iff, List.countP_eq_zero,
    List.countP_eq_zero, List.countP_eq_zero]
  simp only [Sigma.forall, ← AList.mem_lookup_iff, Option.mem_def, decide_not, Bool.not_eq_true',
    Bool.not_eq_false, decide_eq_true_eq, Bool.and_eq_true]
  constructor
  · rintro ⟨ha, -, hb⟩
    funext k
    cases hv : la.lookup k with
    | some v => rw [stampView_of_lookup hv, ha k v hv]
    | none =>
      cases hw : lb.lookup k with
      | none => rw [stampView_eq_bot.2 hv, stampView_eq_bot.2 hw]
      | some w => simpa [hv] using hb k w hw
  · intro h
    refine ⟨fun k v hv => ?_, fun k v hv => ?_, fun k w hw => ?_⟩
    · rw [← h, stampView_of_lookup hv]
    · rw [← h, stampView_of_lookup hv]; simp
    · cases hv : la.lookup k with
      | some v => rfl
      | none =>
        have := congrFun h k
        rw [stampView_eq_bot.2 hv, stampView_of_lookup hw] at this
        simp at this

end Loops

/-! ## Diffs between views -/

/-- `gs` are one gossip for each key of kind `K` that `new` holds under a newer
stamp than `old`, each at the stamp `new` holds. -/
structure NewerList (K : GossipKind) (old new : Nat → WithBot Nat) (gs : List Gossip) : Prop where
  kind : ∀ g ∈ gs, g.kind = K
  key : ∀ g ∈ gs, g.key? = some g.stateKey
  held : ∀ g ∈ gs, new g.stateKey = WithBot.some g.stamp
  newer : ∀ g ∈ gs, old g.stateKey < WithBot.some g.stamp
  complete : ∀ k, old k < new k → ∃ g ∈ gs, g.stateKey = k
  nodup : (gs.map Gossip.stateKey).Nodup

/-- `synth` rebuilds a gossip of kind `K` for every entry of the map. -/
def Rebuilds {V : Type} (K : GossipKind) (stamp : V → Nat) (synth : Nat → V → Gossip)
    (m : IntMap V) : Prop :=
  ∀ k v, m.lookup k = some v →
    (synth k v).kind = K ∧ (synth k v).key? = some k ∧ (synth k v).stamp = stamp v

section Rebuild

variable {V : Type} {K : GossipKind} {stamp : V → Nat} {synth : Nat → V → Gossip} {la lb : IntMap V}

theorem newerList_of_mem {gs : List Gossip} (hs : Rebuilds K stamp synth lb)
    (hm : ∀ g, g ∈ gs ↔
      ∃ k v, lb.lookup k = some v ∧ stampView stamp la k < WithBot.some (stamp v) ∧ g = synth k v)
    (hn : (gs.map Gossip.stateKey).Nodup) :
    NewerList K (stampView stamp la) (stampView stamp lb) gs := by
  have hget : ∀ g ∈ gs, g.kind = K ∧ g.key? = some g.stateKey ∧
      stampView stamp lb g.stateKey = WithBot.some g.stamp ∧
      stampView stamp la g.stateKey < WithBot.some g.stamp := by
    intro g hg
    obtain ⟨k, v, hv, hlt, rfl⟩ := (hm g).1 hg
    obtain ⟨hk, hkey, hst⟩ := hs k v hv
    rw [stateKey_of_key? hkey, hst]
    exact ⟨hk, hkey, stampView_of_lookup hv, hlt⟩
  refine ⟨fun g hg => (hget g hg).1, fun g hg => (hget g hg).2.1, fun g hg => (hget g hg).2.2.1,
    fun g hg => (hget g hg).2.2.2, fun k hk => ?_, hn⟩
  cases hv : lb.lookup k with
  | none => rw [stampView_eq_bot.2 hv] at hk; exact absurd hk not_lt_bot
  | some v =>
    rw [stampView_of_lookup hv] at hk
    exact ⟨synth k v, (hm _).2 ⟨k, v, hv, hk, rfl⟩, stateKey_of_key? (hs k v hv).2.1⟩

theorem stateKey_pickA {e : Sigma fun _ : Nat => V} {g : Gossip} (hs : Rebuilds K stamp synth la)
    (he : e ∈ la.entries) (h : pickA stamp synth lb e = some g) : g.stateKey = e.1 := by
  unfold pickA at h
  split at h
  · cases h; exact stateKey_of_key? (hs e.1 e.2 (AList.mem_lookup_iff.2 he)).2.1
  · cases h

theorem stateKey_pickB {e : Sigma fun _ : Nat => V} {g : Gossip} (hs : Rebuilds K stamp synth lb)
    (h : pickB stamp synth lb e = some g) : g.stateKey = e.1 ∧ (lb.lookup e.1).isSome := by
  obtain ⟨w, hw, h⟩ := Option.bind_eq_some_iff.1 h
  split at h
  · cases h; exact ⟨stateKey_of_key? (hs e.1 w hw).2.1, by simp [hw]⟩
  · cases h

theorem stateKey_pickAbsent {e : Sigma fun _ : Nat => V} {g : Gossip}
    (hs : Rebuilds K stamp synth lb) (he : e ∈ lb.entries)
    (h : pickAbsent synth la e = some g) : g.stateKey = e.1 ∧ (la.lookup e.1) = none := by
  unfold pickAbsent at h
  split at h
  · cases h
  · next hn =>
    cases h
    exact ⟨stateKey_of_key? (hs e.1 e.2 (AList.mem_lookup_iff.2 he)).2.1, by simpa using hn⟩

/-- A pick that keeps the key of its entry yields each key once. -/
theorem nodup_filterMap {m : IntMap V} {pick : (Sigma fun _ : Nat => V) → Option Gossip}
    (h : ∀ e ∈ m.entries, ∀ g, pick e = some g → g.stateKey = e.1) :
    ((m.entries.filterMap pick).map Gossip.stateKey).Nodup := by
  have hp : m.entries.Pairwise fun s s' => s.1 ≠ s'.1 := List.nodupKeys_iff_pairwise.1 m.nodupKeys
  rw [List.Nodup, List.pairwise_map, List.pairwise_filterMap]
  apply hp.imp_of_mem
  intro e e' he he' hne g hg g' hg'
  rw [h e he g hg, h e' he' g' hg']
  exact hne

theorem newerList_diffMaps_aNewer {which : WhichSide} (hs : Rebuilds K stamp synth la)
    (hw : which.wantA = true) :
    NewerList K (stampView stamp lb) (stampView stamp la)
      (diffMaps stamp synth la lb which).aNewer := by
  rw [diffMaps_aNewer, if_pos hw]
  exact newerList_of_mem hs (fun g => mem_pickA)
    (nodup_filterMap fun e he g hg => stateKey_pickA hs he hg)

theorem newerList_diffMaps_bNewer {which : WhichSide} (hs : Rebuilds K stamp synth lb)
    (hw : which.wantB = true) :
    NewerList K (stampView stamp la) (stampView stamp lb)
      (diffMaps stamp synth la lb which).bNewer := by
  rw [diffMaps_bNewer, if_pos hw]
  apply newerList_of_mem hs (fun g => mem_pickB)
  rw [List.map_append, List.nodup_append']
  refine ⟨nodup_filterMap fun e _ g hg => (stateKey_pickB hs hg).1,
    nodup_filterMap fun e he g hg => (stateKey_pickAbsent hs he hg).1, ?_⟩
  -- the first loop picks keys of `la`, the second keys `la` lacks
  rintro k h h'
  simp only [List.mem_map, List.mem_filterMap] at h h'
  obtain ⟨g, ⟨e, he, hg⟩, rfl⟩ := h
  obtain ⟨g', ⟨e', he', hg'⟩, hk⟩ := h'
  rw [(stateKey_pickB hs hg).1, (stateKey_pickAbsent hs he' hg').1] at hk
  have h1 : la.lookup e.1 = some e.2 := AList.mem_lookup_iff.2 he
  have h2 := (stateKey_pickAbsent hs he' hg').2
  rw [hk, h1] at h2
  cases h2

end Rebuild

section ComputeDiff

variable [MsgHash]

theorem rebuilds_synthCu (s : NodeState) :
    Rebuilds .channelUpdate Prod.fst synthCu s.chanUpdates := by
  intro k v hv
  have hk : k < 2 ^ 64 := s.key_lt k (AList.lookup_isSome.1 (by simp [hv]))
  refine ⟨rfl, ?_, rfl⟩
  simp only [Gossip.key?, synthCu, synthChanUpdate, Option.map_some, packCuKey_unpack hk]

theorem rebuilds_synthNa (m : NodeAnnsMap) : Rebuilds .nodeAnnouncement Prod.fst synthNa m :=
  fun _ _ _ => ⟨rfl, rfl, rfl⟩

theorem rebuilds_synthChanAnn (m : ChanAnnsMap) :
    Rebuilds .channelAnnouncement scidStamp synthChanAnn m :=
  fun _ _ _ => ⟨rfl, rfl, rfl⟩

theorem newerList_diffOfKind (a b : NodeState) (kind : SketchKind) (which : WhichSide) :
    (which.wantA = true → NewerList kind.toGossip (b.view kind.toGossip) (a.view kind.toGossip)
      (diffOfKind a b kind which).aNewer) ∧
    (which.wantB = true → NewerList kind.toGossip (a.view kind.toGossip) (b.view kind.toGossip)
      (diffOfKind a b kind which).bNewer) := by
  cases kind with
  | chanUpdates =>
    exact ⟨newerList_diffMaps_aNewer (rebuilds_synthCu a),
      newerList_diffMaps_bNewer (rebuilds_synthCu b)⟩
  | nodeAnns =>
    exact ⟨newerList_diffMaps_aNewer (rebuilds_synthNa _),
      newerList_diffMaps_bNewer (rebuilds_synthNa _)⟩
  | chanAnns =>
    exact ⟨newerList_diffMaps_aNewer (rebuilds_synthChanAnn _),
      newerList_diffMaps_bNewer (rebuilds_synthChanAnn _)⟩

theorem diffOfKind_counts_eq_zero (a b : NodeState) (kind : SketchKind) (which : WhichSide) :
    (diffOfKind a b kind which).aOnlyCount = 0 ∧ (diffOfKind a b kind which).bOnlyCount = 0 ↔
      a.view kind.toGossip = b.view kind.toGossip := by
  cases kind <;> exact diffMaps_counts_eq_zero _ _ _

/-- The strictly newer side of `a`, whichever state is locked first. -/
theorem newerList_aNewer (a b : NodeState) (kind : SketchKind) {which : WhichSide}
    (hw : which.wantA = true) :
    NewerList kind.toGossip (b.view kind.toGossip) (a.view kind.toGossip)
      (computeDiff a b kind which).aNewer := by
  unfold computeDiff
  split
  · exact (newerList_diffOfKind a b kind which).1 hw
  · exact (newerList_diffOfKind b a kind which.swap).2 (by rwa [WhichSide.wantB_swap])

theorem newerList_bNewer (a b : NodeState) (kind : SketchKind) {which : WhichSide}
    (hw : which.wantB = true) :
    NewerList kind.toGossip (a.view kind.toGossip) (b.view kind.toGossip)
      (computeDiff a b kind which).bNewer := by
  unfold computeDiff
  split
  · exact (newerList_diffOfKind a b kind which).2 hw
  · exact (newerList_diffOfKind b a kind which.swap).1 (by rwa [WhichSide.wantA_swap])

theorem kind_of_mem_bNewer {a b : NodeState} {kind : SketchKind} {which : WhichSide} {g : Gossip}
    (hw : which.wantB = true) (h : g ∈ (computeDiff a b kind which).bNewer) :
    g.kind = kind.toGossip := (newerList_bNewer a b kind hw).kind g h

/-- Nothing differs exactly between states with the same view of the kind. -/
theorem computeDiff_counts_eq_zero (a b : NodeState) (kind : SketchKind) (which : WhichSide) :
    (computeDiff a b kind which).aOnlyCount = 0 ∧ (computeDiff a b kind which).bOnlyCount = 0 ↔
      a.view kind.toGossip = b.view kind.toGossip := by
  unfold computeDiff
  split
  · exact diffOfKind_counts_eq_zero a b kind which
  · rw [and_comm, eq_comm (a := a.view _)]
    exact diffOfKind_counts_eq_zero b a kind which.swap

end ComputeDiff

/-- The newer list brings the old side up to the join. -/
theorem NewerList.le_sup {K : GossipKind} {old new : View} {gs : List Gossip}
    (h : NewerList K (old K) (new K) gs) : new K ≤ old K ⊔ joinOf gs K := by
  intro k
  rcases lt_or_ge (old K k) (new K k) with hlt | hge
  · obtain ⟨g, hg, rfl⟩ := h.complete k hlt
    have ha : g.atom K g.stateKey ≤ joinOf gs K g.stateKey :=
      (le_supOf hg : g.atom ≤ joinOf gs) K g.stateKey
    rw [← h.kind g hg, atom_self, h.kind g hg, ← h.held g hg] at ha
    exact ha.trans le_sup_right
  · exact hge.trans le_sup_left

theorem NewerList.joinOf_le {K : GossipKind} {old new : View} {gs : List Gossip}
    (h : NewerList K (old K) (new K) gs) : joinOf gs ≤ new := by
  refine supOf_le_iff.2 fun g hg => atom_le_iff.2 ?_
  rw [h.kind g hg, h.held g hg]

end LnConv
