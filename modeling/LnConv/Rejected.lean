import LnConv.Net

/-!
# Gossip that is rejected

A gossip counted as a duplicate, and an origination that is not broadcast, are to leave the
dedup maps alone. The timestamped kinds compare before they insert. A channel announcement is
inserted first, so it overwrites the size stored for its scid.
-/

namespace LnConv

variable {V : Type}

/-- The twelve absorb functions. -/
def ModelCfg.absorbOf (gs : List Gossip) (now : Nat) : GossipKind → ModelCfg V → Handler V
  | .channelUpdate, flooding c => FloodingNode.absorbChanUpdates c gs now
  | .nodeAnnouncement, flooding c => FloodingNode.absorbNodeAnns c gs now
  | .channelAnnouncement, flooding c => FloodingNode.absorbChanAnns c gs now
  | .channelUpdate, cln _ => ClnNode.absorbChanUpdates gs now
  | .nodeAnnouncement, cln _ => ClnNode.absorbNodeAnns gs now
  | .channelAnnouncement, cln _ => ClnNode.absorbChanAnns gs now
  | .channelUpdate, lnd _ => LndNode.absorbChanUpdates gs now
  | .nodeAnnouncement, lnd _ => LndNode.absorbNodeAnns gs now
  | .channelAnnouncement, lnd _ => LndNode.absorbChanAnns gs now
  | .channelUpdate, sketch _ => SketchNode.absorbChanUpdates gs now
  | .nodeAnnouncement, sketch _ => SketchNode.absorbNodeAnns gs now
  | .channelAnnouncement, sketch _ => SketchNode.absorbChanAnns gs now

/-- The three maps hold the same values, sizes included. -/
structure SameMaps (s t : NodeState) : Prop where
  chanUpdates : ∀ k, t.chanUpdates.lookup k = s.chanUpdates.lookup k
  nodeAnns : ∀ k, t.nodeAnns.lookup k = s.nodeAnns.lookup k
  chanAnns : ∀ k, t.chanAnns.lookup k = s.chanAnns.lookup k

/-- Each gossip that the call counts as a duplicate leaves the maps as the gossips before it left
them. -/
def ModelCfg.RejectsUntouched (mc : ModelCfg V) (kind : GossipKind) (gs : List Gossip) (now : Nat)
    (n : Node) : Prop :=
  ∀ pre g post n₁ e₁ n₂ e₂, gs = pre ++ g :: post →
    mc.absorbOf pre now kind n = some (n₁, e₁) →
    mc.absorbOf (pre ++ [g]) now kind n = some (n₂, e₂) →
    n₂.metricsLocal.duplicates = n₁.metricsLocal.duplicates + 1 → SameMaps n₁.state n₂.state

/-- All announcements of a channel have the size stored for it, and one size if none is. -/
structure SizesAgree (s : NodeState) (gs : List Gossip) : Prop where
  stored : ∀ g ∈ gs, ∀ scid size, g.scid = some scid → s.chanAnns.lookup scid = some size →
    g.sizeBytes = size
  announced : gs.Pairwise fun g g' => g.scid = g'.scid → g'.sizeBytes = g.sizeBytes

/-! ## One gossip -/

theorem SameMaps.refl (s : NodeState) : SameMaps s s := ⟨fun _ => rfl, fun _ => rfl, fun _ => rfl⟩

/-- Inserting at a known scid keeps the maps only if the value is the stored one. -/
theorem sameMaps_insert_iff {s : NodeState} {scid size : Nat}
    (h : (s.chanAnns.lookup scid).isSome) :
    SameMaps s { s with chanAnns := s.chanAnns.insert scid size } ↔
      ∀ v, s.chanAnns.lookup scid = some v → size = v := by
  obtain ⟨v, hv⟩ := Option.isSome_iff_exists.1 h
  constructor
  · intro hs w hw
    have hk := hs.chanAnns scid
    rw [AList.lookup_insert, hw] at hk
    exact Option.some.inj hk
  · intro hs
    obtain rfl := hs v hv
    refine ⟨fun _ => rfl, fun _ => rfl, fun k => ?_⟩
    by_cases hk : k = scid
    · subst hk
      rw [AList.lookup_insert, hv]
    · rw [AList.lookup_insert_ne hk]

/-- What a gossip changes when it is counted as a duplicate. -/
theorem put_rejected {kind : GossipKind} {s s' : NodeState} {g : Gossip}
    (h : put kind s g = some (s', false)) : SameMaps s s' ↔ (kind = .channelAnnouncement →
      ∀ scid v, g.scid = some scid → s.chanAnns.lookup scid = some v → g.sizeBytes = v) := by
  cases kind with
  | channelUpdate =>
    simp only [put, putChanUpdate, Option.bind_eq_bind, Option.bind_eq_some_iff] at h
    obtain ⟨scid, -, h⟩ := h
    split at h
    · cases h
    · cases h
      exact iff_of_true (.refl s) (by simp)
  | nodeAnnouncement =>
    simp only [put, putNodeAnn, Option.bind_eq_bind, Option.bind_eq_some_iff] at h
    obtain ⟨origin, -, h⟩ := h
    split at h
    · cases h
    · cases h
      exact iff_of_true (.refl s) (by simp)
  | channelAnnouncement =>
    simp only [put, putChanAnn, Option.bind_eq_bind, Option.bind_eq_some_iff] at h
    obtain ⟨scid, hscid, h⟩ := h
    obtain ⟨rfl, hb⟩ := Prod.mk.inj (Option.some.inj h)
    have hknown : (s.chanAnns.lookup scid).isSome := by
      rwa [Option.isNone_eq_false_iff] at hb
    rw [sameMaps_insert_iff hknown]
    constructor
    · intro hs _ scid' v hscid' hv
      obtain rfl : scid = scid' := Option.some.inj (hscid.symm.trans hscid')
      exact hs v hv
    · exact fun hs v hv => hs rfl scid v hscid hv

/-- The size an announcement leaves for its scid is its own, fresh or not. -/
theorem putChanAnn_lookup {s s' : NodeState} {g : Gossip} {b : Bool}
    (h : put .channelAnnouncement s g = some (s', b)) : ∃ scid, g.scid = some scid ∧
      s'.chanAnns.lookup scid = some g.sizeBytes ∧
      (∀ k, k ≠ scid → s'.chanAnns.lookup k = s.chanAnns.lookup k) ∧
      (b = false ↔ (s.chanAnns.lookup scid).isSome) := by
  simp only [put, putChanAnn, Option.bind_eq_bind, Option.bind_eq_some_iff] at h
  obtain ⟨scid, hscid, h⟩ := h
  cases h
  refine ⟨scid, hscid, AList.lookup_insert _, fun k hk => AList.lookup_insert_ne hk, ?_⟩
  cases s.chanAnns.lookup scid <;> simp

/-! ## The loop -/

/-- The loop over announcements leaves the maps alone where it counts a duplicate. -/
def LoopUntouched (kind : GossipKind) (s : NodeState) (gs : List Gossip) : Prop :=
  ∀ pre g post r s', gs = pre ++ g :: post → absorbLoop (put kind) s pre = some r →
    put kind r.state g = some (s', false) → SameMaps r.state s'

theorem loopUntouched_cons {kind : GossipKind} {s s' : NodeState} {g : Gossip} {gs : List Gossip}
    {b : Bool} (h : put kind s g = some (s', b)) : LoopUntouched kind s (g :: gs) ↔
      (b = false → SameMaps s s') ∧ LoopUntouched kind s' gs := by
  constructor
  · intro hl
    refine ⟨fun hb => hl [] g gs ⟨s, [], []⟩ s' rfl rfl (hb ▸ h), ?_⟩
    intro pre g' post r s'' hgs hr hp
    have hloop : absorbLoop (put kind) s (g :: pre) =
        some (if b then { r with fresh := g :: r.fresh } else { r with dups := g :: r.dups }) := by
      simp only [absorbLoop, h, hr, Option.bind_eq_bind, Option.bind_some]
    have hstate : (if b then { r with fresh := g :: r.fresh } else
        { r with dups := g :: r.dups } : Absorbed).state = r.state := by cases b <;> rfl
    have := hl (g :: pre) g' post _ s'' (by rw [hgs]; rfl) hloop (by rwa [hstate])
    rwa [hstate] at this
  · rintro ⟨hb, hl⟩ pre g' post r s'' hgs hr hp
    cases pre with
    | nil =>
      cases hgs
      cases hr
      rw [h] at hp
      cases hp
      exact hb rfl
    | cons x pre =>
      rw [List.cons_append] at hgs
      obtain ⟨rfl, htail⟩ := List.cons.inj hgs
      simp only [absorbLoop, h, Option.bind_eq_bind, Option.bind_some,
        Option.bind_eq_some_iff] at hr
      obtain ⟨r', hr', hr⟩ := hr
      have hstate : r.state = r'.state := by
        cases hr
        cases b <;> rfl
      rw [hstate] at hp ⊢
      exact hl pre g' post r' s'' htail hr' hp

/-- The sizes agree with the state before an announcement if its size is the stored one and the
others agree with the state after it. -/
theorem sizesAgree_cons {s s' : NodeState} {g : Gossip} {gs : List Gossip} {b : Bool}
    (h : put .channelAnnouncement s g = some (s', b)) : SizesAgree s (g :: gs) ↔
      (∀ scid v, g.scid = some scid → s.chanAnns.lookup scid = some v → g.sizeBytes = v) ∧
        SizesAgree s' gs := by
  obtain ⟨scid, hscid, hself, hother, -⟩ := putChanAnn_lookup h
  constructor
  · intro hs
    have hpair := List.pairwise_cons.1 hs.announced
    refine ⟨hs.stored g List.mem_cons_self, fun g' hg' scid' size hscid' hl => ?_, hpair.2⟩
    by_cases hk : scid' = scid
    · subst hk
      rw [hself] at hl
      rw [hpair.1 g' hg' (hscid.trans hscid'.symm)]
      exact Option.some.inj hl
    · rw [hother _ hk] at hl
      exact hs.stored g' (List.mem_cons_of_mem g hg') scid' size hscid' hl
  · rintro ⟨hg, hs⟩
    have hsame : ∀ g' ∈ gs, g.scid = g'.scid → g'.sizeBytes = g.sizeBytes := fun g' hg' he =>
      hs.stored g' hg' scid g.sizeBytes (he.symm.trans hscid) hself
    refine ⟨fun g' hg' scid' size hscid' hl => ?_, List.pairwise_cons.2 ⟨hsame, hs.announced⟩⟩
    rcases List.mem_cons.1 hg' with rfl | hg'
    · exact hg scid' size hscid' hl
    · by_cases hk : scid' = scid
      · subst hk
        rw [hsame g' hg' (hscid.trans hscid'.symm)]
        exact hg scid' size hscid hl
      · exact hs.stored g' hg' scid' size hscid' (by rwa [hother _ hk])

theorem loopUntouched_iff {kind : GossipKind} {s : NodeState} {gs : List Gossip} {r : Absorbed}
    (h : absorbLoop (put kind) s gs = some r) :
    LoopUntouched kind s gs ↔ (kind = .channelAnnouncement → SizesAgree s gs) := by
  induction gs generalizing s r with
  | nil =>
    refine iff_of_true (fun pre g post r s' hgs => ?_) fun _ => ⟨by simp, .nil⟩
    simp at hgs
  | cons g gs ih =>
    simp only [absorbLoop, Option.bind_eq_bind, Option.bind_eq_some_iff] at h
    obtain ⟨⟨s', b⟩, hput, r', hr', -⟩ := h
    rw [loopUntouched_cons hput, ih hr']
    by_cases hk : kind = .channelAnnouncement
    · subst hk
      have hdup : (b = false → SameMaps s s') ↔ ∀ scid v, g.scid = some scid →
          s.chanAnns.lookup scid = some v → g.sizeBytes = v := by
        obtain ⟨scid, hscid, -, -, hb⟩ := putChanAnn_lookup hput
        constructor
        · intro hs scid' v hscid' hv
          obtain rfl : scid = scid' := Option.some.inj (hscid.symm.trans hscid')
          obtain rfl : b = false := hb.2 (by rw [hv]; rfl)
          exact (put_rejected hput).1 (hs rfl) rfl scid v hscid hv
        · rintro hs rfl
          exact (put_rejected hput).2 fun _ => hs
      rw [sizesAgree_cons hput, hdup]
      simp
    · refine iff_of_true ⟨?_, fun hc => absurd hc hk⟩ fun hc => absurd hc hk
      rintro rfl
      exact (put_rejected hput).2 fun hc => absurd hc hk

/-! ## The absorb functions -/

/-- Whatever the node kind, an absorb function opens with `absorbKind`. -/
theorem absorbOf_absorbKind {mc : ModelCfg V} {kind : GossipKind} {gs : List Gossip} {now : Nat}
    {n n' : Node} {e : Effects V} (h : mc.absorbOf gs now kind n = some (n', e)) :
    ∃ n₁ fresh, n.absorbKind kind gs now = some (n₁, fresh) ∧ n'.state = n₁.state ∧
      n'.metricsLocal = n₁.metricsLocal := by
  cases mc with
  | flooding c =>
    have h : FloodingNode.absorb c kind gs now n = some (n', e) := by cases kind <;> exact h
    obtain ⟨⟨n₁, fresh⟩, hk, h⟩ := Option.bind_eq_some_iff.1 h
    dsimp only at h
    split at h <;> cases h <;> exact ⟨_, _, hk, rfl, rfl⟩
  | cln c | lnd c =>
    have h : absorbPending kind gs now n = some (n', e) := by cases kind <;> exact h
    obtain ⟨⟨n₁, fresh⟩, hk, h⟩ := Option.bind_eq_some_iff.1 h
    dsimp only at h
    split at h <;> cases h <;> exact ⟨_, _, hk, rfl, rfl⟩
  | sketch c =>
    have h : SketchNode.absorb kind gs now n = some (n', e) := by cases kind <;> exact h
    obtain ⟨⟨n₁, fresh⟩, hk, h⟩ := Option.bind_eq_some_iff.1 h
    dsimp only at h
    split at h <;> cases h <;> exact ⟨_, _, hk, rfl, rfl⟩

/-- The loop that an absorb function runs. -/
theorem absorbOf_loop {mc : ModelCfg V} {kind : GossipKind} {gs : List Gossip} {now : Nat}
    {n n' : Node} {e : Effects V} (h : mc.absorbOf gs now kind n = some (n', e)) :
    ∃ r, absorbLoop (put kind) n.state gs = some r ∧ n'.state = r.state ∧
      n'.metricsLocal.duplicates = n.metricsLocal.duplicates + r.dups.length := by
  obtain ⟨n₁, fresh, hk, hs, hm⟩ := absorbOf_absorbKind h
  rw [hs, hm]
  unfold Node.absorbKind at hk
  split at hk
  · next hnil =>
    cases hk
    exact ⟨⟨n.state, [], []⟩, by rw [List.isEmpty_iff.1 hnil]; rfl, rfl, rfl⟩
  · obtain ⟨r, hr, hk⟩ := Option.bind_eq_some_iff.1 hk
    cases hk
    exact ⟨r, hr, rfl, rfl⟩

theorem absorbOf_of_loop (mc : ModelCfg V) {kind : GossipKind} {gs : List Gossip} (now : Nat)
    {n : Node} {r : Absorbed} (h : absorbLoop (put kind) n.state gs = some r) :
    ∃ n' e, mc.absorbOf gs now kind n = some (n', e) := by
  obtain ⟨⟨n₁, fresh⟩, hk⟩ : ∃ p, n.absorbKind kind gs now = some p := by
    unfold Node.absorbKind
    split
    · exact ⟨_, rfl⟩
    · rw [h]
      exact ⟨_, rfl⟩
  have hflood : ∀ c : FloodingCfg V, ∃ n' e, FloodingNode.absorb c kind gs now n = some (n', e) := by
    intro c
    simp only [FloodingNode.absorb, hk, Option.bind_eq_bind, Option.bind_some]
    split <;> exact ⟨_, _, rfl⟩
  have hpend : ∃ n' e, (absorbPending kind gs now : Handler V) n = some (n', e) := by
    simp only [absorbPending, hk, Option.bind_eq_bind, Option.bind_some]
    split <;> exact ⟨_, _, rfl⟩
  have hsketch : ∃ n' e, (SketchNode.absorb kind gs now : Handler V) n = some (n', e) := by
    simp only [SketchNode.absorb, hk, Option.bind_eq_bind, Option.bind_some]
    split <;> exact ⟨_, _, rfl⟩
  cases mc with
  | flooding c => cases kind <;> exact hflood c
  | cln c => cases kind <;> exact hpend
  | lnd c => cases kind <;> exact hpend
  | sketch c => cases kind <;> exact hsketch

theorem rejectsUntouched_iff_loop {mc : ModelCfg V} {kind : GossipKind} {gs : List Gossip}
    {now : Nat} {n : Node} : mc.RejectsUntouched kind gs now n ↔ LoopUntouched kind n.state gs := by
  constructor
  · intro hr pre g post r s' hgs hloop hput
    have hloop' : absorbLoop (put kind) n.state (pre ++ [g]) =
        some ⟨s', r.fresh, r.dups ++ [g]⟩ := by
      rw [absorbLoop_append, hloop]
      simp only [absorbLoop, hput, Option.bind_some, Option.bind_eq_bind]
      simp
    obtain ⟨n₁, e₁, h₁⟩ := absorbOf_of_loop mc now hloop
    obtain ⟨n₂, e₂, h₂⟩ := absorbOf_of_loop mc now hloop'
    obtain ⟨r₁, hr₁, hs₁, hd₁⟩ := absorbOf_loop h₁
    obtain ⟨r₂, hr₂, hs₂, hd₂⟩ := absorbOf_loop h₂
    obtain rfl : r = r₁ := Option.some.inj (hloop.symm.trans hr₁)
    obtain rfl := Option.some.inj (hloop'.symm.trans hr₂)
    have hdup : n₂.metricsLocal.duplicates = n₁.metricsLocal.duplicates + 1 := by
      rw [hd₁, hd₂, List.length_append]
      rfl
    have hsame := hr pre g post n₁ e₁ n₂ e₂ hgs h₁ h₂ hdup
    rwa [hs₁, hs₂] at hsame
  · intro hl pre g post n₁ e₁ n₂ e₂ hgs h₁ h₂ hdup
    obtain ⟨r₁, hr₁, hs₁, hd₁⟩ := absorbOf_loop h₁
    obtain ⟨r₂, hr₂, hs₂, hd₂⟩ := absorbOf_loop h₂
    rw [absorbLoop_append, hr₁, Option.bind_some] at hr₂
    simp only [absorbLoop, Option.bind_eq_bind, Option.bind_some] at hr₂
    cases hput : put kind r₁.state g with
    | none =>
      rw [hput] at hr₂
      cases hr₂
    | some p =>
      obtain ⟨s', b⟩ := p
      rw [hput] at hr₂
      cases b with
      | true =>
        cases hr₂
        rw [hd₁, hd₂] at hdup
        simp at hdup
      | false =>
        cases hr₂
        rw [hs₁, hs₂]
        exact hl pre g post r₁ s' hgs hr₁ hput

theorem originateStamp_rejected [MsgHash] {s s' : NodeState} {selfId : NodeId} {msg m : Gossip}
    {now : Nat} (h : originateStamp s selfId msg now = some (s', m, false)) :
    SameMaps s s' ↔ SizesAgree s [msg] := by
  unfold originateStamp at h
  cases hk : msg.kind with
  | channelUpdate =>
    simp only [hk, Option.bind_eq_bind, Option.bind_eq_some_iff] at h
    obtain ⟨scid, -, h⟩ := h
    cases h
  | nodeAnnouncement =>
    simp only [hk] at h
    cases h
  | channelAnnouncement =>
    simp only [hk, Option.bind_eq_bind, Option.bind_eq_some_iff] at h
    obtain ⟨scid, hscid, h⟩ := h
    split at h
    · next hknown =>
      cases h
      rw [sameMaps_insert_iff hknown]
      constructor
      · intro hs
        refine ⟨fun g hg scid' v hscid' hv => ?_, List.pairwise_singleton _ _⟩
        obtain rfl := List.mem_singleton.1 hg
        obtain rfl : scid = scid' := Option.some.inj (hscid.symm.trans hscid')
        exact hs v hv
      · intro hs v hv
        exact hs.stored msg (List.mem_singleton_self msg) scid v hscid hv
    · cases h

/-- An absorb call of any node kind leaves the maps alone at its duplicates exactly if the sizes of
the channel announcements agree, and so does an origination that is not broadcast. -/
theorem rejected_untouched_iff [MsgHash] (mc : ModelCfg V) (n : Node) :
    (∀ kind gs now n' e, mc.absorbOf gs now kind n = some (n', e) →
      (mc.RejectsUntouched kind gs now n ↔
        (kind = .channelAnnouncement → SizesAgree n.state gs))) ∧
    ∀ selfId msg now s' m, originateStamp n.state selfId msg now = some (s', m, false) →
      (SameMaps n.state s' ↔ SizesAgree n.state [msg]) := by
  refine ⟨fun kind gs now n' e h => ?_, fun _ _ _ _ _ h => originateStamp_rejected h⟩
  obtain ⟨r, hr, -⟩ := absorbOf_loop h
  rw [rejectsUntouched_iff_loop, loopUntouched_iff hr]

/-! ## Two sizes for one channel -/

section Sizes

local instance rejectedHash : MsgHash := ⟨List.sum⟩

def announcement (sizeBytes : Nat) : Gossip :=
  ⟨0, none, .channelAnnouncement, sizeBytes, some 7, 0, 0⟩

def floodNode : ModelCfg (Fin 2) := (floodPair (10 * 10 ^ 9)).model 0

/-- The second announcement of a channel is a duplicate, but its size is stored from then on; a
second origination of the channel stores its size as well. -/
theorem duplicate_overwrites_size :
    (∃ n e, floodNode.absorbOf [announcement 430, announcement 400] 0 .channelAnnouncement
      floodNode.initial = some (n, e) ∧ n.metricsLocal.duplicates = 1 ∧
      n.state.chanAnns.lookup 7 = some 400) ∧
    ¬floodNode.RejectsUntouched .channelAnnouncement [announcement 430, announcement 400] 0
      floodNode.initial ∧
    ∃ s s' m m', originateStamp (.new 0) 0 (announcement 430) 0 = some (s, m, true) ∧
      originateStamp s 0 (announcement 400) 0 = some (s', m', false) ∧ ¬SameMaps s s' := by
  refine ⟨⟨_, _, rfl, rfl, by decide⟩, fun h => ?_, ⟨_, _, _, _, rfl, rfl, fun h => ?_⟩⟩
  · have hsame := h [announcement 430] (announcement 400) [] _ _ _ _ rfl rfl rfl rfl
    exact absurd (hsame.chanAnns 7) (by decide)
  · exact absurd (h.chanAnns 7) (by decide)

/-- With one size the repeated announcement changes nothing. -/
theorem rejected_untouched_sample :
    floodNode.RejectsUntouched .channelAnnouncement [announcement 430, announcement 430] 0
      floodNode.initial := by
  apply ((rejected_untouched_iff floodNode floodNode.initial).1 _ _ _ _ _ rfl).2
  intro _
  exact ⟨fun g _ scid size _ hl => (nomatch hl), by simp [announcement]⟩

end Sizes

end LnConv
