import LnConv.Traffic

/-!
# Timestamps and the clock

`originate_stamp` overwrites the stored timestamp without looking at it. Below `2 ^ 32`
seconds that is safe: no timestamp stored or under way is ahead of the clock.
-/

namespace LnConv

theorem nowSecs_eq {now : Nat} (h : now < 2 ^ 32 * 10 ^ 9) : nowSecs now = now / 10 ^ 9 := by
  rw [nowSecs, Nat.mod_eq_of_lt (by omega)]

section Clock

variable {V : Type} [MsgHash]

/-- The timestamps up to `T`. -/
def upTo (T : Nat) : Discipline where
  travels g := g.timestamp ≤ T
  holds _ _ t := t ≤ T
  held g hg := by
    unfold Gossip.stamp
    split
    · exact Nat.zero_le T
    · exact hg
  rebuilt s kind e he hT := by rwa [(gossip_of_mem_entries he).2.2.1]

theorem Net.Carries.mono_upTo {s s' : Net V} {T T' : Nat} (h : s.Carries (upTo T)) (hT : T ≤ T')
    (hn : s'.node = s.node) (hq : s'.queue = s.queue) (hf : s'.flight = s.flight)
    (hc : s'.counted = s.counted) (hm : s'.metrics = s.metrics) : s'.Carries (upTo T') where
  fits v := by
    rw [hn]
    exact ⟨fun kind k t ht => ((h.fits v).held kind k t ht).trans hT,
      fun g hg => ((h.fits v).pending g hg).trans hT⟩
  scheduled q hq' g hg := (h.scheduled q (hq ▸ hq') g hg).trans hT
  flight p hp g hg := (h.flight p (hf ▸ hp) g hg).trans hT
  counted v x hx := (h.counted v x (hc ▸ hx)).trans hT
  buffered v x hx := (h.buffered v x (by rwa [Net.buffered, ← hn])).trans hT
  shipped idx x hx := (h.shipped idx x (hm ▸ hx)).trans hT

/-- An origination stamps with the clock, a channel announcement not at all. -/
theorem upTo_stamps {s : NodeState} {selfId : NodeId} {msg : Gossip} {now T : Nat}
    (hm : msg.timestamp ≤ T) (hT : nowSecs now ≤ T) : (upTo T).Stamps s selfId msg now := by
  intro s' m h
  unfold originateStamp at h
  show m.timestamp ≤ T
  cases hk : msg.kind with
  | channelUpdate =>
    simp only [hk, Option.bind_eq_bind, Option.bind_eq_some_iff] at h
    obtain ⟨scid, -, h⟩ := h
    cases h
    exact hT
  | nodeAnnouncement =>
    simp only [hk] at h
    cases h
    exact hT
  | channelAnnouncement =>
    simp only [hk, Option.bind_eq_bind, Option.bind_eq_some_iff] at h
    obtain ⟨scid, -, h⟩ := h
    split at h <;> cases h
    exact hm

variable [DecidableEq V] {w : Network V} {s s' : Net V}

/-- No timestamp is ahead of the clock: none that is stored, and none of a gossip that is
pending, scheduled or in flight. -/
structure Net.InPast (s : Net V) : Prop where
  stored : ∀ v kind k T, (s.node v).view kind k = WithBot.some T → T ≤ s.now / 10 ^ 9
  pending : ∀ v, ∀ g ∈ (s.node v).pending, g.timestamp ≤ s.now / 10 ^ 9
  scheduled : ∀ q ∈ s.queue, ∀ g, g ∈ q.ev.gossips ∨ q.ev = .originate g →
    g.timestamp ≤ s.now / 10 ^ 9
  flight : ∀ p ∈ s.flight, ∀ g ∈ p.wire.gossips, g.timestamp ≤ s.now / 10 ^ 9

/-- What a step keeps: the event sources leave the timestamp to the origination. -/
structure Clocked (s : Net V) : Prop where
  carries : s.Carries (upTo (s.now / 10 ^ 9))
  awaits : s.Awaits fun _ g => g.timestamp = 0

omit [DecidableEq V] in
theorem Clocked.inPast (h : Clocked s) : s.InPast where
  stored v := (h.carries.fits v).held
  pending v := (h.carries.fits v).pending
  scheduled q hq g hg := by
    rcases hg with hg | hg
    · exact h.carries.scheduled q hq g hg
    · rw [h.awaits q hq g hg]
      exact Nat.zero_le _
  flight := h.carries.flight

theorem now_le_of_step {l : Label} (hs : step w s l = some s') : s.now ≤ s'.now := by
  cases moves_of_step hs with
  | advance hle => exact hle
  | deliver _ _ _ => exact le_rfl
  | fire _ _ _ => exact le_rfl

theorem Clocked.step (h : Clocked s) (hnow : s.now < 2 ^ 32 * 10 ^ 9) {l : Label}
    (hs : step w s l = some s') : Clocked s' := by
  refine ⟨?_, h.awaits.step hs⟩
  have hok : s.StampsOk w (upTo (s.now / 10 ^ 9)) l := fun x hx =>
    upTo_stamps (by rw [h.awaits.originates hx]; exact Nat.zero_le _) (nowSecs_eq hnow).le
  have hc := h.carries.step hok hs
  exact hc.mono_upTo (Nat.div_le_div_right (now_le_of_step hs)) rfl rfl rfl rfl rfl

omit [DecidableEq V] in
/-- An origination finds nothing newer than its stamp. -/
theorem Clocked.steady (h : Clocked s) (hnow : s.now < 2 ^ 32 * 10 ^ 9) (l : Label) :
    Steady w s l := by
  rintro x - ⟨-, hlt⟩
  obtain ⟨T, hT⟩ := WithBot.ne_bot_iff_exists.1 (ne_bot_of_gt hlt)
  rw [← hT, nowSecs_eq hnow] at hlt
  exact absurd (WithBot.coe_lt_coe.1 hlt) (not_lt.2 ((h.carries.fits x.1).held _ _ T hT.symm))

theorem clocked_run {ls : List Label} (h : Clocked s) (hr : run (LnConv.step w) s ls = some s')
    (hnow : s'.now < 2 ^ 32 * 10 ^ 9) :
    Clocked s' ∧ ∀ v, (s.node v).view ≤ (s'.node v).view := by
  induction ls generalizing s with
  | nil => cases hr; exact ⟨h, fun _ => le_rfl⟩
  | cons l ls ih =>
    obtain ⟨t, ht, hr⟩ := Option.bind_eq_some_iff.1 hr
    have hle : t.now ≤ s'.now := by
      refine run_invariant (P := fun x => t.now ≤ x.now) hr le_rfl ?_
      exact fun _ _ _ hx hs => hx.trans (now_le_of_step hs)
    have hs : s.now < 2 ^ 32 * 10 ^ 9 := (now_le_of_step ht).trans_lt (hle.trans_lt hnow)
    obtain ⟨hc, hmono⟩ := ih (h.step hs ht) hr
    exact ⟨hc, fun v => ((Network.lossFree (h.steady hs l) ht).mono v).trans (hmono v)⟩

/-- Below `2 ^ 32` seconds no timestamp is ahead of the clock, and along every run what a
node stores for a key never gets older. -/
theorem stamps_in_past {events : List (Nat × V × Gossip)}
    (he : ∀ x ∈ events, x.2.2.timestamp = 0) {s₀ : Net V} {ls : List Label}
    (h₀ : init w events = some s₀) (h : run (LnConv.step w) s₀ ls = some s)
    (hnow : s.now < 2 ^ 32 * 10 ^ 9) :
    s.InPast ∧ ∀ ls' s', run (LnConv.step w) s ls' = some s' → s'.now < 2 ^ 32 * 10 ^ 9 →
      ∀ v kind k, (s.node v).view kind k ≤ (s'.node v).view kind k := by
  have hinit : Clocked s₀ := by
    refine ⟨carries_init h₀, fun q hq msg hm => ?_⟩
    obtain ⟨t, ht⟩ := awaits_init h₀ q hq msg hm
    exact he _ ht
  have hc := (clocked_run hinit h hnow).1
  exact ⟨hc.inPast, fun _ _ h' hnow' v kind k => (clocked_run hc h' hnow').2 v kind k⟩

end Clock

section Sample

/-- A hash for runs on fixed inputs. -/
local instance lengthHash : MsgHash := ⟨List.length⟩

/-- Node 0 of two flooding nodes updates its channel after 10 s, and both store it at 10. -/
theorem stamps_in_past_pair : ∃ s₀ s, init wrapNet wrapEvents = some s₀ ∧
    run (step wrapNet) s₀ (wrapRun.take 6) = some s ∧ s.now < 2 ^ 32 * 10 ^ 9 ∧
    (∀ x ∈ wrapEvents, x.2.2.timestamp = 0) ∧ s.InPast ∧
    ∀ ls' s', run (step wrapNet) s ls' = some s' → s'.now < 2 ^ 32 * 10 ^ 9 →
      ∀ v kind k, (s.node v).view kind k ≤ (s'.node v).view kind k := by
  have hrun : ((init wrapNet wrapEvents).bind fun s =>
      run (step wrapNet) s (wrapRun.take 6)).any (fun s => s.now < 2 ^ 32 * 10 ^ 9) = true := by
    decide +kernel
  obtain ⟨s, hs, hnow⟩ := (Option.any_eq_true _ _).1 hrun
  obtain ⟨s₀, h₀, hs⟩ := Option.bind_eq_some_iff.1 hs
  have hlt : s.now < 2 ^ 32 * 10 ^ 9 := of_decide_eq_true hnow
  have he : ∀ x ∈ wrapEvents, x.2.2.timestamp = 0 := by decide
  exact ⟨s₀, s, h₀, hs, hlt, he, stamps_in_past he h₀ hs hlt⟩

end Sample

end LnConv
