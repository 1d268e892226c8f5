import LnConv.Lnsim.Inventory

/-!
# What reconciliation drops

A node keeps a set for each peer, of the messages that the peer may miss. It drops them when it has
compared the sets itself, when the peer reports that it has, and when a newer update replaces one. The
report names what the peer compared, so what a node drops then the peer has dealt with, unless it
joined the set while the report was under way.
-/

namespace LnConv.Lnsim

open Netsim

variable {n k : Nat}

/-- The set of the receiver that the sender compared. -/
def Body.compared : Body k → Finset (Fin k)
  | .channelInvs _ _ compared => compared
  | _ => ∅

namespace Sim

variable {W : World n k} {s s₁ s' : Sim n k} {m : Fin k} {u v p : Fin n}

/-! ## What a node knows of a message -/

/-- The node has sent `p` a message that names `m` among the `names`. -/
def Sent (s : Sim n k) (names : Body k → List (Fin k)) (v p : Fin n) (m : Fin k) : Prop :=
  ∃ me ∈ s.history.sent, me.sender = v ∧ me.receiver = p ∧ m ∈ names me.m.body

/-- The node has asked `p` for the message. -/
def Requested (s : Sim n k) (v p : Fin n) (m : Fin k) : Prop := s.Sent Body.asked v p m

/-- The node has sent `p` the inventory entry of the message. -/
def Offered (s : Sim n k) (v p : Fin n) (m : Fin k) : Prop := s.Sent Body.offered v p m

/-- The latest update that the node knows of the message's channel in its direction. -/
def latestOf (s : Sim n k) (v : Fin n) (m : Fin k) : Option (Fin k) :=
  (s.nodes v).latest (s.messages m).channelID (s.messages m).direction

/-- The node needs the message no longer. -/
inductive Told (s : Sim n k) (v : Fin n) (m : Fin k) : Prop where
  | seen : v ∈ s.seenBy m → Told s v m
  | requested {p : Fin n} : s.Requested v p m → Told s v m
  | asNew {m' : Fin k} : s.latestOf v m = some m' →
      (s.messages m).lastUpdate ≤ (s.messages m').lastUpdate → Told s v m

/-- The node knows a newer update than the message. -/
def Superseded (s : Sim n k) (v : Fin n) (m : Fin k) : Prop :=
  ∃ m', s.latestOf v m = some m' ∧ (s.messages m).lastUpdate < (s.messages m').lastUpdate

/-! ## What nobody forgets -/

/-- Nobody forgets whom it has asked, and updates get newer only. -/
structure Evolves (s s' : Sim n k) : Prop where
  later : Later s s'
  sent : ∀ me ∈ s.history.sent, me ∈ s'.history.sent
  fixed : ∀ m, s.Known m → (s'.messages m).channelID = (s.messages m).channelID ∧
    (s'.messages m).direction = (s.messages m).direction ∧
    (s'.messages m).lastUpdate = (s.messages m).lastUpdate
  latest : ∀ v c d m, (s.nodes v).latest c d = some m → ∃ m', (s'.nodes v).latest c d = some m' ∧
    (s.messages m).lastUpdate ≤ (s'.messages m').lastUpdate

namespace Evolves

theorem refl (s : Sim n k) : Evolves s s :=
  ⟨⟨fun _ _ h => h, fun _ => Finset.Subset.refl _⟩, fun _ h => h, fun _ _ => ⟨rfl, rfl, rfl⟩,
    fun _ _ _ m h => ⟨m, h, Nat.le_refl _⟩⟩

theorem known (h : Evolves s s') (hm : s.Known m) : s'.Known m := by
  obtain ⟨o, ho⟩ := hm
  exact ⟨o, h.later.origin m o ho⟩

theorem trans (h : Evolves s s₁) (h' : Evolves s₁ s') : Evolves s s' where
  later := ⟨fun m o ho => h'.later.origin m o (h.later.origin m o ho),
    fun m => (h.later.seenBy m).trans (h'.later.seenBy m)⟩
  sent me hme := h'.sent me (h.sent me hme)
  fixed m hm := by
    obtain ⟨hc, hd, hu⟩ := h.fixed m hm
    obtain ⟨hc', hd', hu'⟩ := h'.fixed m (h.known hm)
    exact ⟨hc'.trans hc, hd'.trans hd, hu'.trans hu⟩
  latest v c d m hm := by
    obtain ⟨m₁, hm₁, hle⟩ := h.latest v c d m hm
    obtain ⟨m₂, hm₂, hle'⟩ := h'.latest v c d m₁ hm₁
    exact ⟨m₂, hm₂, hle.trans hle'⟩

theorem of_emits {out : List (Packet n k)} (he : Emits s out s') : Evolves s s' where
  later := (Idle.of_emits he).later
  sent me hme := by
    rw [he.history]
    exact List.mem_append_left _ hme
  fixed m _ := by
    rw [he.messages]
    exact ⟨rfl, rfl, rfl⟩
  latest v c d m hm := by
    refine ⟨m, ?_, by rw [he.messages]⟩
    rwa [latest_eq (he.seenByChannel v)]

theorem of_modify {f : LightningNode n k → LightningNode n k}
    (hf : (f (s.nodes v)).seenByChannel = (s.nodes v).seenByChannel) : Evolves s (s.modify v f) where
  later := later_modify s v f
  sent _ h := h
  fixed _ _ := ⟨rfl, rfl, rfl⟩
  latest w c d m hm := by
    refine ⟨m, ?_, Nat.le_refl _⟩
    by_cases hw : w = v
    · subst hw
      rwa [modify_self, latest_eq hf]
    · rwa [modify_of_ne _ _ hw]

theorem of_cleared (s : Sim n k) (v p : Fin n) (success : Bool) :
    Evolves s (s.cleared v p success) := by
  unfold cleared
  split
  · exact of_modify rfl
  · exact refl s

theorem of_updated {time hops : Nat} {sender : Fin n}
    (hu : Updated W s time m v sender hops s') : Evolves s s' where
  later := hu.later
  sent me hme := by
    rw [hu.stays.history]
    exact hme
  fixed m' _ := by
    rw [hu.stays.messages]
    exact ⟨rfl, rfl, rfl⟩
  latest w c d m' hm' := by
    have hkeep : ∀ x, (s'.messages x).lastUpdate = (s.messages x).lastUpdate := fun x => by
      rw [hu.stays.messages]
    rcases hu.latest w c d with hl | ⟨-, -, -, -, hl, hlt⟩
    · exact ⟨m', hl.trans hm', by rw [hkeep]⟩
    · refine ⟨m, hl, ?_⟩
      rw [hkeep]
      exact (hlt m' hm').le

theorem of_arrived {me : Packet n k} (ha : Arrived s me s') : Evolves s s' where
  later := (Idle.of_arrived ha).later
  sent me hme := by
    rw [ha.history]
    exact hme
  fixed m _ := by
    rw [ha.messages]
    exact ⟨rfl, rfl, rfl⟩
  latest v c d m hm := by
    rw [ha.nodes, ha.messages]
    exact ⟨m, hm, Nat.le_refl _⟩

theorem of_dequeued (hd : Dequeued s m s') : Evolves s s' where
  later := (Idle.of_dequeued hd).later
  sent me hme := by
    rw [hd.history]
    exact hme
  fixed m _ := by
    rw [hd.messages]
    exact ⟨rfl, rfl, rfl⟩
  latest v c d m hm := by
    rw [hd.nodes, hd.messages]
    exact ⟨m, hm, Nat.le_refl _⟩

/-- A message that nobody knew is broadcast. -/
theorem of_originated (hk : KnownOnly W s) (hm : ¬s.Known m) (o : Fin n) (f : Gossip n → Gossip n) :
    Evolves s ((s.modifyMessage m f).originated o m) := by
  have hmess : ∀ x, s.Known x → ((s.modifyMessage m f).originated o m).messages x = s.messages x := by
    intro x hx
    refine Function.update_of_ne ?_ _ _
    rintro rfl
    exact hm hx
  refine ⟨later_originated hm o f, fun me hme => hme, fun x hx => ?_, fun w c d x hx => ?_⟩
  · rw [hmess x hx]
    exact ⟨rfl, rfl, rfl⟩
  · have hkx : s.Known x := (hk.nodes w).latest c d x hx
    by_cases hw : w = o
    · subst hw
      rw [originated_node]
      have hst := LightningNode.storeNew_spec (s.modifyMessage m f).messages
        ((s.nodes w).markSeen m) m
      rcases hst.latest c d with hl | ⟨hok, ht, rfl, rfl, hl⟩
      · exact ⟨x, hl.trans hx, by rw [hmess x hkx]⟩
      · refine ⟨m, hl, ?_⟩
        have hlt := (hst.newer hok ht).2 x hx
        rw [show (s.modifyMessage m f).messages x = s.messages x from hmess x hkx] at hlt
        exact hlt.le
    · rw [originated_of_ne _ _ hw]
      exact ⟨x, hx, by rw [hmess x hkx]⟩

end Evolves

theorem latestOf_evolves (h : Evolves s s') (hm : s.Known m) (v : Fin n) :
    s'.latestOf v m = (s'.nodes v).latest (s.messages m).channelID (s.messages m).direction := by
  obtain ⟨hc, hd, -⟩ := h.fixed m hm
  unfold latestOf
  rw [hc, hd]

theorem Told.evolves (ht : s.Told v m) (h : Evolves s s') (hm : s.Known m) : s'.Told v m := by
  cases ht with
  | seen hs => exact .seen (h.later.seenBy m hs)
  | requested hr =>
    obtain ⟨me, hme, hr⟩ := hr
    exact .requested ⟨me, h.sent me hme, hr⟩
  | asNew hl hle =>
    obtain ⟨m', hm', hle'⟩ := h.latest v _ _ _ hl
    refine .asNew ((latestOf_evolves h hm v).trans hm') ?_
    rw [(h.fixed m hm).2.2]
    exact hle.trans hle'

theorem Superseded.evolves (hs : s.Superseded v m) (h : Evolves s s') (hm : s.Known m) :
    s'.Superseded v m := by
  obtain ⟨m₁, hl, hlt⟩ := hs
  obtain ⟨m', hm', hle⟩ := h.latest v _ _ _ hl
  refine ⟨m', (latestOf_evolves h hm v).trans hm', ?_⟩
  rw [(h.fixed m hm).2.2]
  exact hlt.trans_le hle

/-! ## Requests are sent -/

/-- What a node has noted as requested it has asked somebody for. -/
def AllRequested (s : Sim n k) : Prop := ∀ v, ∀ m ∈ (s.nodes v).requestedInv, ∃ p, s.Requested v p m

theorem AllRequested.keep (h : AllRequested s) (he : Evolves s s')
    (hr : ∀ v, (s'.nodes v).requestedInv = (s.nodes v).requestedInv) : AllRequested s' := by
  intro v m hm
  rw [hr] at hm
  obtain ⟨p, me, hme, hp⟩ := h v m hm
  exact ⟨p, me, he.sent me hme, hp⟩

/-- A query is sent, with `rest`. -/
theorem AllRequested.query (h : AllRequested s) {q : List (ChannelInv k)}
    {f : LightningNode n k → LightningNode n k} {rest : List (Packet n k)}
    (hf : (f (s.nodes v)).requestedInv = (s.nodes v).requestedInv ∪ (q.map (·.msgID)).toFinset)
    (he : Emits (s.modify v f) (queryTo v p q ++ rest) s') :
    AllRequested s' ∧ ∀ inv ∈ q, s'.Requested v p inv.msgID := by
  have hsent : s'.history.sent = s.history.sent ++ (queryTo v p q ++ rest) := by
    rw [he.history]
    rfl
  have hasked : ∀ inv ∈ q, s'.Requested v p inv.msgID := by
    intro inv hinv
    have hne : q ≠ [] := List.ne_nil_of_mem hinv
    refine ⟨⟨⟨.channelQuery q, .ofNat (invSize * q.length)⟩, v, p, 1⟩, ?_, rfl, rfl,
      List.mem_map_of_mem hinv⟩
    rw [hsent]
    refine List.mem_append_right _ (List.mem_append_left _ ?_)
    unfold queryTo
    rw [if_neg hne]
    exact List.mem_singleton_self _
  refine ⟨fun w m hm => ?_, hasked⟩
  have hold : m ∈ (s.nodes w).requestedInv → ∃ p, s'.Requested w p m := by
    intro hm
    obtain ⟨p', me, hme, hp⟩ := h w m hm
    refine ⟨p', me, ?_, hp⟩
    rw [hsent]
    exact List.mem_append_left _ hme
  rw [he.requestedInv] at hm
  by_cases hw : w = v
  · subst hw
    rw [modify_self, hf] at hm
    rcases Finset.mem_union.1 hm with hm | hm
    · exact hold hm
    · obtain ⟨inv, hinv, rfl⟩ := List.mem_map.1 (List.mem_toFinset.1 hm)
      exact ⟨p, hasked inv hinv⟩
  · rw [modify_of_ne _ _ hw] at hm
    exact hold hm

theorem AllRequested.updates (h : AllRequested s) {time hops : Nat} {sender : Fin n}
    {ms : List (Fin k)} (hu : Updates W time v sender hops ms s s') : AllRequested s' := by
  induction hu with
  | nil _ => exact h
  | cons hu _ ih => exact ih (h.keep (.of_updated hu) hu.stays.requestedInv)

theorem AllRequested.cleared (h : AllRequested s) (v p : Fin n) (success : Bool) :
    AllRequested (s.cleared v p success) := by
  apply h.keep (.of_cleared s v p success)
  exact cleared_congr (g := LightningNode.requestedInv) rfl success

theorem AllRequested.turn (h : AllRequested s) (hk : KnownOnly W s) {l : Label n}
    (ht : Turn W s l s') : AllRequested s' := by
  cases ht with
  | quiet _ he => exact h.keep (.of_emits he) he.requestedInv
  | @staggered v _ _ _ _ he =>
    have h₁ : AllRequested (s.modify v LightningNode.clearQueue) := by
      apply h.keep (.of_modify rfl)
      exact modify_congr (g := LightningNode.requestedInv) rfl
    exact h₁.keep (.of_emits he) he.requestedInv
  | @broadcast _ m s₀ _ _ _ hd hb =>
    have h₀ := h.keep (.of_dequeued hd) fun v => by rw [hd.nodes]
    rcases hb.originates with rfl | ⟨v, f, dests, size, he⟩
    · exact h₀
    · have ho := Evolves.of_originated (hk.dequeued hd) (hk.not_known_of_dequeued hd) v f
      have h₁ := h₀.keep ho
        (originated_congr (g := LightningNode.requestedInv) _ v m fun _ _ _ => rfl)
      exact h₁.keep (.of_emits he) he.requestedInv
  | @delivered e me s₀ _ _ _ ha hd =>
    have h₀ := h.keep (.of_arrived ha) fun v => by rw [ha.nodes]
    cases hd with
    | silent _ he | query _ _ _ he => exact h₀.keep (.of_emits he) he.requestedInv
    | updates hu => exact (h₀.cleared _ _ _).updates hu
    | invs _ _ he =>
      rw [← List.append_nil (queryTo _ _ _)] at he
      exact ((h₀.cleared _ _ _).query rfl he).1
    | sketch _ _ _ he => exact (h₀.query rfl he).1

/-! ## Reports tell the truth -/

/-- What a report names, its sender has dealt with; nothing else reports. -/
structure Reports (s : Sim n k) (me : Packet n k) : Prop where
  compared : ∀ m ∈ me.m.body.compared, s.Told me.sender m
  success : me.m.body.success = true → ∃ invs, me.m.body = .channelInvs invs true me.m.body.compared

theorem mentions_of_mem_compared {b : Body k} (h : m ∈ b.compared) : b.Mentions m := by
  cases b with
  | channelInvs invs success compared => exact .inr h
  | gossip _ | channelQuery _ | channelUpdateBatch _ _ _ | reconcilSketch | reconcilRequest _ =>
    exact absurd h (Finset.notMem_empty m)

theorem Reports.evolves {me : Packet n k} (h : Reports s me) (he : Evolves s s')
    (hk : ∀ m, me.m.body.Mentions m → s.Known m) : Reports s' me :=
  ⟨fun m hm => (h.compared m hm).evolves he (hk m (mentions_of_mem_compared hm)), h.success⟩

/-- A message that reports nothing. -/
theorem reports_of_not_success {me : Packet n k} (hc : me.m.body.compared = ∅)
    (hs : me.m.body.success = false) : Reports s me := by
  refine ⟨fun m hm => ?_, fun h => ?_⟩
  · rw [hc] at hm
    exact absurd hm (Finset.notMem_empty m)
  · rw [hs] at h
    cases h

/-- The sets hold what the node has seen, an update is filed under its channel, and reports tell the
truth. -/
structure Consistent (s : Sim n k) : Prop where
  sets : ∀ v p set, (s.nodes v).reconcilSets p = some set → ∀ m ∈ set, v ∈ s.seenBy m
  filed : ∀ v c d m, (s.nodes v).latest c d = some m →
    (s.messages m).channelID = c ∧ (s.messages m).direction = d
  reports : ∀ me ∈ s.flight, Reports s me

namespace Consistent

theorem evolves (h : Consistent s) (hk : KnownOnly W s) (he : Evolves s s')
    (hsets : ∀ v p set', (s'.nodes v).reconcilSets p = some set' → ∀ m ∈ set', v ∈ s'.seenBy m ∨
      ∃ set, (s.nodes v).reconcilSets p = some set ∧ m ∈ set)
    (hfiled : ∀ v c d m, (s'.nodes v).latest c d = some m → (s.nodes v).latest c d = some m ∨
      (s'.messages m).channelID = c ∧ (s'.messages m).direction = d)
    (hflight : ∀ me ∈ s'.flight, me ∈ s.flight ∨ Reports s' me) : Consistent s' where
  sets v p set' hset' m hm := by
    rcases hsets v p set' hset' m hm with hv | ⟨set, hset, hm⟩
    · exact hv
    · exact he.later.seenBy m (h.sets v p set hset m hm)
  filed v c d m hm := by
    rcases hfiled v c d m hm with hm | hm
    · obtain ⟨hc, hd, -⟩ := he.fixed m ((hk.nodes v).latest c d m hm)
      rw [hc, hd]
      exact h.filed v c d m hm
    · exact hm
  reports me hme := by
    rcases hflight me hme with hme | hr
    · exact (h.reports me hme).evolves he (hk.flight me hme)
    · exact hr

theorem emits (h : Consistent s) (hk : KnownOnly W s) {out : List (Packet n k)}
    (he : Emits s out s') (hout : ∀ me ∈ out, Reports s' me) : Consistent s' := by
  refine h.evolves hk (.of_emits he) (fun v p set' hset' m hm => ?_) (fun v c d m hm => ?_)
    fun me hme => ?_
  · rw [he.reconcilSets] at hset'
    exact .inr ⟨set', hset', hm⟩
  · rw [latest_eq (he.seenByChannel v)] at hm
    exact .inl hm
  · rw [he.flight, Multiset.mem_add] at hme
    exact hme.imp_right fun hme => hout me (Multiset.mem_coe.1 hme)

/-- A node changes, and its sets lose messages at most. -/
theorem modify (h : Consistent s) (hk : KnownOnly W s) {f : LightningNode n k → LightningNode n k}
    (hf : (f (s.nodes v)).seenByChannel = (s.nodes v).seenByChannel)
    (hsets : ∀ p set', (f (s.nodes v)).reconcilSets p = some set' →
      set' = ∅ ∨ (s.nodes v).reconcilSets p = some set') : Consistent (s.modify v f) := by
  refine h.evolves hk (.of_modify hf) (fun w p set' hset' m hm => ?_) (fun w c d m hm => ?_)
    fun me hme => .inl hme
  · right
    by_cases hw : w = v
    · subst hw
      rw [modify_self] at hset'
      rcases hsets p set' hset' with rfl | hset
      · exact absurd hm (Finset.notMem_empty m)
      · exact ⟨set', hset, hm⟩
    · rw [modify_of_ne _ _ hw] at hset'
      exact ⟨set', hset', hm⟩
  · left
    by_cases hw : w = v
    · subst hw
      rwa [modify_self, latest_eq hf] at hm
    · rwa [modify_of_ne _ _ hw] at hm

theorem clear_sets {ln : LightningNode n k} {p p' : Fin n} {set' : Finset (Fin k)}
    (h : (ln.clear p).reconcilSets p' = some set') : set' = ∅ ∨ ln.reconcilSets p' = some set' := by
  change Function.update ln.reconcilSets p (some ∅) p' = some set' at h
  by_cases hp : p' = p
  · rw [hp, Function.update_self] at h
    exact .inl (Option.some.inj h).symm
  · rw [Function.update_of_ne hp] at h
    exact .inr h

theorem cleared (h : Consistent s) (hk : KnownOnly W s) (v p : Fin n) (success : Bool) :
    Consistent (s.cleared v p success) := by
  unfold Sim.cleared
  split
  · exact h.modify hk rfl fun _ _ hset => clear_sets hset
  · exact h

theorem updated (h : Consistent s) (hk : KnownOnly W s) {time hops : Nat} {sender : Fin n}
    (ht : Tallied W s m) (hu : Updated W s time m v sender hops s') : Consistent s' := by
  refine h.evolves hk (.of_updated hu) (fun w p set' hset' m' hm' => ?_) (fun w c d m' hm' => ?_)
    fun me hme => .inl (hu.stays.flight ▸ hme)
  · rcases hu.sets with hs | ⟨hf, -, hs, -, replace, -, hv⟩
    · rw [hs] at hset'
      exact .inr ⟨set', hset', hm'⟩
    · by_cases hw : w = v
      · subst hw
        rw [hv] at hset'
        obtain ⟨set, hset, rfl⟩ := Option.map_eq_some_iff.1 hset'
        have hold : m' ∈ set \ replace.toFinset →
            ∃ set, (s.nodes w).reconcilSets p = some set ∧ m' ∈ set :=
          fun hin => ⟨set, hset, (Finset.mem_sdiff.1 hin).1⟩
        split at hm'
        · exact .inr (hold hm')
        · rcases Finset.mem_insert.1 hm' with rfl | hin
          · exact .inl (hu.first_seen hf ht).2
          · exact .inr (hold hin)
      · rw [hs w hw] at hset'
        exact .inr ⟨set', hset', hm'⟩
  · rcases hu.latest w c d with hl | ⟨-, -, hc, hd, hl, -⟩
    · exact .inl (hl.symm.trans hm')
    · obtain rfl := Option.some.inj (hl.symm.trans hm')
      rw [hu.stays.messages]
      exact .inr ⟨hc, hd⟩

theorem updates (h : Consistent s) (hk : KnownOnly W s) {time hops : Nat} {sender : Fin n}
    {ms : List (Fin k)} (ht : AllTallied W s) (hms : ∀ m ∈ ms, s.Known m)
    (hu : Updates W time v sender hops ms s s') : Consistent s' := by
  induction hu with
  | nil _ => exact h
  | cons hu _ ih =>
    have hm := hms _ List.mem_cons_self
    obtain ⟨hk₁, hknown⟩ := hk.updated hm hu
    apply ih (h.updated hk (ht _ hm) hu) hk₁ (ht.updates (.cons hu (.nil _)))
    intro m' hm'
    exact (hknown m').2 (hms m' (List.mem_cons_of_mem _ hm'))

theorem originated (h : Consistent s) (hk : KnownOnly W s) (hm : ¬s.Known m) (o : Fin n)
    (f : Gossip n → Gossip n) : Consistent ((s.modifyMessage m f).originated o m) := by
  refine h.evolves hk (.of_originated hk hm o f) (fun w p set' hset' m' hm' => ?_)
    (fun w c d m' hm' => ?_) fun me hme => .inl hme
  · rw [originated_congr (g := LightningNode.reconcilSets) _ o m fun _ _ _ => rfl] at hset'
    exact .inr ⟨set', hset', hm'⟩
  · by_cases hw : w = o
    · subst hw
      rw [originated_node] at hm'
      rcases (LightningNode.storeNew_spec (s.modifyMessage m f).messages
        ((s.nodes w).markSeen m) m).latest c d with hl | ⟨-, -, hc, hd, hl⟩
      · exact .inl (hl.symm.trans hm')
      · obtain rfl := Option.some.inj (hl.symm.trans hm')
        exact .inr ⟨hc, hd⟩
    · rw [originated_of_ne _ _ hw] at hm'
      exact .inl hm'

end Consistent

/-! ## Comparing the sets -/

theorem seen_of_count_pos (ht : Tallied W s m) (h : 0 < s.count v m) : v ∈ s.seenBy m := by
  by_cases hdel : m ∈ s.history.deleted
  · have hall := ht.deleted.1 hdel
    have hseen := ht.seen
    have hle : (s.seenBy m).card ≤ n := by
      simpa using Finset.card_le_univ (s.seenBy m)
    rw [card_seenBy_eq_iff.1 (by omega)]
    exact Finset.mem_univ v
  · exact (ht.count hdel v).1 h

/-- What a node does not ask for it needs no longer. -/
theorem told_of_not_asks (ht : AllTallied W s) (hr : AllRequested s) (hm : s.Known m)
    (h : (s.nodes v).asks s.messages ((s.messages m).inv m) = false) : s.Told v m := by
  unfold LightningNode.asks at h
  rcases Bool.and_eq_false_iff.1 h with h | h
  · unfold LightningNode.shouldSendQuery at h
    rw [Bool.not_eq_false', Bool.or_eq_true_iff] at h
    rcases h with h | h
    · obtain ⟨p, hp⟩ := hr v m (of_decide_eq_true h)
      exact .requested hp
    · refine .seen (seen_of_count_pos (ht m hm) ?_)
      change ((s.nodes v).seen m).any (fun md => decide (0 < md.count)) = true at h
      unfold count LightningNode.metaData
      cases hs : (s.nodes v).seen m with
      | none =>
        rw [hs] at h
        cases h
      | some md =>
        rw [hs] at h
        exact of_decide_eq_true h
  · obtain ⟨-, h⟩ := Bool.or_eq_false_iff.1 h
    split at h
    · cases h
    · next m' hm' =>
      have hle := of_decide_eq_false h
      exact .asNew hm' (Nat.le_of_not_lt hle)

/-- A node that has compared the sets needs nothing of the other set any longer. -/
theorem told_of_sketch (hc : Consistent s) (hk : KnownOnly W s) (ht : AllTallied W s)
    (hr : AllRequested s) {lnSet senderSet : Finset (Fin k)} {q : List (ChannelInv k)}
    (hln : (s.nodes v).reconcilSets p = some lnSet)
    (hsender : (s.nodes p).reconcilSets v = some senderSet)
    (hq : q = ((sorted (senderSet \ lnSet)).map fun m => (s.messages m).inv m).filter
      ((s.nodes v).asks s.messages))
    {rest : List (Packet n k)}
    (he : Emits (s.modify v fun ln => (ln.request q).clear p) (queryTo v p q ++ rest) s')
    (hm : m ∈ senderSet) : s'.Told v m := by
  have hev : Evolves s s' :=
    (Evolves.of_modify (f := fun ln => (ln.request q).clear p) rfl).trans (.of_emits he)
  have hknown : s.Known m := (hk.nodes p).sets v senderSet hsender m hm
  by_cases hin : m ∈ lnSet
  · exact .seen (hev.later.seenBy m (hc.sets v p lnSet hln m hin))
  · cases hasks : (s.nodes v).asks s.messages ((s.messages m).inv m) with
    | false => exact (told_of_not_asks ht hr hknown hasks).evolves hev hknown
    | true =>
      refine .requested ((hr.query rfl he).2 ((s.messages m).inv m) ?_)
      rw [hq, List.mem_filter]
      refine ⟨List.mem_map_of_mem (mem_sorted.2 ?_), hasks⟩
      exact Finset.mem_sdiff.2 ⟨hm, hin⟩

theorem reports_of_silent {me : Packet n k} (h : Silent me) : Reports s me := by
  rcases h with h | ⟨size, h⟩
  · exact reports_of_not_success (by rw [h]; rfl) (by rw [h]; rfl)
  · exact reports_of_not_success (by rw [h]; rfl) (by rw [h]; rfl)

theorem compared_of_forward {messages : Fin k → Gossip n} {b : Body k} (h : Forward W messages b) :
    b.compared = ∅ ∧ b.success = false := by
  cases h <;> exact ⟨rfl, rfl⟩

theorem reports_queryTo {q : List (ChannelInv k)} {me : Packet n k} (h : me ∈ queryTo v p q) :
    Reports s me := by
  unfold queryTo at h
  split at h
  · cases h
  · rw [List.mem_singleton.1 h]
    exact reports_of_not_success rfl rfl

theorem reports_answerTo {batch : List (Fin k)} {me : Packet n k} (h : me ∈ answerTo v p batch) :
    Reports s me := by
  unfold answerTo at h
  split at h
  · cases h
  · rw [List.mem_singleton.1 h]
    exact reports_of_not_success rfl rfl

namespace Consistent

theorem arrived (h : Consistent s) (hk : KnownOnly W s) {me : Packet n k} (ha : Arrived s me s') :
    Consistent s' := by
  refine h.evolves hk (.of_arrived ha) (fun v p set' hset' m hm => ?_) (fun v c d m hm => ?_)
    fun me' hme' => .inl ?_
  · rw [ha.nodes] at hset'
    exact .inr ⟨set', hset', hm⟩
  · rw [ha.nodes] at hm
    exact .inl hm
  · rw [ha.flight]
    exact Multiset.mem_cons_of_mem hme'

theorem dequeued (h : Consistent s) (hk : KnownOnly W s) {x : Fin k} (hd : Dequeued s x s') :
    Consistent s' := by
  refine h.evolves hk (.of_dequeued hd) (fun v p set' hset' m hm => ?_) (fun v c d m hm => ?_)
    fun me hme => .inl (hd.flight ▸ hme)
  · rw [hd.nodes] at hset'
    exact .inr ⟨set', hset', hm⟩
  · rw [hd.nodes] at hm
    exact .inl hm

theorem delivered (h : Consistent s) (hk : KnownOnly W s) (ht : AllTallied W s)
    (hr : AllRequested s) {time : Nat} {me : Packet n k}
    (hme : ∀ m, me.m.body.Mentions m → s.Known m) (hd : Delivered W time s me s') :
    Consistent s' := by
  cases hd with
  | silent hout he => exact h.emits hk he fun me' hme' => reports_of_silent (hout me' hme')
  | updates hu =>
    obtain ⟨hk₁, hknown⟩ := hk.cleared me.receiver me.sender me.m.body.success
    refine (h.cleared hk _ _ _).updates hk₁ ((Idle.cleared _ _ _).allTallied ht) ?_ hu
    exact fun m hm => (hknown m).2 (hme m (KnownOnly.mentions_of_mem_bodies hm))
  | query _ _ _ he => exact h.emits hk he fun me' hme' => reports_answerTo hme'
  | @invs _ success _ q _ _ _ he =>
    have hk₁ := (hk.cleared me.receiver me.sender success).1
    have h₁ : Consistent ((s.cleared me.receiver me.sender success).modify me.receiver (·.request q)) :=
      (h.cleared hk _ _ _).modify hk₁ rfl fun _ _ hset => .inr hset
    exact h₁.emits (hk₁.request me.receiver q) he fun me' hme' => reports_queryTo hme'
  | @sketch lnSet senderSet q dataSize _ hln hsender hq he =>
    have hw := Within.clear (hk.nodes me.receiver) me.sender
    have hk₁ : KnownOnly W (s.modify me.receiver fun ln => (ln.request q).clear me.sender) :=
      hk.modify ⟨hw.bq, hw.seen, hw.latest, hw.sets⟩
    have h₁ : Consistent (s.modify me.receiver fun ln => (ln.request q).clear me.sender) :=
      h.modify hk rfl fun _ _ hset => clear_sets hset
    apply h₁.emits hk₁ he
    intro me' hme'
    rcases List.mem_append.1 hme' with hme' | hme'
    · exact reports_queryTo hme'
    · rw [List.mem_singleton.1 hme']
      exact ⟨fun m hm => told_of_sketch h hk ht hr hln hsender hq he hm, fun _ => ⟨_, rfl⟩⟩

theorem turn (h : Consistent s) (hk : KnownOnly W s) (ht : AllTallied W s) (hr : AllRequested s)
    {l : Label n} (hturn : Turn W s l s') : Consistent s' := by
  cases hturn with
  | quiet hout he => exact h.emits hk he fun me hme => reports_of_silent (hout me hme)
  | @staggered v out _ _ hf he =>
    have h₁ : Consistent (s.modify v LightningNode.clearQueue) :=
      h.modify hk rfl fun _ _ hset => .inr hset
    apply h₁.emits (hk.modify (Within.clearQueue (hk.nodes v))) he
    intro me hme
    obtain ⟨hc, hs⟩ := compared_of_forward (hf.forward me hme)
    exact reports_of_not_success hc hs
  | @broadcast _ m s₀ _ _ _ hd hb =>
    have hk₀ := hk.dequeued hd
    have hm := hk.not_known_of_dequeued hd
    have h₀ := h.dequeued hk hd
    rcases hb.originates with rfl | ⟨v, f, dests, size, he⟩
    · exact h₀
    · have hnodup := hk.nodup
      rw [hd.queued, Multiset.nodup_cons] at hnodup
      apply (h₀.originated hk₀ hm v f).emits (hk₀.originated hm hnodup.1) he
      intro me hme
      obtain ⟨p, -, rfl⟩ := List.mem_map.1 hme
      exact reports_of_not_success rfl rfl
  | @delivered e me s₀ _ _ _ ha hd =>
    obtain ⟨hk₀, hme⟩ := hk.arrived ha
    have h₀ := h.arrived hk ha
    have hr₀ : AllRequested s₀ := hr.keep (.of_arrived ha) fun v => by rw [ha.nodes]
    exact h₀.delivered hk₀ ((Idle.of_arrived ha).allTallied ht) hr₀ hme hd

theorem of_initial {q : Multiset (Fin k)} (h : Initial W q s) : Consistent s where
  sets v p set hset m hm := by
    rw [h.sets v p set hset] at hm
    exact absurd hm (Finset.notMem_empty m)
  filed v c d m hm := by
    unfold LightningNode.latest at hm
    rw [h.seenByChannel] at hm
    cases hm
  reports me hme := by
    rw [h.flight] at hme
    exact absurd hme (Multiset.notMem_zero me)

end Consistent

/-! ## Messages dropped -/

/-- The messages that a node keeps for a peer. -/
def pending (s : Sim n k) (v p : Fin n) : Finset (Fin k) := ((s.nodes v).reconcilSets p).getD ∅

/-- Why `v` need not keep the message for `p` after a step. -/
inductive Accounted (s s' : Sim n k) (v p : Fin n) (m : Fin k) : Prop where
  /-- The peer needs it no longer. -/
  | told : s.Told p m → Accounted s s' v p m
  /-- The peer is sent its inventory entry. -/
  | offered {out : List (Packet n k)} {me : Packet n k} : s'.history.sent = s.history.sent ++ out →
      me ∈ out → me.sender = v → me.receiver = p → m ∈ me.m.body.offered → Accounted s s' v p m
  /-- The node has replaced it by a newer update. -/
  | superseded : s'.Superseded v m → Accounted s s' v p m

/-- The step delivers to `v` the report of `p`, and the message joined the set after `p` compared it. -/
def Late (s : Sim n k) (l : Label n) (v p : Fin n) (m : Fin k) : Prop :=
  ∃ me ∈ s.delivers l, me.sender = p ∧ me.receiver = v ∧ me.m.body.success = true ∧
    m ∉ me.m.body.compared

theorem pending_congr (h : (s'.nodes v).reconcilSets = (s.nodes v).reconcilSets) (p : Fin n) :
    s'.pending v p = s.pending v p := by
  unfold pending
  rw [h]

theorem pending_of_some {set : Finset (Fin k)} (h : (s.nodes v).reconcilSets p = some set) :
    s.pending v p = set := by
  unfold pending
  rw [h]
  rfl

/-- Clearing a set drops messages of that set only. -/
theorem pending_clear {w q : Fin n} {f : LightningNode n k → LightningNode n k}
    (hf : (f (s.nodes w)).reconcilSets = ((s.nodes w).clear q).reconcilSets)
    (hm : m ∈ s.pending v p) (hm' : m ∉ (s.modify w f).pending v p) : v = w ∧ p = q := by
  by_cases hv : v = w
  · subst hv
    refine ⟨rfl, ?_⟩
    by_contra hp
    apply hm'
    unfold pending at hm ⊢
    rw [modify_self, hf]
    change m ∈ (Function.update (s.nodes v).reconcilSets q (some ∅) p).getD ∅
    rwa [Function.update_of_ne hp]
  · have hsame : (s.modify w f).pending v p = s.pending v p :=
      pending_congr (by rw [modify_of_ne _ _ hv]) p
    rw [hsame] at hm'
    exact absurd hm hm'

theorem pending_cleared {w q : Fin n} {success : Bool} (hm : m ∈ s.pending v p)
    (hm' : m ∉ (s.cleared w q success).pending v p) : success = true ∧ v = w ∧ p = q := by
  unfold cleared at hm'
  split at hm'
  · next hs => exact ⟨hs, pending_clear rfl hm hm'⟩
  · exact absurd hm hm'

theorem pending_emits {out : List (Packet n k)} (he : Emits s out s') (v p : Fin n) :
    s'.pending v p = s.pending v p := pending_congr (he.reconcilSets v) p

/-- What handling a message drops, a newer update has replaced. -/
theorem pending_updated (hc : Consistent s) {time hops : Nat} {m₁ : Fin k}
    {w sender : Fin n} (hu : Updated W s time m₁ w sender hops s')
    (hm : m ∈ s.pending v p ∨ s.Superseded v m) (hknown : s.Known m) :
    m ∈ s'.pending v p ∨ s'.Superseded v m := by
  have hev := Evolves.of_updated hu
  rcases hm with hm | hm
  swap
  · exact .inr (hm.evolves hev hknown)
  rcases hu.sets with hs | ⟨-, -, hs, -, replace, hrep, hv⟩
  · rw [pending_congr (hs v)]
    exact .inl hm
  by_cases hvw : v = w
  swap
  · rw [pending_congr (hs v hvw)]
    exact .inl hm
  subst hvw
  cases hset : (s.nodes v).reconcilSets p with
  | none =>
    unfold pending at hm
    rw [hset] at hm
    exact absurd hm (Finset.notMem_empty m)
  | some set =>
    rw [pending_of_some hset] at hm
    have hset' := hv p
    rw [hset, Option.map_some] at hset'
    rw [pending_of_some hset']
    by_cases hr : m ∈ replace.toFinset
    · right
      have hr := hrep m (by simpa using hr)
      obtain ⟨hcid, hdir⟩ := hc.filed v _ _ m hr.before
      refine ⟨m₁, ?_, ?_⟩
      · rw [latestOf_evolves hev hknown, hcid, hdir]
        exact hr.after
      · rw [hu.stays.messages m, hu.stays.messages m₁]
        exact hr.lt
    · left
      have hin := Finset.mem_sdiff.2 ⟨hm, hr⟩
      split
      · exact hin
      · exact Finset.mem_insert_of_mem hin

theorem pending_updates (hc : Consistent s) (hk : KnownOnly W s) (ht : AllTallied W s)
    {time hops : Nat} {w sender : Fin n} {ms : List (Fin k)} (hms : ∀ x ∈ ms, s.Known x)
    (hu : Updates W time w sender hops ms s s') (hm : m ∈ s.pending v p ∨ s.Superseded v m)
    (hknown : s.Known m) : m ∈ s'.pending v p ∨ s'.Superseded v m := by
  induction hu with
  | nil _ => exact hm
  | cons hu _ ih =>
    have hx := hms _ List.mem_cons_self
    obtain ⟨hk₁, hiff⟩ := hk.updated hx hu
    refine ih (hc.updated hk (ht _ hx) hu) hk₁ (ht.updates (.cons hu (.nil _))) (fun x hx => ?_)
      (pending_updated hc hu hm hknown) ((hiff m).2 hknown)
    exact (hiff x).2 (hms x (List.mem_cons_of_mem _ hx))

theorem known_of_pending (hk : KnownOnly W s) (hm : m ∈ s.pending v p) : s.Known m := by
  cases hset : (s.nodes v).reconcilSets p with
  | none =>
    unfold pending at hm
    rw [hset] at hm
    exact absurd hm (Finset.notMem_empty m)
  | some set =>
    rw [pending_of_some hset] at hm
    exact (hk.nodes v).sets p set hset m hm

/-- A message that a report drops its sender has dealt with, or it is late. -/
theorem accounted_of_report (hc : Consistent s) {l : Label n} {me : Packet n k}
    (hme : me ∈ s.flight) (hdel : s.delivers l = some me) (hs : me.m.body.success = true) :
    Accounted s s' me.receiver me.sender m ∨ s.Late l me.receiver me.sender m := by
  by_cases hin : m ∈ me.m.body.compared
  · exact .inl (.told ((hc.reports me hme).compared m hin))
  · exact .inr ⟨me, hdel, rfl, rfl, hs, hin⟩

theorem dropped (hc : Consistent s) (hk : KnownOnly W s) (ht : AllTallied W s) {l : Label n}
    (hturn : Turn W s l s') (hm : m ∈ s.pending v p) (hm' : m ∉ s'.pending v p) :
    Accounted s s' v p m ∨ s.Late l v p m := by
  cases hturn with
  | quiet _ he =>
    rw [pending_emits he] at hm'
    exact absurd hm hm'
  | @staggered w _ _ _ _ he =>
    rw [pending_emits he, pending_congr (modify_congr (g := LightningNode.reconcilSets) rfl v)] at hm'
    exact absurd hm hm'
  | @broadcast _ x s₀ _ _ _ hd hb =>
    have hm₀ : m ∈ s₀.pending v p := by
      unfold pending at hm ⊢
      rwa [hd.nodes]
    rcases hb.originates with rfl | ⟨o, f, dests, size, he⟩
    · exact absurd hm₀ hm'
    · have hsame := originated_congr (g := LightningNode.reconcilSets) (s₀.modifyMessage x f) o x
        (fun _ _ _ => rfl) v
      rw [pending_emits he, pending_congr hsame] at hm'
      exact absurd hm₀ hm'
  | @delivered e me s₀ _ hev hdata ha hd =>
    have hdel := delivers_of_message hev hdata
    have hme : me ∈ s.flight := by
      rw [ha.flight]
      exact Multiset.mem_cons_self me _
    have hreport : me.m.body.success = true → v = me.receiver → p = me.sender →
        Accounted s s' v p m ∨ s.Late l v p m := by
      rintro hs rfl rfl
      exact accounted_of_report hc hme hdel hs
    have hm₀ : m ∈ s₀.pending v p := by
      unfold pending at hm ⊢
      rwa [ha.nodes]
    obtain ⟨hk₀, hmention⟩ := hk.arrived ha
    cases hd with
    | silent _ he | query _ _ _ he =>
      rw [pending_emits he] at hm'
      exact absurd hm₀ hm'
    | updates hu =>
      cases hs : me.m.body.success with
      | true =>
        -- a report carries no gossip message
        obtain ⟨invs, hb⟩ := (hc.reports me hme).success hs
        rw [hb] at hu
        cases hu
        obtain ⟨-, hv, hp⟩ := pending_cleared hm₀ hm'
        exact hreport hs hv hp
      | false =>
        have hc₀ := hc.arrived hk ha
        have ht₀ := (Idle.of_arrived ha).allTallied ht
        unfold cleared at hu
        rw [hs] at hu
        have hbodies : ∀ x ∈ me.m.body.bodies, s₀.Known x := fun x hx =>
          hmention x (KnownOnly.mentions_of_mem_bodies hx)
        rcases pending_updates hc₀ hk₀ ht₀ hbodies hu (.inl hm₀) (known_of_pending hk₀ hm₀)
          with hin | hsup
        · exact absurd hin hm'
        · exact .inl (.superseded hsup)
    | @invs invs success compared q _ hb hq he =>
      rw [pending_emits he, pending_congr (modify_congr (g := LightningNode.reconcilSets) rfl v)] at hm'
      obtain ⟨hs, hv, hp⟩ := pending_cleared hm₀ hm'
      exact hreport (by rw [hb]; exact hs) hv hp
    | @sketch lnSet senderSet q dataSize _ hln hsender hq he =>
      rw [pending_emits he] at hm'
      obtain ⟨rfl, rfl⟩ := pending_clear (by rfl) hm₀ hm'
      rw [pending_of_some hln] at hm₀
      left
      by_cases hin : m ∈ senderSet
      · refine .told (.seen (hc.sets me.sender me.receiver senderSet ?_ m hin))
        rwa [ha.nodes] at hsender
      · have hsent := congrArg History.sent he.history
        change s'.history.sent = s₀.history.sent ++ _ at hsent
        rw [ha.history] at hsent
        refine .offered hsent (List.mem_append_right _ (List.mem_singleton_self _)) rfl rfl ?_
        show m ∈ ((sorted (lnSet \ senderSet)).map fun m => (s₀.messages m).inv m).map (·.msgID)
        rw [map_inv_msgID]
        exact mem_sorted.2 (Finset.mem_sdiff.2 ⟨hm₀, hin⟩)

/-- Whenever a message leaves the set for a peer, the peer has seen it, has asked somebody for it, is
offered it in that reconciliation or knows an update as new, or the node knows a newer one; messages
that joined the set after the peer compared it apart. -/
theorem dropped_accounted {s₀ : Sim n k} {ls : List (Label n)} {l : Label n} (hi : init W = some s₀)
    (h : run (step W) s₀ ls = some s) (hstep : step W s l = some s') (hm : m ∈ s.pending v p)
    (hm' : m ∉ s'.pending v p) (hlate : ¬s.Late l v p m) : Accounted s s' v p m := by
  have h₀ := initial_of_init hi
  have hreq : AllRequested s₀ := by
    intro v m hm
    rw [h₀.requestedInv] at hm
    exact absurd hm (Finset.notMem_empty m)
  obtain ⟨hk, ht, -, hc⟩ := run_invariant
    (P := fun s => KnownOnly W s ∧ AllTallied W s ∧ AllRequested s ∧ Consistent s) h
    ⟨.of_initial h₀, allTallied_of_initial h₀, hreq, .of_initial h₀⟩
    fun s l s' hs hstep => by
      have hturn := step_cases hstep
      obtain ⟨hk, ht, hr, hc⟩ := hs
      exact ⟨hk.turn hturn, ht.turn hk hturn, hr.turn hk hturn, hc.turn hk ht hr hturn⟩
  exact (dropped hc hk ht (step_cases hstep) hm hm').resolve_right hlate

/-! ## Three drops -/

instance (s : Sim n k) (names : Body k → List (Fin k)) (v p : Fin n) (m : Fin k) :
    Decidable (s.Sent names v p m) :=
  decidable_of_iff
    (s.history.sent.any fun me => me.sender == v && me.receiver == p && (names me.m.body).contains m)
    (by simp [Sent, and_assoc])

instance (s : Sim n k) (v p : Fin n) (m : Fin k) : Decidable (s.Requested v p m) :=
  inferInstanceAs (Decidable (s.Sent Body.asked v p m))

instance (s : Sim n k) (v p : Fin n) (m : Fin k) : Decidable (s.Offered v p m) :=
  inferInstanceAs (Decidable (s.Sent Body.offered v p m))

instance (s : Sim n k) (v : Fin n) (m : Fin k) : Decidable (s.Superseded v m) := by
  unfold Superseded
  infer_instance

instance (s : Sim n k) (l : Label n) (v p : Fin n) (m : Fin k) : Decidable (s.Late l v p m) := by
  unfold Late
  infer_instance

/-- `v` drops the message, which `p` has not seen, has not asked `v` for and was not offered by `v`, and
`v` knows no newer one. -/
structure Loses (s s' : Sim n k) (v p : Fin n) (m : Fin k) : Prop where
  before : m ∈ s.pending v p
  after : m ∉ s'.pending v p
  seen : p ∉ s'.seenBy m
  requested : ¬s'.Requested p v m
  offered : ¬s'.Offered v p m
  superseded : ¬s'.Superseded v m

instance (s s' : Sim n k) (v p : Fin n) (m : Fin k) : Decidable (Loses s s' v p m) :=
  decidable_of_iff
    (m ∈ s.pending v p ∧ m ∉ s'.pending v p ∧ p ∉ s'.seenBy m ∧ ¬s'.Requested p v m ∧
      ¬s'.Offered v p m ∧ ¬s'.Superseded v m)
    ⟨fun ⟨h₁, h₂, h₃, h₄, h₅, h₆⟩ => ⟨h₁, h₂, h₃, h₄, h₅, h₆⟩,
      fun ⟨h₁, h₂, h₃, h₄, h₅, h₆⟩ => ⟨h₁, h₂, h₃, h₄, h₅, h₆⟩⟩

def reconciliation : GossipAlgorithm := ⟨1000, 10, 10, 0, false, false, false, false⟩

/-- Node 0 has channels with 1 and 2, and node 3 has channels with both and requests their gossip. -/
def twoPeers : World 4 1 :=
  .plain reconciliation (by decide) (.generated fun _ => 1)
    (World.channelsOf [(0, 1), (0, 2), (3, 1), (3, 2)]) [(3, 1), (3, 2)]

/-- Node 0 broadcasts an update to 1 and 2. Node 3 compares sets with 1, and asks it for the update;
then it compares sets with 2. -/
def twoPeersRun : List (Label 4) :=
  [0, 1, 0, 0, 0, 0, 2, 0, 1, 0, 0, 3, 0, 0, 3, 0, 0].map fun i => ⟨i, 0, 0⟩

/-- The report to node 1 drops the update, which node 3 has asked for. -/
theorem dropped_accounted_twoPeers : ∃ s₀ s s', init twoPeers = some s₀ ∧
    run (step twoPeers) s₀ twoPeersRun = some s ∧ step twoPeers s ⟨0, 0, 0⟩ = some s' ∧
    0 ∈ s.pending 1 3 ∧ 0 ∉ s'.pending 1 3 ∧ Accounted s s' 1 3 0 := by
  obtain ⟨s₀, s, s', hs₀, hs, -, hs', hin, hout, hlate⟩ := step_of_any (step twoPeers) IsNext
    (init twoPeers) twoPeersRun ⟨0, 0, 0⟩
    (fun s s' => 0 ∈ s.pending 1 3 ∧ 0 ∉ s'.pending 1 3 ∧ ¬s.Late ⟨0, 0, 0⟩ 1 3 0)
    (by decide +kernel)
  have hrun := hs.run_eq
  exact ⟨s₀, s, s', hs₀, hrun, hs', hin, hout, dropped_accounted hs₀ hrun hs' hin hout hlate⟩

/-- The report to node 2 drops the update as well, which node 3 has asked node 1 for and not yet
received. -/
theorem asked_another_peer : ∃ s₀ s s', init twoPeers = some s₀ ∧
    Steps (step twoPeers) IsNext s₀ (twoPeersRun ++ [0, 3, 0].map fun i => ⟨i, 0, 0⟩) s ∧
    IsNext s ⟨0, 0, 0⟩ ∧ step twoPeers s ⟨0, 0, 0⟩ = some s' ∧ Loses s s' 2 3 0 := by
  exact step_of_any (step twoPeers) IsNext (init twoPeers) _ _ (fun s s' => Loses s s' 2 3 0)
    (by decide +kernel)

def slowReconciliation : GossipAlgorithm := ⟨1000, 10, 200, 0, false, false, false, false⟩

/-- Node 2 is two hops from node 0 over node 1, and three over 4 and 3. Node 0 has two updates of a
channel. -/
def twoWays : World 5 2 :=
  .plain slowReconciliation (by decide)
    (.replay fun m => ⟨if m = 0 then 50 else 250, .channelUpdate, 0, 0, 0, m.val + 1, false⟩)
    (World.channelsOf [(0, 1), (0, 4), (2, 1), (2, 3), (3, 4)])
    [(2, 3), (2, 1), (3, 4), (3, 2)]

def twoWaysRun : List (Label 5) :=
  [0, 1, 2, 3, 3, 3, 3, 0, 0, 1, 1, 4, 5, 0, 1, 1, 1, 1, 1, 1, 1, 0, 0, 0, 0, 7, 3, 3, 1, 1, 3, 3, 3,
    0, 0, 1, 1, 1, 4, 7, 1, 1, 1, 4].map fun i => ⟨i, 0, 0⟩

/-- Node 3 has the first update for node 2, which got the second over node 1 and asks nobody for the
first. -/
theorem newer_over_another_peer : ∃ s₀ s s', init twoWays = some s₀ ∧
    Steps (step twoWays) IsNext s₀ twoWaysRun s ∧ IsNext s ⟨4, 0, 0⟩ ∧
    step twoWays s ⟨4, 0, 0⟩ = some s' ∧ Loses s s' 3 2 0 ∧ ∀ q, ¬s'.Requested 2 q 0 := by
  exact step_of_any (step twoWays) IsNext (init twoWays) twoWaysRun ⟨4, 0, 0⟩
    (fun s s' => Loses s s' 3 2 0 ∧ ∀ q, ¬s'.Requested 2 q 0) (by decide +kernel)

/-- Node 2 requests the gossip of node 1, to which node 0 broadcasts an update later. -/
def laterUpdate : World 4 1 :=
  .plain reconciliation (by decide) (.generated fun _ => 120)
    (World.channelsOf [(0, 1), (2, 1), (2, 3)]) [(2, 1)]

/-- Node 2 compares the empty sets, and the update reaches node 1 before the report does, which drops
it. -/
theorem late_message_lost : ∃ s₀ s s', init laterUpdate = some s₀ ∧
    Steps (step laterUpdate) IsNext s₀ ([0, 1, 0, 0, 1, 0, 1].map fun i => ⟨i, 0, 0⟩) s ∧
    IsNext s ⟨0, 0, 0⟩ ∧ step laterUpdate s ⟨0, 0, 0⟩ = some s' ∧ Loses s s' 1 2 0 := by
  exact step_of_any (step laterUpdate) IsNext (init laterUpdate) _ _ (fun s s' => Loses s s' 1 2 0)
    (by decide +kernel)

end Sim

end LnConv.Lnsim
