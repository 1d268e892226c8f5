import LnConv.Lnsim.Known

/-!
# The seen counter

A message's counter is to be the number of nodes that have seen it, its origin among them. A
generated message starts at one, for the origin; a replayed message starts at zero, although its
origin has seen it as well, so its counter stays one behind and it is never deleted.
-/

namespace LnConv.Lnsim.Sim

open Netsim

variable {n k : Nat} {W : World n k} {s s' : Sim n k}

/-- The number of nodes whose entry for the message has a count. -/
def coverage (s : Sim n k) (m : Fin k) : Nat := (Finset.univ.filter fun v => 0 < s.count v m).card

/-- The nodes that have seen the message: its origin, and those that logged it. -/
def seenBy (s : Sim n k) (m : Fin k) : Finset (Fin n) :=
  Finset.univ.filter fun v => s.history.origin m = some v ∨
    ∃ row ∈ s.seenLogger, row.nodeID = v ∧ row.messageID = m

theorem mem_seenBy {m : Fin k} {v : Fin n} : v ∈ s.seenBy m ↔ s.history.origin m = some v ∨
    ∃ row ∈ s.seenLogger, row.nodeID = v ∧ row.messageID = m := by
  unfold seenBy
  rw [Finset.mem_filter, and_iff_right (Finset.mem_univ v)]

/-- The counter is the coverage until the message is deleted; it is deleted, and counts as
propagated at the end of the run, exactly when every node has seen it. -/
structure SeenIsCoverage (s : Sim n k) (m : Fin k) : Prop where
  seen : m ∉ s.history.deleted → (s.messages m).seen = s.coverage m
  deleted : m ∈ s.history.deleted ↔ s.seenBy m = Finset.univ
  propagated : (s.messages m).seen = n ↔ s.seenBy m = Finset.univ

/-- What a source leaves uncounted: the origin of a replayed message. -/
def Source.uncounted : Source n k → Nat
  | .generated _ => 0
  | .replay _ => 1

/-- The counter and the coverage, whatever the source counts. -/
structure Tallied (W : World n k) (s : Sim n k) (m : Fin k) : Prop where
  seen : (s.messages m).seen + Source.uncounted W.source = (s.seenBy m).card
  count : m ∉ s.history.deleted → ∀ v, 0 < s.count v m ↔ v ∈ s.seenBy m
  deleted : m ∈ s.history.deleted ↔ n ≤ (s.messages m).seen

/-- Origins stay, and who has seen a message has seen it. -/
structure Later (s s' : Sim n k) : Prop where
  origin : ∀ m o, s.history.origin m = some o → s'.history.origin m = some o
  seenBy : ∀ m, s.seenBy m ⊆ s'.seenBy m

theorem later_modify (s : Sim n k) (v : Fin n) (f : LightningNode n k → LightningNode n k) :
    Later s (s.modify v f) := ⟨fun _ _ ho => ho, fun _ => Finset.Subset.refl _⟩

/-- A message that nobody knew gets an origin. -/
theorem later_originated {m : Fin k} (hm : ¬s.Known m) (v : Fin n) (f : Gossip n → Gossip n) :
    Later s ((s.modifyMessage m f).originated v m) := by
  have hkeep : ∀ {m' : Fin k} {o : Fin n}, s.history.origin m' = some o →
      ((s.modifyMessage m f).originated v m).history.origin m' = some o := by
    intro m' o ho
    show Function.update s.history.origin m (some v) m' = some o
    rw [Function.update_of_ne]
    · exact ho
    · rintro rfl
      exact hm ⟨o, ho⟩
  refine ⟨fun m' o => hkeep, fun m' w hw => ?_⟩
  rw [mem_seenBy] at hw ⊢
  exact hw.imp_left hkeep

/-- No counter changes. -/
structure Idle (s s' : Sim n k) : Prop where
  seen : ∀ m, (s'.messages m).seen = (s.messages m).seen
  count : ∀ v m, s'.count v m = s.count v m
  seenLogger : s'.seenLogger = s.seenLogger
  origin : s'.history.origin = s.history.origin
  deleted : s'.history.deleted = s.history.deleted

namespace Idle

theorem trans {s₁ : Sim n k} (h : Idle s s₁) (h' : Idle s₁ s') : Idle s s' where
  seen m := (h'.seen m).trans (h.seen m)
  count v m := (h'.count v m).trans (h.count v m)
  seenLogger := h'.seenLogger.trans h.seenLogger
  origin := h'.origin.trans h.origin
  deleted := h'.deleted.trans h.deleted

theorem of_emits {out : List (Packet n k)} (h : Emits s out s') : Idle s s' where
  seen m := by rw [h.messages]
  count v m := by
    unfold Sim.count
    rw [metaData_of_seen (congrFun (h.seen v) m)]
  seenLogger := h.seenLogger
  origin := by rw [h.history]
  deleted := by rw [h.history]

theorem of_arrived {me : Packet n k} (h : Arrived s me s') : Idle s s' where
  seen m := by rw [h.messages]
  count v m := by unfold Sim.count; rw [h.nodes]
  seenLogger := h.seenLogger
  origin := by rw [h.history]
  deleted := by rw [h.history]

theorem of_dequeued {m : Fin k} (h : Dequeued s m s') : Idle s s' where
  seen m := by rw [h.messages]
  count v m := by
    unfold Sim.count
    rw [h.nodes]
  seenLogger := h.seenLogger
  origin := by rw [h.history]
  deleted := by rw [h.history]

theorem of_modify {v : Fin n} {f : LightningNode n k → LightningNode n k}
    (hf : ∀ m, ((f (s.nodes v)).metaData m).count = ((s.nodes v).metaData m).count) :
    Idle s (s.modify v f) where
  seen m := rfl
  count w m := by
    exact modify_congr (g := fun ln => (ln.metaData m).count) (hf m) w
  seenLogger := rfl
  origin := rfl
  deleted := rfl

theorem clearQueue (v : Fin n) : Idle s (s.modify v LightningNode.clearQueue) := by
  apply of_modify
  intro m
  unfold LightningNode.clearQueue
  conv_lhs => unfold LightningNode.metaData
  dsimp only
  split <;> rfl

theorem cleared (v p : Fin n) (success : Bool) : Idle s (s.cleared v p success) := by
  unfold Sim.cleared
  split
  · exact of_modify fun _ => rfl
  · exact ⟨fun _ => rfl, fun _ _ => rfl, rfl, rfl, rfl⟩

theorem request (v : Fin n) (q : List (ChannelInv k)) : Idle s (s.modify v (·.request q)) :=
  of_modify fun _ => rfl

theorem seenBy (h : Idle s s') (m : Fin k) : s'.seenBy m = s.seenBy m := by
  unfold Sim.seenBy
  rw [h.seenLogger, h.origin]

theorem later (h : Idle s s') : Later s s' where
  origin m o ho := by rwa [h.origin]
  seenBy m := by rw [h.seenBy]

theorem tallied (h : Idle s s') {m : Fin k} (ht : Tallied W s m) : Tallied W s' m where
  seen := by rw [h.seen, h.seenBy]; exact ht.seen
  count := by
    intro hm v
    rw [h.deleted] at hm
    rw [h.count, h.seenBy]
    exact ht.count hm v
  deleted := by rw [h.deleted, h.seen]; exact ht.deleted

end Idle

theorem seenBy_append {m : Fin k} {row : SeenRow n k}
    (hl : s'.seenLogger = s.seenLogger ++ [row]) (ho : s'.history.origin = s.history.origin) :
    s'.seenBy m = if row.messageID = m then insert row.nodeID (s.seenBy m) else s.seenBy m := by
  ext w
  rw [mem_seenBy, hl, ho]
  split
  · next hrow =>
    rw [Finset.mem_insert, mem_seenBy]
    constructor
    · rintro (h | ⟨r, hr, hw⟩)
      · exact .inr (.inl h)
      · rcases List.mem_append.1 hr with hr | hr
        · exact .inr (.inr ⟨r, hr, hw⟩)
        · rw [List.mem_singleton.1 hr] at hw
          exact .inl hw.1.symm
    · rintro (rfl | h | ⟨r, hr, hw⟩)
      · exact .inr ⟨row, List.mem_append_right _ (List.mem_singleton_self _), rfl, hrow⟩
      · exact .inl h
      · exact .inr ⟨r, List.mem_append_left _ hr, hw⟩
  · next hrow =>
    rw [mem_seenBy]
    refine or_congr_right ⟨?_, ?_⟩
    · rintro ⟨r, hr, hw⟩
      rcases List.mem_append.1 hr with hr | hr
      · exact ⟨r, hr, hw⟩
      · rw [List.mem_singleton.1 hr] at hw
        exact absurd hw.2 hrow
    · rintro ⟨r, hr, hw⟩
      exact ⟨r, List.mem_append_left _ hr, hw⟩

/-- A message handled: at most the node joins those that have seen it. -/
theorem Tallied.updated {time : Nat} {m m' : Fin k} {v sender : Fin n} {hops : Nat}
    (ht : Tallied W s m') (hu : Updated W s time m v sender hops s') : Tallied W s' m' := by
  have hst := hu.stays
  have horigin : s'.history.origin = s.history.origin := by rw [hst.history]
  by_cases hm : m' = m
  · subst hm
    -- a node that is new to the message is not among those that have seen it
    have hjoin : ∀ {row : SeenRow n k}, s.First v m' → row.nodeID = v → row.messageID = m' →
        s'.seenLogger = s.seenLogger ++ [row] →
        m' ∉ s.history.deleted ∧ s'.seenBy m' = insert v (s.seenBy m') ∧ v ∉ s.seenBy m' := by
      intro row hf hv hid hl
      have hnot : m' ∉ s.history.deleted := by
        rw [ht.deleted]
        have := hf.1
        omega
      have hs := seenBy_append (m := m') hl horigin
      rw [if_pos hid, hv] at hs
      refine ⟨hnot, hs, fun hin => ?_⟩
      have hpos := (ht.count hnot v).2 hin
      have := hf.2
      omega
    cases hu.counts with
    | everyone he _ =>
      rw [he]
      exact ht
    | again _ hold hmess hl hd hc hw =>
      have hb : s'.seenBy m' = s.seenBy m' := by
        unfold seenBy
        rw [hl, horigin]
      refine ⟨by rw [hmess, hb]; exact ht.seen, fun hnot w => ?_, by rw [hd, hmess]; exact ht.deleted⟩
      rw [hd] at hnot
      rw [hb, ← ht.count hnot]
      by_cases hwv : w = v
      · subst hwv
        omega
      · rw [hw w hwv]
    | first hf hseen hlt hv hid hl hd hc hw =>
      obtain ⟨hnot, hb, hnew⟩ := hjoin hf hv hid hl
      have hcard := ht.seen
      have hdel := ht.deleted
      refine ⟨?_, fun _ w => ?_, ?_⟩
      · rw [hb, Finset.card_insert_of_notMem hnew]
        omega
      · rw [hb, Finset.mem_insert]
        by_cases hwv : w = v
        · rw [hwv, hc]
          exact iff_of_true Nat.one_pos (.inl rfl)
        · rw [hw w hwv, ht.count hnot, or_iff_right hwv]
      · rw [hd]
        exact iff_of_false hnot (by omega)
    | last hf hseen hle hv hid hl hd _ =>
      obtain ⟨-, hb, hnew⟩ := hjoin hf hv hid hl
      have hcard := ht.seen
      refine ⟨?_, fun hnot => absurd ?_ hnot, ?_⟩
      · rw [hb, Finset.card_insert_of_notMem hnew]
        omega
      · rw [hd]
        exact Finset.mem_insert_self _ _
      · rw [hd]
        exact iff_of_true (Finset.mem_insert_self _ _) hle
  · have hseen : (s'.messages m').seen = (s.messages m').seen := by rw [hst.others m' hm]
    have hb : s'.seenBy m' = s.seenBy m' := by
      rcases hu.logged with hl | ⟨row, -, hid, hl⟩
      · unfold seenBy
        rw [hl, horigin]
      · rw [seenBy_append hl horigin, if_neg (by rw [hid]; exact Ne.symm hm)]
    refine ⟨by rw [hseen, hb]; exact ht.seen, fun hnot w => ?_, ?_⟩
    · rw [hu.deleted_of_ne hm] at hnot
      unfold Sim.count
      rw [metaData_of_seen (hu.seen_of_ne hm w), hb]
      exact ht.count hnot w
    · rw [hu.deleted_of_ne hm, hseen]
      exact ht.deleted

/-! ## Who has seen a message -/

theorem Updated.later {time hops : Nat} {m : Fin k} {v sender : Fin n}
    (hu : Updated W s time m v sender hops s') : Later s s' := by
  have horigin : s'.history.origin = s.history.origin := by rw [hu.stays.history]
  refine ⟨fun m' o ho => by rw [horigin]; exact ho, fun m' w hw => ?_⟩
  rcases hu.logged with hl | ⟨row, -, -, hl⟩
  · rw [mem_seenBy] at hw ⊢
    rwa [hl, horigin]
  · rw [seenBy_append hl horigin]
    split
    · exact Finset.mem_insert_of_mem hw
    · exact hw

/-- The node that handles a message for the first time has not seen it before. -/
theorem Updated.first_seen {time hops : Nat} {m : Fin k} {v sender : Fin n}
    (hu : Updated W s time m v sender hops s') (hf : s.First v m) (ht : Tallied W s m) :
    v ∉ s.seenBy m ∧ v ∈ s'.seenBy m := by
  obtain ⟨hlt, hzero⟩ := hf
  have hdel : m ∉ s.history.deleted := by
    rw [ht.deleted]
    omega
  refine ⟨fun hin => ?_, ?_⟩
  · have hpos := (ht.count hdel v).2 hin
    omega
  · cases hu.counts with
    | everyone _ hall => omega
    | again _ hold _ _ _ _ _ => exact absurd hzero hold
    | first _ _ _ hv hid hl _ _ _ | last _ _ _ hv hid hl _ _ =>
      refine mem_seenBy.2 (.inr ⟨_, ?_, hv, hid⟩)
      rw [hl]
      exact List.mem_append_right _ (List.mem_singleton_self _)

/-! ## The tally -/

/-- The tally of every message that has been broadcast. -/
def AllTallied (W : World n k) (s : Sim n k) : Prop := ∀ m, s.Known m → Tallied W s m

theorem Idle.allTallied (h : Idle s s') (ht : AllTallied W s) : AllTallied W s' := by
  intro m hm
  unfold Known at hm
  rw [h.origin] at hm
  exact h.tallied (ht m hm)

theorem AllTallied.updates {time : Nat} {ms : List (Fin k)} {v sender : Fin n} {hops : Nat}
    (ht : AllTallied W s) (hu : Updates W time v sender hops ms s s') : AllTallied W s' := by
  induction hu with
  | nil _ => exact ht
  | cons hu _ ih =>
    refine ih fun m hm => (ht m ?_).updated hu
    unfold Known at hm ⊢
    rwa [hu.stays.history] at hm

/-- The origin counts its message once. -/
theorem originated_count (s : Sim n k) (v : Fin n) (m : Fin k) (w : Fin n) (m' : Fin k) :
    (s.originated v m).count w m' = if w = v ∧ m' = m then 1 else s.count w m' := by
  unfold count
  by_cases hw : w = v
  · subst hw
    rw [originated_node, (LightningNode.storeNew_spec _ _ m).node]
    unfold LightningNode.metaData
    show ((Function.update (s.nodes w).seen m (some ⟨1, true⟩) m').getD ⟨0, false⟩).count = _
    by_cases hm' : m' = m
    · rw [hm', Function.update_self, if_pos ⟨rfl, rfl⟩]
      rfl
    · rw [Function.update_of_ne hm', if_neg fun h => hm' h.2]
  · rw [originated_of_ne _ _ hw, if_neg fun h => hw h.1]

/-- A message is broadcast: its origin is the first to have seen it. -/
theorem AllTallied.originated (ht : AllTallied W s) (hk : KnownOnly W s) {v : Fin n} {m : Fin k}
    (hm : ¬s.Known m) {f : Gossip n → Gossip n} (hf : ∀ g, (f g).seen = g.seen)
    (hstart : (W.source.message m).seen + Source.uncounted W.source = 1)
    (hlt : (W.source.message m).seen < n) :
    AllTallied W ((s.modifyMessage m f).originated v m) := by
  generalize hs' : (s.modifyMessage m f).originated v m = s'
  have hmess : ∀ m', (s'.messages m').seen = (s.messages m').seen := by
    intro m'
    rw [← hs']
    show (Function.update s.messages m (f (s.messages m)) m').seen = _
    by_cases hm' : m' = m
    · rw [hm', Function.update_self, hf]
    · rw [Function.update_of_ne hm']
  have horigin : s'.history.origin = Function.update s.history.origin m (some v) := by rw [← hs']; rfl
  have hlog : s'.seenLogger = s.seenLogger := by rw [← hs']; rfl
  have hdel : s'.history.deleted = s.history.deleted := by rw [← hs']; rfl
  have hcount : ∀ w m', s'.count w m' = if w = v ∧ m' = m then 1 else s.count w m' := by
    intro w m'
    rw [← hs']
    exact originated_count _ v m w m'
  intro m' hm'
  by_cases hmm : m' = m
  · subst hmm
    have hinit : (s.messages m').seen = (W.source.message m').seen := by rw [hk.messages m' hm]
    have hb : s'.seenBy m' = {v} := by
      ext w
      rw [mem_seenBy, horigin, hlog, Function.update_self, Finset.mem_singleton, Option.some.injEq]
      refine ⟨?_, fun h => .inl h.symm⟩
      rintro (h | ⟨row, hrow, -, hid⟩)
      · exact h.symm
      · exact absurd (hid ▸ hk.logged row hrow) hm
    refine ⟨?_, fun _ w => ?_, ?_⟩
    · rw [hmess, hb, hinit, Finset.card_singleton]
      exact hstart
    · rw [hb, Finset.mem_singleton, hcount]
      split
      · next h => exact iff_of_true Nat.one_pos h.1
      · next h =>
        have hnone : (s.nodes w).seen m' = none := by
          cases hs : (s.nodes w).seen m' with
          | none => rfl
          | some md => exact absurd ((hk.nodes w).seen m' md hs) hm
        refine iff_of_false ?_ fun hw => h ⟨hw, rfl⟩
        unfold count LightningNode.metaData
        rw [hnone]
        exact Nat.lt_irrefl 0
    · rw [hdel, hmess, hinit]
      exact iff_of_false (fun h => hm (hk.deleted m' h)) (by omega)
  · have hold : s.Known m' := by
      unfold Known at hm' ⊢
      rwa [horigin, Function.update_of_ne hmm] at hm'
    have htm := ht m' hold
    have hb : s'.seenBy m' = s.seenBy m' := by
      unfold seenBy
      rw [hlog, horigin, Function.update_of_ne hmm]
    refine ⟨by rw [hmess, hb]; exact htm.seen, fun hnot w => ?_, by rw [hdel, hmess]; exact htm.deleted⟩
    rw [hdel] at hnot
    rw [hcount, if_neg fun h => hmm h.2, hb]
    exact htm.count hnot w

theorem AllTallied.broadcast (ht : AllTallied W s) (hk : KnownOnly W s) {l : Label n} {m : Fin k}
    (hm : ¬s.Known m) (hb : Broadcasts W s l m s') : AllTallied W s' := by
  cases hb with
  | generated hsrc hlt he =>
    refine (Idle.of_emits he).allTallied (ht.originated hk hm (fun _ => rfl) ?_ ?_)
    · rw [hsrc]
      rfl
    · rw [hsrc]
      show 1 < n
      omega
  | @replayed _ v _ hsrc _ he =>
    have hid : s.modifyMessage m (fun g => g) = s := by
      unfold modifyMessage
      rw [Function.update_eq_self]
    have ho : AllTallied W ((s.modifyMessage m fun g => g).originated v m) := by
      refine ht.originated hk hm (fun _ => rfl) ?_ ?_
      · rw [hsrc]
        rfl
      · rw [hsrc]
        exact Nat.zero_lt_of_lt v.isLt
    rw [hid] at ho
    exact (Idle.of_emits he).allTallied ho
  | skipped _ _ => exact ht

theorem AllTallied.turn {l : Label n} (ht : AllTallied W s) (hk : KnownOnly W s)
    (h : Turn W s l s') : AllTallied W s' := by
  cases h with
  | quiet _ he => exact (Idle.of_emits he).allTallied ht
  | @staggered v _ _ _ _ he => exact ((Idle.clearQueue v).trans (.of_emits he)).allTallied ht
  | @broadcast _ _ s₀ _ _ _ hd hb =>
    have h₀ := (Idle.of_dequeued hd).allTallied ht
    exact h₀.broadcast (hk.dequeued hd) (hk.not_known_of_dequeued hd) hb
  | @delivered e me s₀ _ _ _ ha hd =>
    have h₀ := (Idle.of_arrived ha).allTallied ht
    cases hd with
    | silent _ he => exact (Idle.of_emits he).allTallied h₀
    | updates hu => exact ((Idle.cleared _ _ _).allTallied h₀).updates hu
    | query _ _ _ he => exact (Idle.of_emits he).allTallied h₀
    | @invs _ success _ _ _ _ _ he =>
      have h₁ := (Idle.cleared me.receiver me.sender success).allTallied h₀
      exact ((Idle.request _ _).trans (.of_emits he)).allTallied h₁
    | sketch _ _ _ he =>
      exact ((Idle.of_modify fun _ => rfl).trans (.of_emits he)).allTallied h₀

theorem allTallied_of_initial {q : Multiset (Fin k)} (h : Initial W q s) : AllTallied W s := by
  rintro m ⟨o, ho⟩
  rw [h.history] at ho
  cases ho

theorem allTallied_run {ls : List (Label n)} (hi : init W = some s)
    (h : run (step W) s ls = some s') : AllTallied W s' := by
  have h₀ : KnownOnly W s ∧ AllTallied W s :=
    ⟨.of_initial (initial_of_init hi), allTallied_of_initial (initial_of_init hi)⟩
  refine (run_invariant (P := fun s => KnownOnly W s ∧ AllTallied W s) h h₀ ?_).2
  intro s l s' hs hstep
  have ht := step_cases hstep
  exact ⟨hs.1.turn ht, hs.2.turn hs.1 ht⟩

/-! ## The counter is the coverage exactly for generated messages -/

theorem Tallied.coverage_eq {m : Fin k} (ht : Tallied W s m) (hm : m ∉ s.history.deleted) :
    s.coverage m = (s.seenBy m).card := by
  unfold coverage
  congr 1
  ext v
  rw [Finset.mem_filter, and_iff_right (Finset.mem_univ v)]
  exact ht.count hm v

theorem card_seenBy_eq_iff {m : Fin k} : (s.seenBy m).card = n ↔ s.seenBy m = Finset.univ := by
  rw [← Finset.card_eq_iff_eq_univ, Fintype.card_fin]

theorem card_seenBy_le (s : Sim n k) (m : Fin k) : (s.seenBy m).card ≤ n := by
  have h := Finset.card_le_univ (s.seenBy m)
  rwa [Fintype.card_fin] at h

/-- In every state of a run, the counter of a message that has been broadcast is its coverage,
and the message is deleted exactly when every node has seen it, if and only if messages are
generated. -/
theorem seen_is_coverage_iff {ls : List (Label n)} {m : Fin k} (hi : init W = some s)
    (h : run (step W) s ls = some s') (hm : s'.Known m) :
    SeenIsCoverage s' m ↔ W.source.isGenerated = true := by
  have ht := allTallied_run hi h m hm
  have hle := card_seenBy_le s' m
  have hseen := ht.seen
  cases hsrc : W.source with
  | generated time =>
    rw [hsrc] at hseen
    have hcard : (s'.messages m).seen = (s'.seenBy m).card := hseen
    refine iff_of_true ⟨fun hdel => ?_, ?_, ?_⟩ rfl
    · rw [hcard, ht.coverage_eq hdel]
    · rw [ht.deleted, hcard, ← card_seenBy_eq_iff]
      omega
    · rw [hcard, card_seenBy_eq_iff]
  | replay record =>
    rw [hsrc] at hseen
    have hcard : (s'.messages m).seen + 1 = (s'.seenBy m).card := hseen
    refine iff_of_false (fun hc => ?_) (by simp [Source.isGenerated])
    have hdel : m ∉ s'.history.deleted := by
      rw [ht.deleted]
      omega
    have hcov := hc.seen hdel
    rw [ht.coverage_eq hdel] at hcov
    omega

/-! ## Two nodes -/

def batches : GossipAlgorithm := ⟨1000, 10, 0, 0, false, false, false, true⟩

/-- Two nodes with a channel that send each other batches. -/
def pair (source : Source 2 1) : World 2 1 :=
  .plain batches (by decide) source [⟨0, 1, by decide⟩] [(0, 1), (1, 0)]

/-- An update of node 0 for its channel. -/
def oneUpdate : Source 2 1 := .replay fun _ => ⟨1, .channelUpdate, 0, 0, 0, 5, false⟩

/-- Node 0 broadcasts, node 1 receives, and both tick. -/
def pairRun : List (Label 2) := [⟨2, 0, 0⟩, ⟨2, 0, 0⟩, ⟨0, 0, 0⟩, ⟨0, 0, 0⟩]

/-- At the end of a replay both nodes have seen the message, which is not deleted and counts
only one of them. -/
theorem replayed_counter_behind : ∃ s₀ s, init (pair oneUpdate) = some s₀ ∧
    Steps (step (pair oneUpdate)) IsNext s₀ pairRun s ∧ s.net.eq = [] ∧ s.Known 0 ∧
    s.seenBy 0 = Finset.univ ∧ s.coverage 0 = 2 ∧ (s.messages 0).seen = 1 ∧
    0 ∉ s.history.deleted ∧ ¬SeenIsCoverage s 0 := by
  refine ⟨_, _, rfl, steps_of_runOk rfl, rfl, ⟨0, rfl⟩, by decide, by decide, rfl, by decide, ?_⟩
  intro h
  exact absurd (h.seen (by decide)) (by decide)

/-- A generated message is deleted when the second node has it. -/
theorem seen_is_coverage_pair : ∃ s₀ s, init (pair (.generated fun _ => 1)) = some s₀ ∧
    run (step (pair (.generated fun _ => 1))) s₀ pairRun = some s ∧ SeenIsCoverage s 0 := by
  have hiff := @seen_is_coverage_iff 2 1 (pair (.generated fun _ => 1)) _ _ pairRun 0 rfl rfl ⟨0, rfl⟩
  exact ⟨_, _, rfl, rfl, hiff.2 rfl⟩

end LnConv.Lnsim.Sim
