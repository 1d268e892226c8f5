import LnConv.Lnsim.Coverage

/-!
# Downloads

A node asks for a message once, and counts on the answer being that message. Then a body arrives
in at most one answer: what a node has asked for, is being sent and has received in answers adds
up to at most one for every message it has requested, and to nothing for the others. An answer
is the responder's latest update of the channel, though, so the count holds as long as that is
still the message asked for.
-/

namespace LnConv.Lnsim.Sim

open Netsim

variable {n k : Nat} {W : World n k} {s s' : Sim n k}

/-- How often a packet under way brings the message to a node in an answer, or will when it is
answered. -/
def want (v : Fin n) (m : Fin k) (me : Packet n k) : Nat :=
  (if me.sender = v then me.m.body.asked.count m else 0) +
    if me.receiver = v then me.m.body.answered.count m else 0

/-- How often a packet received brought the message to a node in an answer. -/
def gain (v : Fin n) (m : Fin k) (me : Packet n k) : Nat :=
  if me.receiver = v then me.m.body.answered.count m else 0

/-- The requests, answers and bodies of a message for a node. -/
def wanted (s : Sim n k) (v : Fin n) (m : Fin k) : Nat :=
  (s.flight.map (want v m)).sum + (s.history.received.map (gain v m)).sum

/-- A node has at most one request, answer or body of a message, and none without a request. -/
structure OnceWanted (s : Sim n k) : Prop where
  wanted : ∀ v m, s.wanted v m ≤ if m ∈ (s.nodes v).requestedInv then 1 else 0
  offered : ∀ me ∈ s.flight, me.m.body.offered.Nodup

theorem wanted_emits {out : List (Packet n k)} (he : Emits s out s') (v : Fin n) (m : Fin k) :
    s'.wanted v m = s.wanted v m + (out.map (want v m)).sum := by
  unfold wanted
  rw [he.flight, he.history, Multiset.map_add, Multiset.sum_add, Multiset.map_coe, Multiset.sum_coe]
  exact Nat.add_right_comm _ _ _

theorem wanted_arrived {me : Packet n k} (ha : Arrived s me s') (v : Fin n) (m : Fin k) :
    s.wanted v m = s'.wanted v m + if me.sender = v then me.m.body.asked.count m else 0 := by
  unfold wanted
  rw [ha.flight, ha.history, Multiset.map_cons, Multiset.sum_cons, List.map_append, List.sum_append,
    List.map_singleton, List.sum_singleton]
  unfold want gain
  omega

/-- A message that neither asks nor answers, and offers nothing twice. -/
structure Unasked (b : Body k) : Prop where
  asked : b.asked = []
  answered : b.answered = []
  offered : b.offered.Nodup

theorem sum_want_eq_zero {out : List (Packet n k)} (hout : ∀ me ∈ out, Unasked me.m.body)
    (v : Fin n) (m : Fin k) : (out.map (want v m)).sum = 0 := by
  apply List.sum_eq_zero
  intro x hx
  obtain ⟨me, hme, rfl⟩ := List.mem_map.1 hx
  have h := hout me hme
  unfold want
  rw [h.asked, h.answered]
  simp

theorem OnceWanted.emits (h : OnceWanted s) {out : List (Packet n k)} (he : Emits s out s')
    (hout : ∀ me ∈ out, Unasked me.m.body) : OnceWanted s' where
  wanted v m := by
    rw [wanted_emits he, sum_want_eq_zero hout, he.requestedInv]
    exact h.wanted v m
  offered me hme := by
    rw [he.flight, Multiset.mem_add] at hme
    rcases hme with hme | hme
    · exact h.offered me hme
    · exact (hout me (Multiset.mem_coe.1 hme)).offered

theorem OnceWanted.arrived (h : OnceWanted s) {me : Packet n k} (ha : Arrived s me s') :
    OnceWanted s' where
  wanted v m := by
    have hw := wanted_arrived ha v m
    have hle := h.wanted v m
    rw [ha.nodes]
    omega
  offered me' hme' := by
    apply h.offered me'
    rw [ha.flight]
    exact Multiset.mem_cons_of_mem hme'

/-- A change that keeps the requests. -/
theorem OnceWanted.modify (h : OnceWanted s) {v : Fin n} {f : LightningNode n k → LightningNode n k}
    (hf : (f (s.nodes v)).requestedInv = (s.nodes v).requestedInv) : OnceWanted (s.modify v f) where
  wanted w m := by
    rw [modify_congr (g := LightningNode.requestedInv) hf]
    exact h.wanted w m
  offered := h.offered

theorem asks_not_requested {ln : LightningNode n k} {messages : Fin k → Gossip n}
    {inv : ChannelInv k} (h : ln.asks messages inv = true) : inv.msgID ∉ ln.requestedInv := by
  unfold LightningNode.asks LightningNode.shouldSendQuery at h
  intro hm
  rw [decide_eq_true hm] at h
  simp at h

theorem want_queryTo (v dst w : Fin n) (q : List (ChannelInv k)) (m : Fin k) :
    ((queryTo v dst q).map (want w m)).sum = if w = v then (q.map (·.msgID)).count m else 0 := by
  unfold queryTo
  split
  · next hnil =>
    rw [hnil]
    simp
  · simp [want, Body.asked, Body.answered, eq_comm]

theorem offered_queryTo {v dst : Fin n} {q : List (ChannelInv k)} {me : Packet n k}
    (hme : me ∈ queryTo v dst q) : me.m.body.offered = [] := by
  unfold queryTo at hme
  split at hme
  · cases hme
  · rw [List.mem_singleton.1 hme]
    rfl

/-- A query asks for what was not requested, and marks it; `rest` is what is sent with it. -/
theorem OnceWanted.query (h : OnceWanted s) {v dst : Fin n} {invs q : List (ChannelInv k)}
    (hinvs : (invs.map (·.msgID)).Nodup) (hq : q = invs.filter ((s.nodes v).asks s.messages))
    {f : LightningNode n k → LightningNode n k}
    (hf : (f (s.nodes v)).requestedInv = (s.nodes v).requestedInv ∪ (q.map (·.msgID)).toFinset)
    {rest : List (Packet n k)} (hrest : ∀ me ∈ rest, Unasked me.m.body)
    (he : Emits (s.modify v f) (queryTo v dst q ++ rest) s') : OnceWanted s' where
  wanted w m := by
    have hle := h.wanted w m
    rw [wanted_emits he, List.map_append, List.sum_append, want_queryTo, sum_want_eq_zero hrest,
      add_zero, he.requestedInv]
    change s.wanted w m + _ ≤ _
    by_cases hw : w = v
    · subst hw
      rw [modify_self, hf, if_pos rfl]
      by_cases hm : m ∈ q.map (·.msgID)
      · -- it was not requested before, so nothing of it was under way
        have hnot : m ∉ (s.nodes w).requestedInv := by
          obtain ⟨inv, hinv, rfl⟩ := List.mem_map.1 hm
          rw [hq] at hinv
          exact asks_not_requested (List.mem_filter.1 hinv).2
        have hsub : (q.map (·.msgID)).Nodup := by
          rw [hq]
          exact hinvs.sublist (List.filter_sublist.map _)
        rw [if_neg hnot] at hle
        rw [if_pos (Finset.mem_union_right _ (List.mem_toFinset.2 hm))]
        have hone := List.nodup_iff_count_le_one.1 hsub m
        omega
      · rw [List.count_eq_zero.2 hm]
        apply hle.trans
        split
        · next hr => rw [if_pos (Finset.mem_union_left _ hr)]
        · exact Nat.zero_le _
    · rw [modify_of_ne _ _ hw, if_neg hw]
      exact hle
  offered me hme := by
    rw [he.flight, Multiset.mem_add] at hme
    rcases hme with hme | hme
    · exact h.offered me hme
    · rcases List.mem_append.1 (Multiset.mem_coe.1 hme) with hme | hme
      · rw [offered_queryTo hme]
        exact List.nodup_nil
      · exact (hrest me hme).offered

/-- The message that the step delivers. -/
def delivers (s : Sim n k) (l : Label n) : Option (Packet n k) :=
  (s.net.eq[l.event]?).bind fun e => match e.data with
    | .message me => some me
    | _ => none

/-- The entries of a query. -/
def queried : Body k → List (ChannelInv k)
  | .channelQuery invs => invs
  | _ => []

/-- A query that arrives finds every message it asks for: as the latest update of its channel, if
it is an update. -/
def FindsAsked (s : Sim n k) (l : Label n) : Prop :=
  ∀ me ∈ s.delivers l, ∀ inv ∈ queried me.m.body,
    s.answerFor me.receiver inv = some inv.msgID

instance (s : Sim n k) (l : Label n) : Decidable (s.FindsAsked l) := by
  unfold FindsAsked
  infer_instance

theorem delivers_of_message {l : Label n} {e : Event n (LightningMessage k) (Ticker n k)}
    {me : Packet n k} (he : s.net.eq[l.event]? = some e) (hd : e.data = .message me) :
    s.delivers l = some me := by
  unfold delivers
  rw [he, Option.bind_some, hd]

/-- The answer brings what was asked for at most. -/
theorem OnceWanted.answer {s₀ : Sim n k} (h : OnceWanted s) {me : Packet n k}
    (ha : Arrived s me s₀) {invs : List (ChannelInv k)} {batch : List (Fin k)}
    (hb : me.m.body = .channelQuery invs) (hbatch : batch.Sublist (invs.map (·.msgID)))
    (he : Emits s₀ (answerTo me.receiver me.sender batch) s') : OnceWanted s' where
  wanted v m := by
    have hle := h.wanted v m
    have harr := wanted_arrived ha v m
    have hsum : ((answerTo me.receiver me.sender batch).map (want v m)).sum ≤
        if me.sender = v then me.m.body.asked.count m else 0 := by
      unfold answerTo
      split
      · exact Nat.zero_le _
      · rw [hb]
        simp only [List.map_singleton, List.sum_singleton, want, Body.asked, Body.answered,
          List.count_nil, ite_self, zero_add]
        split
        · exact hbatch.count_le m
        · exact Nat.le_refl 0
    rw [wanted_emits he, he.requestedInv, ha.nodes]
    omega
  offered me' hme' := by
    rw [he.flight, Multiset.mem_add] at hme'
    rcases hme' with hme' | hme'
    · exact (h.arrived ha).offered me' hme'
    · unfold answerTo at hme'
      split at hme'
      · cases hme'
      · rw [Multiset.mem_coe, List.mem_singleton] at hme'
        rw [hme']
        exact List.nodup_nil

theorem OnceWanted.updates {time : Nat} {ms : List (Fin k)} {v sender : Fin n} {hops : Nat}
    (h : OnceWanted s) (hu : Updates W time v sender hops ms s s') : OnceWanted s' := by
  induction hu with
  | nil _ => exact h
  | @cons _ _ s s₁ _ hu _ ih =>
    have hst := hu.stays
    refine ih ⟨fun w m => ?_, fun me hme => h.offered me (hst.flight ▸ hme)⟩
    have hw : s₁.wanted w m = s.wanted w m := by
      unfold Sim.wanted
      rw [hst.flight, hst.history]
    rw [hw, hst.requestedInv]
    exact h.wanted w m

theorem OnceWanted.cleared (h : OnceWanted s) (v p : Fin n) (success : Bool) :
    OnceWanted (s.cleared v p success) := by
  unfold Sim.cleared
  split
  · exact h.modify rfl
  · exact h

theorem unasked_of_silent {me : Packet n k} (h : Silent me) : Unasked me.m.body := by
  unfold Silent at h
  rcases h with h | ⟨size, h⟩
  all_goals
    rw [h]
    exact ⟨rfl, rfl, List.nodup_nil⟩

/-- What a tick forwards to a peer it forwards once. -/
theorem unasked_of_forwards {messages : Fin k → Gossip n} {ln : LightningNode n k} {v : Fin n}
    {peers : List (Fin n)} {out : List (Packet n k)} (h : Forwards W messages ln v peers out)
    {me : Packet n k} (hme : me ∈ out) : Unasked me.m.body := by
  have hin : me ∈ out.filter fun me' => me'.receiver = me.receiver :=
    List.mem_filter.2 ⟨hme, decide_eq_true rfl⟩
  have hsub : me.m.body.carried.Sublist ((List.finRange k).filter (ln.owes me.receiver)) := by
    rw [← h.carried _ (h.receiver me hme)]
    exact List.sublist_flatten_of_mem (List.mem_map_of_mem hin)
  have hnodup : me.m.body.carried.Nodup := ((List.nodup_finRange k).filter _).sublist hsub
  have hlists : ∀ {b : Body k}, Forward W messages b → b.asked = [] ∧ b.answered = [] := by
    intro b hb
    cases hb <;> exact ⟨rfl, rfl⟩
  obtain ⟨hasked, hanswered⟩ := hlists (h.forward me hme)
  exact ⟨hasked, hanswered, hnodup.of_append_right⟩

theorem OnceWanted.originated (h : OnceWanted s) (v : Fin n) (m : Fin k) :
    OnceWanted (s.originated v m) where
  wanted w m' := by
    rw [originated_congr (g := LightningNode.requestedInv) s v m fun _ _ _ => rfl]
    exact h.wanted w m'
  offered := h.offered

theorem OnceWanted.broadcast (h : OnceWanted s) {l : Label n} {m : Fin k}
    (hb : Broadcasts W s l m s') : OnceWanted s' := by
  have hgossip : ∀ {v : Fin n} {dests : List (Fin n)} {size : UInt64},
      ∀ me ∈ dests.map (fun p => (⟨⟨.gossip m, size⟩, v, p, 1⟩ : Packet n k)),
        Unasked me.m.body := by
    intro v dests size me hme
    obtain ⟨p, -, rfl⟩ := List.mem_map.1 hme
    exact ⟨rfl, rfl, List.nodup_nil⟩
  cases hb with
  | generated _ _ he =>
    have hm : ∀ f, OnceWanted (s.modifyMessage m f) := fun f => ⟨h.wanted, h.offered⟩
    exact ((hm _).originated _ m).emits he hgossip
  | replayed _ _ he => exact (h.originated _ m).emits he hgossip
  | skipped _ _ => exact h

theorem OnceWanted.turn {l : Label n} (h : OnceWanted s) (hl : FindsAsked s l)
    (ht : Turn W s l s') : OnceWanted s' := by
  cases ht with
  | quiet hout he => exact h.emits he fun me hme => unasked_of_silent (hout me hme)
  | staggered _ hf he =>
    exact (h.modify rfl).emits he fun me hme => unasked_of_forwards hf hme
  | @broadcast e m s₀ _ _ _ hd hb =>
    have h₀ : OnceWanted s₀ := by
      refine ⟨fun v m' => ?_, fun me hme => h.offered me (hd.flight ▸ hme)⟩
      have hw : s₀.wanted v m' = s.wanted v m' := by
        unfold Sim.wanted
        rw [hd.flight, hd.history]
      rw [hw, hd.nodes]
      exact h.wanted v m'
    exact h₀.broadcast hb
  | @delivered e me s₀ _ hev hdata ha hd =>
    have h₀ := h.arrived ha
    cases hd with
    | silent hout he => exact h₀.emits he fun me hme => unasked_of_silent (hout me hme)
    | updates hu => exact (h₀.cleared _ _ _).updates hu
    | @query invs batch _ hb _ hsub he =>
      have hfind := hl me (delivers_of_message hev hdata)
      rw [hb] at hfind
      refine h.answer ha hb ?_ he
      have hmap : invs.filterMap (s₀.answerFor me.receiver) = invs.map (·.msgID) := by
        rw [← List.filterMap_eq_map]
        apply List.filterMap_congr
        intro inv hinv
        have hans := hfind inv hinv
        unfold answerFor at hans ⊢
        rw [ha.nodes, hans]
        rfl
      rwa [hmap] at hsub
    | @invs invs success compared q _ hb hq he =>
      have hnodup : (invs.map (·.msgID)).Nodup := by
        have hoff := h.offered me (by rw [ha.flight]; exact Multiset.mem_cons_self me _)
        rwa [hb] at hoff
      have hc := h₀.cleared me.receiver me.sender success
      rw [← List.append_nil (queryTo _ _ _)] at he
      refine hc.query hnodup ?_ rfl (by simp) he
      rw [hq, cleared_congr (g := LightningNode.asks) rfl, cleared_messages]
    | @sketch lnSet senderSet q dataSize _ _ _ hq he =>
      have hnodup : ((((sorted (senderSet \ lnSet)).map fun m =>
          (s₀.messages m).inv m)).map (·.msgID)).Nodup := by
        rw [map_inv_msgID]
        exact nodup_sorted _
      refine h₀.query hnodup hq rfl (fun me' hme' => ?_) he
      rw [List.mem_singleton.1 hme']
      refine ⟨rfl, rfl, ?_⟩
      show (((sorted (lnSet \ senderSet)).map fun m => (s₀.messages m).inv m).map (·.msgID)).Nodup
      rw [map_inv_msgID]
      exact nodup_sorted _

theorem OnceWanted.of_initial {q : Multiset (Fin k)} (h : Initial W q s) : OnceWanted s where
  wanted v m := by
    unfold Sim.wanted
    rw [h.flight, h.history]
    exact Nat.zero_le _
  offered me hme := by
    rw [h.flight] at hme
    exact absurd hme (Multiset.notMem_zero me)

/-! ## Each message once -/

/-- How many answers brought the message to the node. -/
def downloads (s : Sim n k) (v : Fin n) (m : Fin k) : Nat :=
  s.history.received.countP fun me => me.receiver = v ∧ m ∈ me.m.body.answered

/-- No node has received a message in two answers. -/
def DownloadsOnce (s : Sim n k) : Prop := ∀ v m, s.downloads v m ≤ 1

theorem downloads_le_wanted (s : Sim n k) (v : Fin n) (m : Fin k) :
    s.downloads v m ≤ s.wanted v m := by
  have hgain : ∀ l : List (Packet n k),
      (l.countP fun me => me.receiver = v ∧ m ∈ me.m.body.answered) ≤ (l.map (gain v m)).sum := by
    intro l
    induction l with
    | nil => exact Nat.le_refl 0
    | cons me l ih =>
      rw [List.countP_cons, List.map_cons, List.sum_cons, Nat.add_comm]
      refine Nat.add_le_add ?_ ih
      split
      · next hme =>
        obtain ⟨hv, hm⟩ := of_decide_eq_true hme
        unfold gain
        rw [if_pos hv]
        exact List.count_pos_iff.2 hm
      · exact Nat.zero_le _
  exact (hgain _).trans (Nat.le_add_left _ _)

/-- In a run where every query finds the messages it asks for, no node receives a message in two
answers. -/
theorem downloads_once {ls : List (Label n)} (hi : init W = some s)
    (h : Steps (step W) FindsAsked s ls s') : s'.DownloadsOnce := by
  have hw : OnceWanted s' := h.invariant (.of_initial (initial_of_init hi))
    fun _ _ _ hs hl hstep => hs.turn hl (step_cases hstep)
  intro v m
  have hle := (s'.downloads_le_wanted v m).trans (hw.wanted v m)
  split at hle
  · exact hle
  · exact hle.trans (Nat.zero_le 1)

/-! ## Two responders -/

def inventories : GossipAlgorithm := ⟨1000, 10, 0, 0, false, false, true, false⟩

/-- Node 0 has channels with 1 and 2, and both have one with 3. -/
def diamond (time : Fin k → Nat) : World 4 k :=
  { World.plain inventories (by decide) (.generated time)
      [⟨0, 1, by decide⟩, ⟨0, 2, by decide⟩, ⟨3, 1, by decide⟩, ⟨3, 2, by decide⟩]
      [(0, 1), (0, 2), (1, 0), (1, 3), (2, 0), (2, 3), (3, 1), (3, 2)] with
    tickOffset := fun v => if v = 1 then 500 else if v = 2 then 400 else 0
    tickOffset_lt := by
      intro v
      show (if v = 1 then 500 else if v = 2 then 400 else 0) + 1 < 1000
      repeat' split
      all_goals decide }

def oneUpdateWorld : World 4 1 := diamond fun _ => 1

/-- Node 0 broadcasts its update to 1 and 2, and node 3 asks the first that offers it. -/
def oneUpdateRun : List (Label 4) := [4, 4, 4, 1, 1, 2, 2, 2, 2, 0, 0].map fun i => ⟨i, 0, 0⟩

/-- Nodes 1 and 2 offer the update, and one of them is asked. -/
theorem downloads_once_diamond : ∃ s₀ s, init oneUpdateWorld = some s₀ ∧
    Steps (step oneUpdateWorld) FindsAsked s₀ oneUpdateRun s ∧ s.downloads 3 0 = 1 ∧
    s.DownloadsOnce := by
  obtain ⟨s₀, s, hs₀, hs, hd⟩ := steps_of_any (step oneUpdateWorld) FindsAsked (init oneUpdateWorld)
    oneUpdateRun (fun s => s.downloads 3 0 == 1) (by decide +kernel)
  exact ⟨s₀, s, hs₀, hs, beq_iff_eq.1 hd, downloads_once hs₀ hs⟩

def twoUpdatesWorld : World 4 2 := diamond fun m => if m = 0 then 1 else 450

/-- Node 0 broadcasts two updates of its first channel. Node 3 asks node 1 for the first and
node 2 for the second. -/
def twoUpdatesRun : List (Label 4) :=
  [4, 5, 5, 4, 1, 3, 3, 1, 2, 3, 3, 3, 3, 3].map fun i => ⟨i, 0, 0⟩

/-- Node 1 has the second update when it is asked for the first, so node 3 receives the second in
two answers. -/
theorem two_answers_one_message : ∃ s₀ s, init twoUpdatesWorld = some s₀ ∧
    Steps (step twoUpdatesWorld) IsNext s₀ twoUpdatesRun s ∧ s.downloads 3 1 = 2 ∧
    ¬s.DownloadsOnce := by
  obtain ⟨s₀, s, hs₀, hs, hd⟩ := steps_of_any (step twoUpdatesWorld) IsNext (init twoUpdatesWorld)
    twoUpdatesRun (fun s => s.downloads 3 1 == 2) (by decide +kernel)
  have htwo := beq_iff_eq.1 hd
  exact ⟨s₀, s, hs₀, hs, htwo, fun h => absurd (h 3 1) (by omega)⟩

end LnConv.Lnsim.Sim
