import LnConv.Lnsim.Stagger

/-!
# What a delivery and a broadcast do

The cases of `handleUpdate`, the packets that queries and reconciliations send, and from these
the cases of a step.
-/

namespace LnConv.Lnsim

open Netsim

variable {n k : Nat}

namespace Body

/-- The gossip messages in a message, for whatever reason they are sent. -/
def bodies : Body k → List (Fin k)
  | .gossip m => [m]
  | .channelUpdateBatch batch _ _ => batch
  | _ => []

/-- Whether a message reports a reconciliation. -/
def success : Body k → Bool
  | .channelUpdateBatch _ success _ => success
  | .channelInvs _ success _ => success
  | _ => false

end Body

namespace LightningNode

/-- Storing a message changes the latest update of its channel at most. -/
structure Stored (messages : Fin k → Gossip n) (ln : LightningNode n k) (m : Fin k)
    (r : LightningNode n k × Option (Fin k) × Bool) : Prop where
  node : r.1 = { ln with seenByChannel := r.1.seenByChannel }
  latest : ∀ c d, r.1.latest c d = ln.latest c d ∨
    r.2.2 = true ∧ (messages m).type = .channelUpdate ∧ (messages m).channelID = c ∧
      (messages m).direction = d ∧ r.1.latest c d = some m
  newer : r.2.2 = true → (messages m).type = .channelUpdate →
    r.1.latest (messages m).channelID (messages m).direction = some m ∧
    ∀ old, ln.latest (messages m).channelID (messages m).direction = some old →
      (messages old).lastUpdate < (messages m).lastUpdate
  replaced : ∀ old, r.2.1 = some old → (messages m).type = .channelUpdate ∧
    ln.latest (messages m).channelID (messages m).direction = some old
  refused : r.2.2 = false → ∃ old,
    ln.latest (messages m).channelID (messages m).direction = some old ∧
      (messages m).lastUpdate ≤ (messages old).lastUpdate

theorem stored_of_update {messages : Fin k → Gossip n} {ln : LightningNode n k} {m : Fin k}
    {updates : Fin 2 → Option (Fin k)} {old : Option (Fin k)}
    (ht : (messages m).type = .channelUpdate)
    (hu : ∀ d, updates d = ln.latest (messages m).channelID d)
    (hold : old = ln.latest (messages m).channelID (messages m).direction)
    (hlt : ∀ o, old = some o → (messages o).lastUpdate < (messages m).lastUpdate) :
    Stored messages ln m
      (ln.setUpdates (messages m).channelID updates (messages m).direction m, old, true) where
  node := rfl
  latest c d := by
    by_cases hc : c = (messages m).channelID
    · subst hc
      rw [latest_setUpdates]
      by_cases hd : d = (messages m).direction
      · subst hd
        exact .inr ⟨rfl, ht, rfl, rfl, Function.update_self _ _ _⟩
      · rw [Function.update_of_ne hd]
        exact .inl (hu d)
    · exact .inl (latest_setUpdates_of_ne ln hc _ _ _ _)
  newer _ _ := by
    rw [latest_setUpdates]
    exact ⟨Function.update_self _ _ _, fun o ho => hlt o (hold.trans ho)⟩
  replaced o ho := ⟨ht, hold.symm.trans ho⟩
  refused h := by cases h

theorem storeNew_spec (messages : Fin k → Gossip n) (ln : LightningNode n k) (m : Fin k) :
    Stored messages ln m (ln.storeNew messages m) := by
  unfold storeNew
  split
  · next ht =>
    unfold newUpdate
    dsimp only
    split
    · next hc =>
      have hnone : ∀ d, ln.latest (messages m).channelID d = none := by
        intro d
        unfold latest
        rw [hc]
        rfl
      exact stored_of_update ht (fun d => (hnone d).symm) (hnone _).symm (by simp)
    next updates hc =>
    have hlatest : ∀ d, ln.latest (messages m).channelID d = updates d := by
      intro d
      unfold latest
      rw [hc]
      rfl
    split
    · next hd =>
      exact stored_of_update ht (fun d => (hlatest d).symm) ((hlatest _).trans hd).symm (by simp)
    next old hd =>
    have hold := (hlatest _).trans hd
    split
    · next hlt =>
      apply stored_of_update ht (fun d => (hlatest d).symm) hold.symm
      intro o ho
      cases ho
      exact hlt
    · next hle =>
      exact ⟨rfl, fun _ _ => .inl rfl, (by simp), (by simp), fun _ => ⟨old, hold, by omega⟩⟩
  · next ht =>
    exact ⟨rfl, fun _ _ => .inl rfl, fun _ ht' => absurd ht' ht, (by simp), (by simp)⟩

theorem plain_storeNew (messages : Fin k → Gossip n) (m : Fin k) :
    Plain fun ln : LightningNode n k => (ln.storeNew messages m).1 := by
  intro a b h
  obtain ⟨h₁, h₂, h₃, h₄, h₅, h₆, h₇⟩ := untimed_eq_iff.1 h
  have hs : (a.storeNew messages m).1.seenByChannel = (b.storeNew messages m).1.seenByChannel := by
    unfold storeNew newUpdate
    dsimp only
    rw [h₃]
    repeat' split
    all_goals first | exact h₃ | exact congrArg (fun f => Function.update f _ _) h₃
  show (a.storeNew messages m).1.untimed = (b.storeNew messages m).1.untimed
  rw [(storeNew_spec messages a m).node, (storeNew_spec messages b m).node, hs]
  exact untimed_eq_iff.2 ⟨h₁, h₂, rfl, h₄, h₅, h₆, h₇⟩

theorem plain_clear (peerID : Fin n) : Plain fun ln : LightningNode n k => ln.clear peerID := by
  intro a b h
  obtain ⟨h₁, h₂, h₃, h₄, h₅, h₆, h₇⟩ := untimed_eq_iff.1 h
  refine untimed_eq_iff.2 ⟨h₁, h₂, h₃, h₄, ?_, h₆, h₇⟩
  show Function.update a.reconcilSets peerID (some ∅) = Function.update b.reconcilSets peerID (some ∅)
  rw [h₅]

end LightningNode

namespace Sim

variable {W : World n k}

/-! ## Queries -/

/-- The query that asks a node for entries, none if there is nothing to ask. -/
def queryTo (v dst : Fin n) (q : List (ChannelInv k)) : List (Packet n k) :=
  if q = [] then [] else [⟨⟨.channelQuery q, .ofNat (invSize * q.length)⟩, v, dst, 1⟩]

theorem sendQuery_spec {s s' : Sim n k} {invs : List (ChannelInv k)} {time : Nat} {v dst : Fin n}
    (h : s.sendQuery W invs time v dst = some s') {q : List (ChannelInv k)}
    (hq : q = invs.filter ((s.nodes v).asks s.messages)) :
    Emits (s.modify v (·.request q)) (queryTo v dst q) s' := by
  simp only [sendQuery, ← hq] at h
  unfold queryTo
  split at h
  · next hnil =>
    cases h
    rw [if_pos hnil, hnil]
    refine ⟨fun w => ?_, rfl, rfl, (add_zero _).symm, rfl, by rw [List.append_nil]; rfl⟩
    by_cases hw : w = v
    · subst hw
      rw [modify_self]
      simp [LightningNode.request]
    · rw [modify_of_ne _ _ hw]
  · next hne =>
    rw [if_neg hne]
    exact send_emits h

/-- The answer to a node, none if there is nothing to answer. -/
def answerTo (v dst : Fin n) (batch : List (Fin k)) : List (Packet n k) :=
  if batch = [] then []
  else [⟨⟨.channelUpdateBatch batch false true, .ofNat (updateSize * batch.length)⟩, v, dst, 1⟩]

theorem answerInvs_sublist {s : Sim n k} {v sender : Fin n} {invs : List (ChannelInv k)}
    {acc batch : List (Fin k)} (h : invs.foldlM (answerInv W s v sender) acc = some batch) :
    (∀ inv ∈ invs, ∃ m, s.answerFor v inv = some m) ∧
      ∃ l, batch = acc ++ l ∧ l.Sublist (invs.filterMap (s.answerFor v)) := by
  induction invs generalizing acc with
  | nil =>
    cases h
    exact ⟨by simp, [], (List.append_nil _).symm, List.Sublist.refl _⟩
  | cons inv invs ih =>
    rw [List.foldlM_cons] at h
    obtain ⟨acc', ha, h⟩ := Option.bind_eq_some_iff.1 h
    obtain ⟨m, hm, ha⟩ := Option.bind_eq_some_iff.1 ha
    obtain ⟨hall, l, rfl, hl⟩ := ih h
    refine ⟨?_, ?_⟩
    · intro i hi
      rcases List.mem_cons.1 hi with rfl | hi
      · exact ⟨m, hm⟩
      · exact hall i hi
    · rw [List.filterMap_cons_some hm]
      split at ha
      · cases ha
        exact ⟨l, rfl, hl.cons m⟩
      · cases ha
        exact ⟨m :: l, by simp, hl.cons_cons m⟩

theorem receiveQuery_spec {s s' : Sim n k} {time : Nat} {v sender : Fin n}
    {invs : List (ChannelInv k)} (h : s.receiveQuery W time v sender invs = some s') :
    (∀ inv ∈ invs, ∃ m, s.answerFor v inv = some m) ∧
      ∃ batch, batch.Sublist (invs.filterMap (s.answerFor v)) ∧
        Emits s (answerTo v sender batch) s' := by
  unfold receiveQuery at h
  split at h
  · cases h
  obtain ⟨batch, hb, h⟩ := Option.bind_eq_some_iff.1 h
  obtain ⟨hall, _, rfl, hl⟩ := answerInvs_sublist hb
  refine ⟨hall, _, hl, ?_⟩
  unfold answerTo
  split at h
  · next hnil =>
    cases h
    rw [if_pos hnil]
    exact Emits.refl _
  · next hne =>
    rw [if_neg hne]
    exact send_emits h

/-! ## Reconciliation -/

theorem handleReconcilRequest_spec {s s' : Sim n k} {time : Nat} {v sender : Fin n} {setSize : Nat}
    (h : s.handleReconcilRequest W time v sender setSize = some s') :
    ∃ dataSize, Emits s [⟨⟨.reconcilSketch, dataSize⟩, v, sender, 1⟩] s' := by
  obtain ⟨set, -, h⟩ := Option.bind_eq_some_iff.1 h
  exact ⟨_, send_emits h⟩

theorem handleSketch_spec {s s' : Sim n k} {time : Nat} {v sender : Fin n}
    (h : s.handleSketch W time v sender = some s') :
    ∃ lnSet senderSet q, (s.nodes v).reconcilSets sender = some lnSet ∧
      (s.nodes sender).reconcilSets v = some senderSet ∧
      q = ((sorted (senderSet \ lnSet)).map fun m => (s.messages m).inv m).filter
        ((s.nodes v).asks s.messages) ∧
      ∃ dataSize, Emits (s.modify v fun ln => (ln.request q).clear sender)
        (queryTo v sender q ++ [⟨⟨.channelInvs ((sorted (lnSet \ senderSet)).map fun m =>
          (s.messages m).inv m) true senderSet, dataSize⟩, v, sender, 1⟩]) s' := by
  obtain ⟨lnSet, hln, h⟩ := Option.bind_eq_some_iff.1 h
  obtain ⟨senderSet, hsender, h⟩ := Option.bind_eq_some_iff.1 h
  obtain ⟨s₁, hs₁, h⟩ := Option.bind_eq_some_iff.1 h
  obtain ⟨s₂, hs₂, h⟩ := Option.bind_eq_some_iff.1 h
  cases h
  have h₁ := sendQuery_spec hs₁ rfl
  rw [show s₁.messages = s.messages from h₁.messages] at hs₂
  have h₂ := (h₁.trans (send_emits hs₂)).modify (LightningNode.plain_clear sender) v
  rw [modify_modify] at h₂
  exact ⟨lnSet, senderSet, _, hln, hsender, rfl, _, h₂⟩

/-! ## Gossip messages received -/

/-- The state when the node has counted the message. -/
def counted (s : Sim n k) (m : Fin k) (v : Fin n) : Sim n k := s.modify v (·.countSeen m)

/-- The state when the node has logged the message as new. -/
def noted (s : Sim n k) (time : Nat) (m : Fin k) (v : Fin n) (hops : Nat) : Sim n k :=
  (s.counted m v).firstSeen time m v hops

@[simp] theorem noted_node (s : Sim n k) (time : Nat) (m : Fin k) (v : Fin n) (hops : Nat) :
    (s.noted time m v hops).nodes v = (s.nodes v).countSeen m := by
  show (s.modify v (·.countSeen m)).nodes v = _
  rw [modify_self]

theorem noted_of_ne (s : Sim n k) (time : Nat) (m : Fin k) {v w : Fin n} (hops : Nat) (h : w ≠ v) :
    (s.noted time m v hops).nodes w = s.nodes w := by
  show (s.modify v (·.countSeen m)).nodes w = _
  rw [modify_of_ne _ _ h]

theorem noted_seen (s : Sim n k) (time : Nat) (m : Fin k) (v : Fin n) (hops : Nat) :
    ((s.noted time m v hops).messages m).seen = (s.messages m).seen + 1 := by
  unfold noted firstSeen
  dsimp only
  rw [Function.update_self]
  rfl

/-- What storing the new message gives. -/
def stored (s : Sim n k) (time : Nat) (m : Fin k) (v : Fin n) (hops : Nat) :
    LightningNode n k × Option (Fin k) × Bool :=
  ((s.noted time m v hops).nodes v).storeNew (s.noted time m v hops).messages m

/-- The cases of `HandleUpdate`. -/
inductive Updated (W : World n k) (s : Sim n k) (time : Nat) (m : Fin k) (v sender : Fin n)
    (hops : Nat) : Sim n k → Prop where
  /-- Everyone has seen the message. -/
  | everyone : n ≤ (s.messages m).seen → Updated W s time m v sender hops s
  /-- The node has seen it, and queues it. -/
  | again : (s.messages m).seen < n → ((s.nodes v).metaData m).count ≠ 0 →
      W.algo.reconcilTimer = 0 →
      Updated W s time m v sender hops ((s.counted m v).modify v (·.noteSender m sender hops))
  /-- The node has seen it, with reconciliation. -/
  | repeated : (s.messages m).seen < n → ((s.nodes v).metaData m).count ≠ 0 →
      0 < W.algo.reconcilTimer → Updated W s time m v sender hops (s.counted m v)
  /-- The node is the last to see it. -/
  | last : (s.messages m).seen < n → ((s.nodes v).metaData m).count = 0 →
      n ≤ (s.messages m).seen + 1 →
      Updated W s time m v sender hops ((s.noted time m v hops).deleteMessage m)
  /-- The node knows a newer update. -/
  | stale {s'} : (s.messages m).seen + 1 < n → ((s.nodes v).metaData m).count = 0 →
      (s.stored time m v hops).2.2 = false →
      s' = (s.noted time m v hops).modify v (fun _ => (s.stored time m v hops).1) →
      Updated W s time m v sender hops s'
  /-- The message is queued for the next tick. -/
  | queued {s'} : (s.messages m).seen + 1 < n → ((s.nodes v).metaData m).count = 0 →
      (s.stored time m v hops).2.2 = true → W.algo.reconcilTimer = 0 →
      Emits ((s.noted time m v hops).modify v fun _ =>
        (s.stored time m v hops).1.enqueue m ⟨{sender}, hops, time⟩) [] s' →
      Updated W s time m v sender hops s'
  /-- The message joins the sets for the other peers. -/
  | reconciled {s'} : (s.messages m).seen + 1 < n → ((s.nodes v).metaData m).count = 0 →
      (s.stored time m v hops).2.2 = true → 0 < W.algo.reconcilTimer →
      Emits ((s.noted time m v hops).modify v fun _ => (s.stored time m v hops).1.addMessageToReconcilSets
        (s.stored time m v hops).2.1 m sender) [] s' →
      Updated W s time m v sender hops s'

theorem handleUpdate_cases {s s' : Sim n k} {time : Nat} {m : Fin k} {v sender : Fin n} {hops : Nat}
    (h : s.handleUpdate W time m v sender hops = some s') :
    Updated W s time m v sender hops s' := by
  simp only [handleUpdate] at h
  split at h
  · next hall =>
    cases h
    exact .everyone hall
  next hall =>
  have hlt : (s.messages m).seen < n := by omega
  split at h
  · next hagain =>
    obtain ⟨hold, hmode⟩ : (s.nodes v).isNewMessage m = false ∧ W.algo.reconcilTimer = 0 := by
      simpa using hagain
    cases h
    refine .again hlt (fun h0 => ?_) hmode
    rw [(s.nodes v).isNewMessage_iff.2 h0] at hold
    cases hold
  next hagain =>
  split at h
  · next hold =>
    have hold : (s.nodes v).isNewMessage m = false := by simpa using hold
    have hmode : W.algo.reconcilTimer ≠ 0 := by simpa [hold] using hagain
    cases h
    refine .repeated hlt (fun h0 => ?_) (by omega)
    rw [(s.nodes v).isNewMessage_iff.2 h0] at hold
    cases hold
  next hnew =>
  have hnew : ((s.nodes v).metaData m).count = 0 :=
    (s.nodes v).isNewMessage_iff.1 (by simpa using hnew)
  have hseen := s.noted_seen time m v hops
  change (if n ≤ ((s.noted time m v hops).messages m).seen then
    some ((s.noted time m v hops).deleteMessage m)
    else if !(s.stored time m v hops).2.2 then
      some ((s.noted time m v hops).modify v fun _ => (s.stored time m v hops).1)
    else if 0 < W.algo.reconcilTimer then
      (((s.noted time m v hops).modify v fun _ => (s.stored time m v hops).1).modify v
        (·.addMessageToReconcilSets (s.stored time m v hops).2.1 m sender)).scheduleReconcilTicks
        W v time
    else
      (((s.noted time m v hops).modify v fun _ => (s.stored time m v hops).1).modify v
        (·.enqueue m ⟨{sender}, hops, time⟩)).scheduleStaggerTick W v time) = some s' at h
  split at h
  · next hlast =>
    cases h
    exact .last hlt hnew (by omega)
  next hlast =>
  have hlt' : (s.messages m).seen + 1 < n := by omega
  split at h
  · next hstale =>
    cases h
    exact .stale hlt' hnew (by simpa using hstale) rfl
  next hstale =>
  have hok : (s.stored time m v hops).2.2 = true := by simpa using hstale
  rw [modify_modify, modify_modify] at h
  split at h
  · next hmode => exact .reconciled hlt' hnew hok hmode (scheduleReconcilTicks_emits h)
  · next hmode => exact .queued hlt' hnew hok (by omega) (scheduleStaggerTick_emits h)

/-! ## Broadcasts -/

/-- The state when the node has broadcast the message. -/
def originated (s : Sim n k) (v : Fin n) (m : Fin k) : Sim n k :=
  { s.modify v fun ln => ((ln.markSeen m).storeNew s.messages m).1 with
    history := { s.history with origin := Function.update s.history.origin m (some v) } }

theorem originated_node (s : Sim n k) (v : Fin n) (m : Fin k) :
    (s.originated v m).nodes v = (((s.nodes v).markSeen m).storeNew s.messages m).1 := by
  show (s.modify v fun ln => ((ln.markSeen m).storeNew s.messages m).1).nodes v = _
  rw [modify_self]

theorem originated_of_ne (s : Sim n k) {v w : Fin n} (m : Fin k) (h : w ≠ v) :
    (s.originated v m).nodes w = s.nodes w := by
  show (s.modify v fun ln => ((ln.markSeen m).storeNew s.messages m).1).nodes w = _
  rw [modify_of_ne _ _ h]

/-- The origin notes the message in `seen` and among the latest updates only. -/
theorem originated_congr {α : Type} {g : LightningNode n k → α} (s : Sim n k) (v : Fin n) (m : Fin k)
    (hg : ∀ ln seen seenByChannel,
      g { ln with seen := seen, seenByChannel := seenByChannel } = g ln) (w : Fin n) :
    g ((s.originated v m).nodes w) = g (s.nodes w) := by
  by_cases hw : w = v
  · subst hw
    rw [originated_node, (LightningNode.storeNew_spec _ _ m).node]
    exact hg (s.nodes w) _ _
  · rw [originated_of_ne _ _ hw]

theorem broadcastTo_spec {s s' : Sim n k} {v : Fin n} {m : Fin k} {dests : Finset (Fin n)}
    (h : s.broadcastTo W v m dests = some s') :
    Emits (s.originated v m) ((sorted dests).map fun p =>
      ⟨⟨.gossip m, (s.messages m).dataSize⟩, v, p, 1⟩) s' := by
  obtain ⟨s₁, hs₁, h⟩ := Option.bind_eq_some_iff.1 h
  have h₁ := Emits.foldlM (fun s₂ p s₃ _ => send_emits) hs₁
  rw [← List.map_eq_flatMap] at h₁
  have hplain : LightningNode.Plain fun ln : LightningNode n k => ln.markSeen m := by
    intro a b hab
    obtain ⟨e₁, e₂, e₃, e₄, e₅, e₆, e₇⟩ := LightningNode.untimed_eq_iff.1 hab
    refine LightningNode.untimed_eq_iff.2 ⟨e₁, ?_, e₃, e₄, e₅, e₆, e₇⟩
    show Function.update a.seen m _ = Function.update b.seen m _
    rw [e₂]
  have h₂ := (h₁.modify hplain v).modify (LightningNode.plain_storeNew s₁.messages m) v
  have hs : s.originated v m =
      { (s.modify v (·.markSeen m)).modify v fun ln => (ln.storeNew s₁.messages m).1 with
        history := { s.history with origin := Function.update s.history.origin m (some v) } } := by
    rw [modify_modify, h₁.messages]
    rfl
  cases h
  rw [hs]
  refine ⟨h₂.nodes, h₂.messages, h₂.seenLogger, h₂.flight, h₂.queued, ?_⟩
  show ({ s₁.history with origin := Function.update s₁.history.origin m (some v) } : History n k) = _
  rw [h₁.history]

/-- A broadcast becomes known, or it is not made at all. -/
inductive Broadcasts (W : World n k) (s : Sim n k) (l : Label n) (m : Fin k) : Sim n k → Prop where
  | generated {time channelID direction s'} : W.source = .generated time → l.node.val + 1 < n →
      Emits ((s.modifyMessage m fun g =>
          { g with channelID := channelID, type := .channelUpdate, lastUpdate := g.broadcastTime,
                   origin := some l.node, direction := direction }).originated l.node m)
        ((sorted (W.peers l.node)).map fun p =>
          ⟨⟨.gossip m, (s.messages m).dataSize⟩, l.node, p, 1⟩) s' →
      Broadcasts W s l m s'
  | replayed {record v s'} : W.source = .replay record → (s.messages m).origin = some v →
      Emits (s.originated v m)
        ((sorted (if W.algo.spanningTree then (s.nodes v).gossipPeers else W.peers v)).map fun p =>
          ⟨⟨.gossip m, (s.messages m).dataSize⟩, v, p, 1⟩) s' →
      Broadcasts W s l m s'
  | skipped {record} : W.source = .replay record → (s.messages m).isKeepalive = true →
      Broadcasts W s l m s

/-- Whichever way, the message gets an origin, which sends it on. -/
theorem Broadcasts.originates {s s' : Sim n k} {l : Label n} {m : Fin k}
    (h : Broadcasts W s l m s') : s' = s ∨ ∃ (v : Fin n) (f : Gossip n → Gossip n)
      (dests : List (Fin n)) (size : UInt64), Emits ((s.modifyMessage m f).originated v m)
        (dests.map fun p => ⟨⟨.gossip m, size⟩, v, p, 1⟩) s' := by
  cases h with
  | generated _ _ he => exact .inr ⟨_, _, _, _, he⟩
  | @replayed _ v _ _ _ he =>
    have hid : s.modifyMessage m (fun g => g) = s := by
      unfold modifyMessage
      rw [Function.update_eq_self]
    rw [← hid] at he
    exact .inr ⟨v, _, _, _, he⟩
  | skipped _ _ => exact .inl rfl

theorem fireBroadcast_cases {s s' : Sim n k} {l : Label n} {m : Fin k}
    (h : s.fireBroadcast W l m = some s') : Broadcasts W s l m s' := by
  unfold fireBroadcast at h
  split at h
  · next time hsrc =>
    split at h
    · next hlt =>
      obtain ⟨c, -, h⟩ := Option.bind_eq_some_iff.1 h
      have h' := broadcastTo_spec h
      have hsize : ∀ f : Gossip n → Gossip n, (f (s.messages m)).dataSize = (s.messages m).dataSize →
          ((s.modifyMessage m f).messages m).dataSize = (s.messages m).dataSize := by
        intro f hf
        unfold modifyMessage
        dsimp only
        rw [Function.update_self, hf]
      rw [hsize _ rfl] at h'
      exact .generated hsrc hlt h'
    · cases h
  · next record hsrc =>
    obtain ⟨v, hv, h⟩ := Option.bind_eq_some_iff.1 h
    unfold broadcastMessage at h
    split at h
    · next hskip =>
      cases h
      exact .skipped hsrc (by simpa using (Bool.and_eq_true _ _ ▸ hskip).2)
    · exact .replayed hsrc hv (broadcastTo_spec h)

/-! ## Steps -/

/-- A message has left the queue and been received. -/
structure Arrived (s : Sim n k) (me : Packet n k) (s₀ : Sim n k) : Prop where
  nodes : s₀.nodes = s.nodes
  messages : s₀.messages = s.messages
  seenLogger : s₀.seenLogger = s.seenLogger
  flight : s.flight = me ::ₘ s₀.flight
  queued : s₀.queued = s.queued
  history : s₀.history = { s.history with received := s.history.received ++ [me] }

/-- The broadcast of a message has left the queue. -/
structure Dequeued (s : Sim n k) (m : Fin k) (s₀ : Sim n k) : Prop where
  nodes : s₀.nodes = s.nodes
  messages : s₀.messages = s.messages
  seenLogger : s₀.seenLogger = s.seenLogger
  flight : s₀.flight = s.flight
  queued : s.queued = m ::ₘ s₀.queued
  history : s₀.history = s.history

/-- Gossip messages handled one after the other. -/
inductive Updates (W : World n k) (time : Nat) (v sender : Fin n) (hops : Nat) :
    List (Fin k) → Sim n k → Sim n k → Prop where
  | nil (s) : Updates W time v sender hops [] s s
  | cons {m ms s s₁ s'} : Updated W s time m v sender hops s₁ →
      Updates W time v sender hops ms s₁ s' → Updates W time v sender hops (m :: ms) s s'

theorem updates_of_foldlM {time : Nat} {v sender : Fin n} {hops : Nat} {ms : List (Fin k)}
    {s s' : Sim n k}
    (h : ms.foldlM (fun s m => s.handleUpdate W time m v sender hops) s = some s') :
    Updates W time v sender hops ms s s' := by
  induction ms generalizing s with
  | nil =>
    cases h
    exact .nil _
  | cons m ms ih =>
    rw [List.foldlM_cons] at h
    obtain ⟨s₁, hm, h⟩ := Option.bind_eq_some_iff.1 h
    exact .cons (handleUpdate_cases hm) (ih h)

/-- The set for a peer is emptied if a message reports success. -/
def cleared (s : Sim n k) (v peerID : Fin n) (success : Bool) : Sim n k :=
  if success then s.modify v (·.clear peerID) else s

theorem cleared_congr {α : Type} {g : LightningNode n k → α} {s : Sim n k} {v peerID : Fin n}
    (hg : g ((s.nodes v).clear peerID) = g (s.nodes v)) (success : Bool) (w : Fin n) :
    g ((s.cleared v peerID success).nodes w) = g (s.nodes w) := by
  unfold cleared
  split
  · exact modify_congr hg w
  · rfl

@[simp] theorem cleared_messages (s : Sim n k) (v peerID : Fin n) (success : Bool) :
    (s.cleared v peerID success).messages = s.messages := by
  unfold cleared
  split <;> rfl

@[simp] theorem cleared_history (s : Sim n k) (v peerID : Fin n) (success : Bool) :
    (s.cleared v peerID success).history = s.history := by
  unfold cleared
  split <;> rfl

theorem clearOnSuccess_spec {s s' : Sim n k} {v peerID : Fin n} {success : Bool}
    (h : s.clearOnSuccess v peerID success = some s') : s' = s.cleared v peerID success ∧
      (success = true → ∃ set, (s.nodes v).reconcilSets peerID = some set) := by
  unfold clearOnSuccess at h
  unfold cleared
  split at h
  · next hs =>
    obtain ⟨set, hset, h⟩ := Option.bind_eq_some_iff.1 h
    cases h
    exact ⟨by rw [if_pos hs], fun _ => ⟨set, hset⟩⟩
  · next hs =>
    cases h
    exact ⟨by rw [if_neg hs], fun hs' => absurd hs' hs⟩

/-- A message of reconciliation that mentions no gossip message. -/
def Silent (me : Packet n k) : Prop :=
  me.m.body = .reconcilSketch ∨ ∃ size, me.m.body = .reconcilRequest size

/-- The cases of `Receive`. -/
inductive Delivered (W : World n k) (time : Nat) (s : Sim n k) (me : Packet n k) :
    Sim n k → Prop where
  | silent {out s'} : (∀ me' ∈ out, Silent me') → Emits s out s' → Delivered W time s me s'
  | updates {hops s'} : Updates W time me.receiver me.sender hops me.m.body.bodies
      (s.cleared me.receiver me.sender me.m.body.success) s' → Delivered W time s me s'
  | query {invs batch s'} : me.m.body = .channelQuery invs →
      (∀ inv ∈ invs, ∃ m, s.answerFor me.receiver inv = some m) →
      batch.Sublist (invs.filterMap (s.answerFor me.receiver)) →
      Emits s (answerTo me.receiver me.sender batch) s' → Delivered W time s me s'
  | invs {invs success compared q s'} : me.m.body = .channelInvs invs success compared →
      q = invs.filter ((s.nodes me.receiver).asks s.messages) →
      Emits ((s.cleared me.receiver me.sender success).modify me.receiver (·.request q))
        (queryTo me.receiver me.sender q) s' → Delivered W time s me s'
  | sketch {lnSet senderSet q dataSize s'} : (s.nodes me.receiver).reconcilSets me.sender = some lnSet →
      (s.nodes me.sender).reconcilSets me.receiver = some senderSet →
      q = ((sorted (senderSet \ lnSet)).map fun m => (s.messages m).inv m).filter
        ((s.nodes me.receiver).asks s.messages) →
      Emits (s.modify me.receiver fun ln => (ln.request q).clear me.sender)
        (queryTo me.receiver me.sender q ++ [⟨⟨.channelInvs ((sorted (lnSet \ senderSet)).map fun m =>
          (s.messages m).inv m) true senderSet, dataSize⟩, me.receiver, me.sender, 1⟩]) s' →
      Delivered W time s me s'

theorem receive_cases {s s' : Sim n k} {time : Nat} {me : Packet n k}
    (h : s.receive W time me = some s') : Delivered W time s me s' := by
  unfold receive at h
  dsimp only at h
  split at h
  · next m hb =>
    apply @Delivered.updates n k W time s me me.hops s'
    rw [hb]
    exact .cons (handleUpdate_cases h) (.nil _)
  · next invs hb =>
    obtain ⟨hall, batch, hsub, he⟩ := receiveQuery_spec h
    exact .query hb hall hsub he
  · next batch success answer hb =>
    obtain ⟨s₁, hs₁, h⟩ := Option.bind_eq_some_iff.1 h
    apply @Delivered.updates n k W time s me 0 s'
    rw [hb]
    rw [(clearOnSuccess_spec hs₁).1] at h
    exact updates_of_foldlM h
  · next invs success compared hb =>
    obtain ⟨s₁, hs₁, h⟩ := Option.bind_eq_some_iff.1 h
    rw [(clearOnSuccess_spec hs₁).1] at h
    refine .invs hb rfl (sendQuery_spec h ?_)
    rw [cleared_congr (g := LightningNode.asks) rfl, cleared_messages]
  · next hb =>
    obtain ⟨lnSet, senderSet, q, hln, hsender, hq, dataSize, he⟩ := handleSketch_spec h
    exact .sketch hln hsender hq he
  · next setSize hb =>
    obtain ⟨dataSize, he⟩ := handleReconcilRequest_spec h
    refine .silent (fun me' hme' => ?_) he
    rw [List.mem_singleton.1 hme']
    exact .inl rfl

/-- The cases of a step. -/
inductive Turn (W : World n k) (s : Sim n k) (l : Label n) : Sim n k → Prop where
  | quiet {out s'} : (∀ me ∈ out, Silent me) → Emits s out s' → Turn W s l s'
  | staggered {v out s'} : W.algo.reconcilTimer = 0 →
      Forwards W s.messages (s.nodes v) v (sorted (s.nodes v).gossipPeers) out →
      Emits (s.modify v LightningNode.clearQueue) out s' → Turn W s l s'
  | broadcast {e m s₀ s'} : s.net.eq[l.event]? = some e → e.data = .other (.broadcast m) →
      Dequeued s m s₀ → Broadcasts W s₀ l m s' → Turn W s l s'
  | delivered {e me s₀ s'} : s.net.eq[l.event]? = some e → e.data = .message me →
      Arrived s me s₀ → Delivered W e.time s₀ me s' → Turn W s l s'

theorem flight_pop {s : Sim n k} {i : Nat} {e : Event n (LightningMessage k) (Ticker n k)}
    (he : s.net.eq[i]? = some e) :
    s.flight = (e.data.hop.toList : Multiset (Packet n k)) + (s.pop i e).flight := by
  obtain ⟨hi, rfl⟩ := List.getElem?_eq_some_iff.1 he
  have hp := (List.getElem_cons_eraseIdx_perm hi).filterMap fun e => e.data.hop
  have hm := Multiset.coe_eq_coe.2 hp.symm
  apply hm.trans
  rw [List.filterMap_cons]
  cases hh : (s.net.eq[i]).data.hop <;> rfl

theorem queued_pop {s : Sim n k} {i : Nat} {e : Event n (LightningMessage k) (Ticker n k)}
    (he : s.net.eq[i]? = some e) :
    s.queued = ((broadcastOf e).toList : Multiset (Fin k)) + (s.pop i e).queued := by
  obtain ⟨hi, rfl⟩ := List.getElem?_eq_some_iff.1 he
  have hp := (List.getElem_cons_eraseIdx_perm hi).filterMap broadcastOf
  have hm := Multiset.coe_eq_coe.2 hp.symm
  apply hm.trans
  rw [List.filterMap_cons]
  cases hh : broadcastOf (s.net.eq[i]) <;> rfl

/-- An event that carries no message and no broadcast. -/
theorem emits_pop {s : Sim n k} {i : Nat} {e : Event n (LightningMessage k) (Ticker n k)}
    (he : s.net.eq[i]? = some e) (hhop : e.data.hop = none) (hb : broadcastOf e = none) :
    Emits s [] (s.pop i e) where
  nodes _ := rfl
  messages := rfl
  seenLogger := rfl
  flight := by
    rw [flight_pop he, hhop]
    exact (zero_add _).symm.trans (add_zero _).symm
  queued := by
    rw [queued_pop he, hb]
    exact (zero_add _).symm
  history := by rw [List.append_nil]; rfl

theorem broadcastOf_eq_none {e : Event n (LightningMessage k) (Ticker n k)}
    (h : ∀ m, e.data ≠ .other (.broadcast m)) : broadcastOf e = none := by
  unfold broadcastOf
  split
  · next m hd => exact absurd hd (h m)
  · rfl

theorem emits_resend {s : Sim n k} {i : Nat} {e : Event n (LightningMessage k) (Ticker n k)}
    {me : Packet n k} {t : Nat} {net : Network n (LightningMessage k) (Ticker n k)}
    (he : s.net.eq[i]? = some e) (hd : e.data = .messageSendAt me)
    (hq : net.eq = (s.pop i e).net.eq ++ [⟨t, .message me⟩]) :
    Emits s [] { s.pop i e with net := net } := by
  have hf : ({ s.pop i e with net := net } : Sim n k).flight = (s.pop i e).flight + _ :=
    flight_append hq
  have hb : ({ s.pop i e with net := net } : Sim n k).queued = (s.pop i e).queued + _ :=
    queued_append hq
  refine ⟨fun _ => rfl, rfl, rfl, ?_, ?_, by rw [List.append_nil]; rfl⟩
  · rw [hf, flight_pop he, hd, add_comm]
    exact (add_zero _).symm
  · have hnone : broadcastOf e = none := broadcastOf_eq_none (by rw [hd]; simp)
    rw [hb, queued_pop he, hnone]
    exact (add_zero _).trans (zero_add _).symm

theorem step_cases {s s' : Sim n k} {l : Label n} (h : s.step W l = some s') : Turn W s l s' := by
  obtain ⟨e, he, h⟩ := Option.bind_eq_some_iff.1 h
  simp only at h
  split at h
  · next me hd =>
    obtain ⟨net, hnet, h⟩ := Option.bind_eq_some_iff.1 h
    cases h
    exact .quiet (by simp) (emits_resend he hd (Network.push_eq hnet).2.1)
  · next me hd =>
    have ha : Arrived s me ((s.pop l.event e).arrive me) := by
      refine ⟨rfl, rfl, rfl, ?_, ?_, rfl⟩
      · rw [flight_pop he, hd]
        rfl
      · rw [queued_pop he, broadcastOf_eq_none (by rw [hd]; simp)]
        exact (zero_add _).symm
    exact .delivered he hd ha (receive_cases h)
  · next v interval hd =>
    have hp := emits_pop he (by rw [hd]; rfl) (broadcastOf_eq_none (by rw [hd]; simp))
    obtain ⟨hmode, out, hout, hf⟩ := staggerTick_spec h
    exact .staggered hmode hf ((hp.modify LightningNode.plain_clearQueue v).trans hout)
  · next v peerID hd =>
    have hp := emits_pop he (by rw [hd]; rfl) (broadcastOf_eq_none (by rw [hd]; simp))
    obtain ⟨size, hout⟩ := reconcileTick_emits h
    refine .quiet (fun me hme => ?_) (hp.trans hout)
    rw [List.mem_singleton.1 hme]
    exact .inr ⟨size, rfl⟩
  · next m hd =>
    have hdeq : Dequeued s m (s.pop l.event e) := by
      refine ⟨rfl, rfl, rfl, ?_, ?_, rfl⟩
      · rw [flight_pop he, hd]
        exact (zero_add _).symm
      · have hb : broadcastOf e = some m := by
          unfold broadcastOf
          rw [hd]
        rw [queued_pop he, hb]
        rfl
    exact .broadcast he hd hdeq (fireBroadcast_cases h)
  · next pe hd =>
    cases h
    exact .quiet (by simp) (emits_pop he (by rw [hd]; rfl) (broadcastOf_eq_none (by rw [hd]; simp)))

end Sim

end LnConv.Lnsim
