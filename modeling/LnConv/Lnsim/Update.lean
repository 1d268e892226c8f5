import LnConv.Lnsim.Receive

/-!
# What a gossip message changes

The fields of the state after `HandleUpdate`, one lemma a field, over all its cases.
-/

namespace LnConv.Lnsim

open Netsim

variable {n k : Nat}

namespace LightningNode

@[simp] theorem countSeen_self (ln : LightningNode n k) (m : Fin k) :
    ((ln.countSeen m).metaData m).count = (ln.metaData m).count + 1 := by
  unfold countSeen metaData
  dsimp only
  rw [Function.update_self]
  rfl

theorem countSeen_of_ne (ln : LightningNode n k) {m m' : Fin k} (h : m' ≠ m) :
    (ln.countSeen m).seen m' = ln.seen m' := Function.update_of_ne h _ _

@[simp] theorem noteSender_seen (ln : LightningNode n k) (m : Fin k) (sender : Fin n) (hops : Nat) :
    (ln.noteSender m sender hops).seen = ln.seen := by
  unfold noteSender
  split <;> rfl

/-- Everything but the queue and the metadata. -/
theorem noteSender_eq (ln : LightningNode n k) (m : Fin k) (sender : Fin n) (hops : Nat) :
    ln.noteSender m sender hops = { ln with bq := (ln.noteSender m sender hops).bq } := by
  unfold noteSender
  split <;> rfl

theorem noteSender_bq {ln : LightningNode n k} {m m' : Fin k} {sender : Fin n} {hops : Nat}
    {ms' : MessageWithSenders n} (h : (ln.noteSender m sender hops).bq m' = some ms') :
    ∃ ms, ln.bq m' = some ms ∧ ms.senders ⊆ ms'.senders := by
  unfold noteSender at h
  split at h
  · exact ⟨ms', h, Finset.Subset.refl _⟩
  · next ms hms =>
    dsimp only at h
    by_cases hm : m' = m
    · subst hm
      rw [Function.update_self] at h
      cases h
      exact ⟨ms, hms, Finset.subset_insert _ _⟩
    · rw [Function.update_of_ne hm] at h
      exact ⟨ms', h, Finset.Subset.refl _⟩

end LightningNode

namespace Sim

/-- How often a node has counted a message. -/
def count (s : Sim n k) (v : Fin n) (m : Fin k) : Nat := ((s.nodes v).metaData m).count

/-- The node handles the message for the first time. -/
def First (s : Sim n k) (v : Fin n) (m : Fin k) : Prop :=
  (s.messages m).seen < n ∧ s.count v m = 0

variable {W : World n k} {s s' : Sim n k} {time : Nat} {m : Fin k} {v sender : Fin n} {hops : Nat}

/-- The node of `stored`. -/
theorem stored_node : (s.stored time m v hops).1 = { (s.nodes v).countSeen m with
    seenByChannel := (s.stored time m v hops).1.seenByChannel } := by
  have h := (LightningNode.storeNew_spec (s.noted time m v hops).messages
    ((s.noted time m v hops).nodes v) m).node
  unfold stored
  rw [noted_node] at h ⊢
  exact h

/-! ## Fields that stay -/

/-- What handling a gossip message leaves alone. -/
structure Stays (s s' : Sim n k) (m : Fin k) : Prop where
  flight : s'.flight = s.flight
  queued : s'.queued = s.queued
  history : s'.history = { s.history with deleted := s'.history.deleted }
  gossipPeers : ∀ w, (s'.nodes w).gossipPeers = (s.nodes w).gossipPeers
  requestedInv : ∀ w, (s'.nodes w).requestedInv = (s.nodes w).requestedInv
  messages : ∀ m', s'.messages m' = { s.messages m' with seen := (s'.messages m').seen }
  others : ∀ m', m' ≠ m → s'.messages m' = s.messages m'

theorem stays_noted : Stays s (s.noted time m v hops) m where
  flight := rfl
  queued := rfl
  history := rfl
  gossipPeers w := by
    by_cases hw : w = v
    · subst hw
      rw [noted_node]
      rfl
    · rw [noted_of_ne _ _ _ _ hw]
  requestedInv w := by
    by_cases hw : w = v
    · subst hw
      rw [noted_node]
      rfl
    · rw [noted_of_ne _ _ _ _ hw]
  messages m' := by
    by_cases hm : m' = m
    · subst hm
      unfold noted firstSeen
      dsimp only
      rw [Function.update_self]
      rfl
    · unfold noted firstSeen
      dsimp only
      rw [Function.update_of_ne hm]
      rfl
  others m' hm := Function.update_of_ne hm _ _

/-- A change of the node that keeps its peers and its requests. -/
theorem Stays.modify (h : Stays s s' m) {f : LightningNode n k → LightningNode n k}
    (hp : (f (s'.nodes v)).gossipPeers = (s.nodes v).gossipPeers)
    (hr : (f (s'.nodes v)).requestedInv = (s.nodes v).requestedInv) :
    Stays s (s'.modify v f) m where
  flight := h.flight
  queued := h.queued
  history := h.history
  gossipPeers w := by
    by_cases hw : w = v
    · subst hw
      rw [modify_self, hp]
    · rw [modify_of_ne _ _ hw, h.gossipPeers]
  requestedInv w := by
    by_cases hw : w = v
    · subst hw
      rw [modify_self, hr]
    · rw [modify_of_ne _ _ hw, h.requestedInv]
  messages := h.messages
  others := h.others

theorem Stays.emits (h : Stays s s' m) {s'' : Sim n k} (he : Emits s' [] s'') : Stays s s'' m where
  flight := by rw [he.flight, h.flight]; exact add_zero _
  queued := by rw [he.queued, h.queued]
  history := by
    rw [he.history, h.history]
    simp
  gossipPeers w := (he.gossipPeers w).trans (h.gossipPeers w)
  requestedInv w := (he.requestedInv w).trans (h.requestedInv w)
  messages m' := by rw [he.messages]; exact h.messages m'
  others m' hm := by rw [he.messages]; exact h.others m' hm

theorem stays_refl (s : Sim n k) (m : Fin k) : Stays s s m :=
  ⟨rfl, rfl, rfl, fun _ => rfl, fun _ => rfl, fun _ => rfl, fun _ _ => rfl⟩

theorem Updated.stays (h : Updated W s time m v sender hops s') : Stays s s' m := by
  have hpeers : (s.stored time m v hops).1.gossipPeers = (s.nodes v).gossipPeers := by
    rw [stored_node]
    rfl
  have hreq : (s.stored time m v hops).1.requestedInv = (s.nodes v).requestedInv := by
    rw [stored_node]
    rfl
  have hcounted : Stays s (s.counted m v) m := (stays_refl s m).modify rfl rfl
  cases h with
  | everyone _ => exact stays_refl s m
  | again _ _ _ =>
    refine hcounted.modify ?_ ?_
    all_goals
      rw [LightningNode.noteSender_eq, counted, modify_self]
      rfl
  | repeated _ _ _ => exact hcounted
  | last _ _ _ =>
    obtain ⟨h₁, h₂, h₃, h₄, h₅, h₆, h₇⟩ : Stays s (s.noted time m v hops) m := stays_noted
    exact ⟨h₁, h₂, rfl, h₄, h₅, h₆, h₇⟩
  | stale _ _ _ hs' =>
    subst hs'
    exact stays_noted.modify hpeers hreq
  | queued _ _ _ _ he => exact (stays_noted.modify hpeers hreq).emits he
  | reconciled _ _ _ _ he => exact (stays_noted.modify hpeers hreq).emits he

/-! ## The counters -/

theorem metaData_of_seen {a b : LightningNode n k} {m : Fin k} (h : a.seen m = b.seen m) :
    a.metaData m = b.metaData m := by
  unfold LightningNode.metaData
  rw [h]

/-- Only the message's own metadata changes. -/
theorem Updated.seen_of_ne (h : Updated W s time m v sender hops s') {m' : Fin k} (hm : m' ≠ m)
    (w : Fin n) : (s'.nodes w).seen m' = (s.nodes w).seen m' := by
  have hcount : ((s.nodes v).countSeen m).seen m' = (s.nodes v).seen m' :=
    LightningNode.countSeen_of_ne _ hm
  have hstored : (s.stored time m v hops).1.seen m' = (s.nodes v).seen m' := by
    rw [stored_node]
    exact hcount
  by_cases hw : w = v
  · subst hw
    cases h with
    | everyone _ => rfl
    | again _ _ _ =>
      rw [modify_self, LightningNode.noteSender_seen, counted, modify_self]
      exact hcount
    | repeated _ _ _ =>
      rw [counted, modify_self]
      exact hcount
    | last _ _ _ =>
      show Function.update ((s.noted time m w hops).nodes w).seen m none m' = _
      rw [Function.update_of_ne hm, noted_node]
      exact hcount
    | stale _ _ _ hs' =>
      rw [hs', modify_self]
      exact hstored
    | queued _ _ _ _ he =>
      rw [he.seen, modify_self]
      exact hstored
    | reconciled _ _ _ _ he =>
      rw [he.seen, modify_self]
      exact hstored
  · have hnoted := noted_of_ne s time m hops hw
    cases h with
    | everyone _ => rfl
    | again _ _ _ => rw [modify_of_ne _ _ hw, counted, modify_of_ne _ _ hw]
    | repeated _ _ _ => rw [counted, modify_of_ne _ _ hw]
    | last _ _ _ =>
      show Function.update ((s.noted time m v hops).nodes w).seen m none m' = _
      rw [Function.update_of_ne hm, hnoted]
    | stale _ _ _ hs' => rw [hs', modify_of_ne _ _ hw, hnoted]
    | queued _ _ _ _ he => rw [he.seen, modify_of_ne _ _ hw, hnoted]
    | reconciled _ _ _ _ he => rw [he.seen, modify_of_ne _ _ hw, hnoted]

/-- What happens to the counters of the message. -/
inductive Counts (s : Sim n k) (m : Fin k) (v : Fin n) (s' : Sim n k) : Prop where
  /-- Nothing. -/
  | everyone : s' = s → n ≤ (s.messages m).seen → Counts s m v s'
  /-- The node counts once more. -/
  | again : (s.messages m).seen < n → s.count v m ≠ 0 → s'.messages = s.messages →
      s'.seenLogger = s.seenLogger → s'.history.deleted = s.history.deleted →
      s'.count v m = s.count v m + 1 → (∀ w, w ≠ v → s'.count w m = s.count w m) → Counts s m v s'
  /-- The node is new to the message. -/
  | first {row} : s.First v m → (s'.messages m).seen = (s.messages m).seen + 1 →
      (s'.messages m).seen < n → row.nodeID = v → row.messageID = m →
      s'.seenLogger = s.seenLogger ++ [row] → s'.history.deleted = s.history.deleted →
      s'.count v m = 1 → (∀ w, w ≠ v → s'.count w m = s.count w m) → Counts s m v s'
  /-- The node is the last that is new to the message. -/
  | last {row} : s.First v m → (s'.messages m).seen = (s.messages m).seen + 1 →
      n ≤ (s'.messages m).seen → row.nodeID = v → row.messageID = m →
      s'.seenLogger = s.seenLogger ++ [row] → s'.history.deleted = insert m s.history.deleted →
      (∀ w, (s'.nodes w).seen m = none) → Counts s m v s'

/-- The cases in which the message is new and not everyone has seen it. -/
theorem counts_first {f : LightningNode n k → LightningNode n k} (hs : s.First v m)
    (hlt : (s.messages m).seen + 1 < n)
    (he : Emits ((s.noted time m v hops).modify v f) [] s')
    (hf : (f ((s.nodes v).countSeen m)).seen = ((s.nodes v).countSeen m).seen) :
    Counts s m v s' := by
  have hseen : (s'.messages m).seen = (s.messages m).seen + 1 := by
    rw [he.messages]
    exact noted_seen s time m v hops
  refine .first hs hseen (by omega) rfl rfl he.seenLogger (by rw [he.history]; rfl) ?_ ?_
  · have hn : (s'.nodes v).seen m = ((s.nodes v).countSeen m).seen m := by
      rw [he.seen, modify_self, noted_node, hf]
    unfold count
    rw [metaData_of_seen hn, LightningNode.countSeen_self]
    have := hs.2
    unfold count at this
    omega
  · intro w hw
    unfold count
    rw [metaData_of_seen (b := s.nodes w)]
    rw [he.seen, modify_of_ne _ _ hw, noted_of_ne _ _ _ _ hw]

theorem Updated.counts (h : Updated W s time m v sender hops s') : Counts s m v s' := by
  have hagain : ∀ {f : LightningNode n k → LightningNode n k},
      (∀ ln, (f ln).seen = ln.seen) → (s.messages m).seen < n → s.count v m ≠ 0 →
      Counts s m v ((s.counted m v).modify v f) := by
    intro f hf hlt hold
    refine .again hlt hold rfl rfl rfl ?_ ?_
    · have hn : (((s.counted m v).modify v f).nodes v).seen m = ((s.nodes v).countSeen m).seen m := by
        rw [modify_self, hf, counted, modify_self]
      unfold count
      rw [metaData_of_seen hn, LightningNode.countSeen_self]
    · intro w hw
      unfold count
      rw [modify_of_ne _ _ hw, counted, modify_of_ne _ _ hw]
  have hstored : (s.stored time m v hops).1.seen = ((s.nodes v).countSeen m).seen := by
    rw [stored_node]
  cases h with
  | everyone hall => exact .everyone rfl hall
  | again hlt hold _ => exact hagain (fun ln => ln.noteSender_seen m sender hops) hlt hold
  | repeated hlt hold _ =>
    have hid : (s.counted m v).modify v (fun ln => ln) = s.counted m v := by
      unfold Sim.modify
      rw [Function.update_eq_self]
    rw [← hid]
    exact hagain (fun _ => rfl) hlt hold
  | last hlt hnew hlast =>
    have hseen : (((s.noted time m v hops).deleteMessage m).messages m).seen =
        (s.messages m).seen + 1 := noted_seen s time m v hops
    refine .last ⟨hlt, hnew⟩ hseen (by omega) rfl rfl rfl rfl fun w => ?_
    exact Function.update_self _ _ _
  | stale hlt hnew _ hs' =>
    rw [hs']
    exact counts_first ⟨by omega, hnew⟩ hlt (Emits.refl _) hstored
  | queued hlt hnew _ _ he => exact counts_first ⟨by omega, hnew⟩ hlt he hstored
  | reconciled hlt hnew _ _ he => exact counts_first ⟨by omega, hnew⟩ hlt he hstored

/-- A row is logged for the node at most. -/
theorem Updated.logged (h : Updated W s time m v sender hops s') :
    s'.seenLogger = s.seenLogger ∨
      ∃ row : SeenRow n k, row.nodeID = v ∧ row.messageID = m ∧
        s'.seenLogger = s.seenLogger ++ [row] := by
  cases h.counts with
  | everyone he _ => exact .inl (by rw [he])
  | again _ _ _ hl _ _ _ => exact .inl hl
  | first _ _ _ hv hm hl _ _ _ | last _ _ _ hv hm hl _ _ => exact .inr ⟨_, hv, hm, hl⟩

/-- Only the message is deleted. -/
theorem Updated.deleted_of_ne (h : Updated W s time m v sender hops s') {m' : Fin k} (hm : m' ≠ m) :
    m' ∈ s'.history.deleted ↔ m' ∈ s.history.deleted := by
  cases h.counts with
  | everyone he _ => rw [he]
  | again _ _ _ _ hd _ _ | first _ _ _ _ _ _ hd _ _ => rw [hd]
  | last _ _ _ _ _ _ hd _ => rw [hd, Finset.mem_insert, or_iff_right hm]

/-! ## The queue, the sets and the latest updates -/

/-- An entry of the queue is an old one with more senders, or it is made for a new message. -/
theorem Updated.bq (h : Updated W s time m v sender hops s') {w : Fin n} {m' : Fin k}
    {ms' : MessageWithSenders n} (hms' : (s'.nodes w).bq m' = some ms') :
    (∃ ms, (s.nodes w).bq m' = some ms ∧ ms.senders ⊆ ms'.senders) ∨
      w = v ∧ m' = m ∧ sender ∈ ms'.senders ∧ s.First v m ∧ W.algo.reconcilTimer = 0 := by
  have hself : ∀ {w}, (s.nodes w).bq m' = some ms' →
      ∃ ms, (s.nodes w).bq m' = some ms ∧ ms.senders ⊆ ms'.senders :=
    fun hms => ⟨ms', hms, Finset.Subset.refl _⟩
  have hnoted : ∀ w, ((s.noted time m v hops).nodes w).bq = (s.nodes w).bq := by
    intro w
    by_cases hw : w = v
    · rw [hw, noted_node]
      rfl
    · rw [noted_of_ne _ _ _ _ hw]
  have hcounted : ∀ w, ((s.counted m v).nodes w).bq = (s.nodes w).bq := hnoted
  have hstored : (s.stored time m v hops).1.bq = (s.nodes v).bq := by
    rw [stored_node]
    rfl
  cases h with
  | everyone _ => exact .inl (hself hms')
  | again _ _ _ =>
    left
    by_cases hw : w = v
    · subst hw
      rw [modify_self] at hms'
      obtain ⟨ms, hms, hsub⟩ := LightningNode.noteSender_bq hms'
      exact ⟨ms, by rwa [hcounted] at hms, hsub⟩
    · rw [modify_of_ne _ _ hw, hcounted] at hms'
      exact hself hms'
  | repeated _ _ _ =>
    rw [hcounted] at hms'
    exact .inl (hself hms')
  | last _ _ _ =>
    left
    change Function.update ((s.noted time m v hops).nodes w).bq m none m' = some ms' at hms'
    by_cases hm : m' = m
    · rw [hm, Function.update_self] at hms'
      cases hms'
    · rw [Function.update_of_ne hm, hnoted] at hms'
      exact hself hms'
  | stale _ _ _ hs' =>
    left
    subst hs'
    by_cases hw : w = v
    · subst hw
      rw [modify_self, hstored] at hms'
      exact hself hms'
    · rw [modify_of_ne _ _ hw, hnoted] at hms'
      exact hself hms'
  | queued hlt hnew _ hmode he =>
    rw [he.bq] at hms'
    by_cases hw : w = v
    · subst hw
      rw [modify_self] at hms'
      change Function.update (s.stored time m w hops).1.bq m _ m' = some ms' at hms'
      by_cases hm : m' = m
      · rw [hm, Function.update_self] at hms'
        cases hms'
        exact .inr ⟨rfl, hm, Finset.mem_singleton_self _, ⟨by omega, hnew⟩, hmode⟩
      · rw [Function.update_of_ne hm, hstored] at hms'
        exact .inl (hself hms')
    · rw [modify_of_ne _ _ hw, hnoted] at hms'
      exact .inl (hself hms')
  | reconciled _ _ _ _ he =>
    left
    rw [he.bq] at hms'
    by_cases hw : w = v
    · subst hw
      rw [modify_self] at hms'
      exact hself (hstored ▸ hms')
    · rw [modify_of_ne _ _ hw, hnoted] at hms'
      exact hself hms'

/-- A newer update takes the place of the one it replaces. -/
structure Replaces (s : Sim n k) (v : Fin n) (m old : Fin k) (s' : Sim n k) : Prop where
  type : (s.messages m).type = .channelUpdate
  before : (s.nodes v).latest (s.messages m).channelID (s.messages m).direction = some old
  after : (s'.nodes v).latest (s.messages m).channelID (s.messages m).direction = some m
  lt : (s.messages old).lastUpdate < (s.messages m).lastUpdate

theorem latest_eq {a b : LightningNode n k} (h : a.seenByChannel = b.seenByChannel) (c : Nat)
    (d : Fin 2) : a.latest c d = b.latest c d := by
  unfold LightningNode.latest
  rw [h]

/-- The latest updates after storing, in the terms of the state before. -/
theorem stored_latest (s : Sim n k) (time : Nat) (m : Fin k) (v : Fin n) (hops c : Nat) (d : Fin 2) :
    (s.stored time m v hops).1.latest c d = (s.nodes v).latest c d ∨
      (s.messages m).type = .channelUpdate ∧ (s.messages m).channelID = c ∧
      (s.messages m).direction = d ∧ (s.stored time m v hops).1.latest c d = some m ∧
      ∀ old, (s.nodes v).latest c d = some old →
        (s.messages old).lastUpdate < (s.messages m).lastUpdate := by
  have hs := LightningNode.storeNew_spec (s.noted time m v hops).messages
    ((s.noted time m v hops).nodes v) m
  have hst : Stays s (s.noted time m v hops) m := stays_noted
  have hl : ∀ c d, ((s.noted time m v hops).nodes v).latest c d = (s.nodes v).latest c d := by
    intro c d
    rw [noted_node]
    rfl
  have hu : ∀ m', ((s.noted time m v hops).messages m').lastUpdate = (s.messages m').lastUpdate :=
    fun m' => by rw [hst.messages]
  rcases hs.latest c d with h | ⟨hok, ht, hc, hd, h⟩
  · exact .inl (h.trans (hl c d))
  · right
    obtain ⟨-, hlt⟩ := hs.newer hok ht
    rw [hst.messages] at ht hc hd
    refine ⟨ht, hc, hd, h, fun old hold => ?_⟩
    have := hlt old (by rw [hl, hst.messages]; exact hc ▸ hd ▸ hold)
    rwa [hu, hu] at this

theorem Updated.latest (h : Updated W s time m v sender hops s') (w : Fin n) (c : Nat) (d : Fin 2) :
    (s'.nodes w).latest c d = (s.nodes w).latest c d ∨
      w = v ∧ (s.messages m).type = .channelUpdate ∧ (s.messages m).channelID = c ∧
      (s.messages m).direction = d ∧ (s'.nodes w).latest c d = some m ∧
      ∀ old, (s.nodes w).latest c d = some old →
        (s.messages old).lastUpdate < (s.messages m).lastUpdate := by
  have hnoted : ∀ w, ((s.noted time m v hops).nodes w).latest c d = (s.nodes w).latest c d := by
    intro w
    by_cases hw : w = v
    · rw [hw, noted_node]
      rfl
    · rw [noted_of_ne _ _ _ _ hw]
  have hcounted : ∀ w, ((s.counted m v).nodes w).latest c d = (s.nodes w).latest c d := hnoted
  -- the node that stores the message
  have hstore : ∀ {f : LightningNode n k → LightningNode n k},
      (f ((s.noted time m v hops).nodes v)).seenByChannel = (s.stored time m v hops).1.seenByChannel →
      (((s.noted time m v hops).modify v f).nodes w).latest c d = (s.nodes w).latest c d ∨
        w = v ∧ (s.messages m).type = .channelUpdate ∧ (s.messages m).channelID = c ∧
        (s.messages m).direction = d ∧
        (((s.noted time m v hops).modify v f).nodes w).latest c d = some m ∧
        ∀ old, (s.nodes w).latest c d = some old →
          (s.messages old).lastUpdate < (s.messages m).lastUpdate := by
    intro f hf
    by_cases hw : w = v
    · subst hw
      rw [modify_self, latest_eq hf]
      rcases stored_latest s time m w hops c d with h | h
      · exact .inl h
      · exact .inr ⟨rfl, h⟩
    · rw [modify_of_ne _ _ hw]
      exact .inl (hnoted w)
  cases h with
  | everyone _ => exact .inl rfl
  | again _ _ _ =>
    left
    by_cases hw : w = v
    · subst hw
      rw [modify_self, ← hcounted, LightningNode.noteSender_eq]
      rfl
    · rw [modify_of_ne _ _ hw]
      exact hcounted w
  | repeated _ _ _ => exact .inl (hcounted w)
  | last _ _ _ => exact .inl (hnoted w)
  | stale _ _ _ hs' =>
    rw [hs']
    exact hstore rfl
  | queued _ _ _ _ he =>
    rw [latest_eq (he.seenByChannel w)]
    exact hstore rfl
  | reconciled _ _ _ _ he =>
    rw [latest_eq (he.seenByChannel w)]
    exact hstore rfl

/-- The sets stay, or the new message joins those for the other peers and takes the place of the
update it replaces. -/
theorem Updated.sets (h : Updated W s time m v sender hops s') :
    (∀ w, (s'.nodes w).reconcilSets = (s.nodes w).reconcilSets) ∨
      s.First v m ∧ 0 < W.algo.reconcilTimer ∧
      (∀ w, w ≠ v → (s'.nodes w).reconcilSets = (s.nodes w).reconcilSets) ∧
      (∃ row ∈ s'.seenLogger, row.nodeID = v ∧ row.messageID = m) ∧
      ∃ replace : Option (Fin k), (∀ old ∈ replace, s.Replaces v m old s') ∧
        ∀ p, (s'.nodes v).reconcilSets p = ((s.nodes v).reconcilSets p).map fun set =>
          if p = sender then set \ replace.toFinset else insert m (set \ replace.toFinset) := by
  have hnoted : ∀ w, ((s.noted time m v hops).nodes w).reconcilSets = (s.nodes w).reconcilSets := by
    intro w
    by_cases hw : w = v
    · rw [hw, noted_node]
      rfl
    · rw [noted_of_ne _ _ _ _ hw]
  have hcounted : ∀ w, ((s.counted m v).nodes w).reconcilSets = (s.nodes w).reconcilSets := hnoted
  have hstored : (s.stored time m v hops).1.reconcilSets = (s.nodes v).reconcilSets := by
    rw [stored_node]
    rfl
  cases h with
  | everyone _ => exact .inl fun _ => rfl
  | again _ _ _ =>
    left
    intro w
    by_cases hw : w = v
    · subst hw
      rw [modify_self, ← hcounted, LightningNode.noteSender_eq]
    · rw [modify_of_ne _ _ hw]
      exact hcounted w
  | repeated _ _ _ => exact .inl hcounted
  | last _ _ _ => exact .inl hnoted
  | stale _ _ _ hs' =>
    left
    intro w
    rw [hs']
    by_cases hw : w = v
    · subst hw
      rw [modify_self]
      exact hstored
    · rw [modify_of_ne _ _ hw]
      exact hnoted w
  | queued _ _ _ _ he =>
    left
    intro w
    rw [he.reconcilSets]
    by_cases hw : w = v
    · subst hw
      rw [modify_self]
      exact hstored
    · rw [modify_of_ne _ _ hw]
      exact hnoted w
  | reconciled hlt hnew hok hmode he =>
    right
    refine ⟨⟨by omega, hnew⟩, hmode, fun w hw => ?_, ?_, (s.stored time m v hops).2.1, ?_, fun p => ?_⟩
    · rw [he.reconcilSets, modify_of_ne _ _ hw]
      exact hnoted w
    · rw [he.seenLogger]
      exact ⟨_, List.mem_append_right _ (List.mem_singleton_self _), rfl, rfl⟩
    · intro old hold
      have hs := LightningNode.storeNew_spec (s.noted time m v hops).messages
        ((s.noted time m v hops).nodes v) m
      have hst : Stays s (s.noted time m v hops) m := stays_noted
      obtain ⟨ht, hbefore⟩ := hs.replaced old hold
      obtain ⟨hafter, hltu⟩ := hs.newer hok ht
      have hlt' := hltu old hbefore
      rw [hst.messages] at ht hbefore hafter
      rw [hst.messages m, hst.messages old] at hlt'
      rw [noted_node] at hbefore
      refine ⟨ht, hbefore, ?_, hlt'⟩
      rw [latest_eq (he.seenByChannel v), modify_self]
      exact hafter
    · rw [he.reconcilSets, modify_self]
      unfold LightningNode.addMessageToReconcilSets
      rw [hstored]

end Sim

end LnConv.Lnsim
