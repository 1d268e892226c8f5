import LnConv.Lnsim.Spec

/-!
# What a stagger tick sends

A tick sends every peer, in one way or another, the messages of the queue that did not come
from it, each once.
-/

namespace LnConv.Lnsim

open Netsim

variable {n k : Nat}

namespace Body

/-- The gossip messages sent without being asked for. -/
def direct : Body k → List (Fin k)
  | .gossip m => [m]
  | .channelUpdateBatch batch _ false => batch
  | _ => []

/-- The gossip messages sent as an answer. -/
def answered : Body k → List (Fin k)
  | .channelUpdateBatch batch _ true => batch
  | _ => []

/-- The messages offered by their inventory entries. -/
def offered : Body k → List (Fin k)
  | .channelInvs invs _ _ => invs.map (·.msgID)
  | _ => []

/-- The messages asked for. -/
def asked : Body k → List (Fin k)
  | .channelQuery invs => invs.map (·.msgID)
  | _ => []

end Body

namespace LightningNode

/-- A message waits for a peer that is not known to have it. -/
def owes (ln : LightningNode n k) (p : Fin n) (m : Fin k) : Bool :=
  (ln.bq m).any fun ms => decide (p ∉ ms.senders)

theorem owes_iff {ln : LightningNode n k} {p : Fin n} {m : Fin k} :
    ln.owes p m = true ↔ ∃ ms, ln.bq m = some ms ∧ p ∉ ms.senders := by
  unfold owes
  cases ln.bq m <;> simp

theorem owes_of_bq {ln : LightningNode n k} {p : Fin n} {m : Fin k} {ms : MessageWithSenders n}
    (h : ln.bq m = some ms) : ln.owes p m = decide (p ∉ ms.senders) := by
  unfold owes
  rw [h]
  rfl

theorem plain_clearQueue : Plain (clearQueue : LightningNode n k → LightningNode n k) := by
  intro a b h
  obtain ⟨h₁, h₂, h₃, h₄, h₅, h₆, h₇⟩ := untimed_eq_iff.1 h
  refine untimed_eq_iff.2 ⟨rfl, ?_, h₃, h₄, h₅, h₆, h₇⟩
  unfold clearQueue metaData
  rw [h₁, h₂]

end LightningNode

/-- How gossip messages are forwarded: as a batch, as inventory entries, or one by one. -/
inductive Forward (W : World n k) (messages : Fin k → Gossip n) : Body k → Prop where
  | batch (batch : List (Fin k)) : W.algo.sendBatchUpdates = true →
      Forward W messages (.channelUpdateBatch batch false false)
  | invs (ms : List (Fin k)) : W.algo.sendBatchUpdates = false → W.algo.sendInvs = true →
      Forward W messages (.channelInvs (ms.map fun m => (messages m).inv m) false ∅)
  | gossip (m : Fin k) : W.algo.sendBatchUpdates = false → W.algo.sendInvs = false →
      Forward W messages (.gossip m)

/-- What a message forwards. -/
def Body.carried (b : Body k) : List (Fin k) := b.direct ++ b.offered

/-- What a node sends its peers in a tick. -/
structure Forwards (W : World n k) (messages : Fin k → Gossip n) (ln : LightningNode n k)
    (v : Fin n) (peers : List (Fin n)) (out : List (Packet n k)) : Prop where
  sender : ∀ me ∈ out, me.sender = v
  receiver : ∀ me ∈ out, me.receiver ∈ peers
  forward : ∀ me ∈ out, Forward W messages me.m.body
  carried : ∀ p ∈ peers, (out.filter fun me => me.receiver = p).flatMap (·.m.body.carried) =
    (List.finRange k).filter (ln.owes p)

/-- What is forwarded to a peer was owed to it. -/
theorem Forwards.owes {W : World n k} {messages : Fin k → Gossip n} {ln : LightningNode n k}
    {v : Fin n} {peers : List (Fin n)} {out : List (Packet n k)}
    (h : Forwards W messages ln v peers out) {me : Packet n k} (hme : me ∈ out) {m : Fin k}
    (hm : m ∈ me.m.body.carried) : ln.owes me.receiver m = true := by
  have hin : m ∈ (out.filter fun me' => me'.receiver = me.receiver).flatMap (·.m.body.carried) :=
    List.mem_flatMap.2 ⟨me, List.mem_filter.2 ⟨hme, decide_eq_true rfl⟩, hm⟩
  rw [h.carried _ (h.receiver me hme)] at hin
  exact (List.mem_filter.1 hin).2

namespace Sim

theorem map_inv_msgID (messages : Fin k → Gossip n) (ms : List (Fin k)) :
    (ms.map fun m => (messages m).inv m).map (·.msgID) = ms := by
  rw [List.map_map]
  exact List.map_id ms

section Peer

variable {W : World n k} {s : Sim n k} {time : Nat} {v p : Fin n} {interval : Nat} {batchSize : Int}

/-- The loop over the queue for a peer: what was sent and what is held back are the messages
`ids`, in their order. -/
structure Collects (W : World n k) (s : Sim n k) (v p : Fin n) (b : Batching n k)
    (out : List (Packet n k)) (ids : List (Fin k)) : Prop where
  emits : Emits s out b.sim
  sender : ∀ me ∈ out, me.sender = v
  receiver : ∀ me ∈ out, me.receiver = p
  forward : ∀ me ∈ out, Forward W s.messages me.m.body
  batch : W.algo.sendBatchUpdates = false → b.batch = []
  invs : W.algo.sendBatchUpdates = true ∨ W.algo.sendInvs = false → b.invs = []
  entries : b.invs = (b.invs.map (·.msgID)).map fun m => (s.messages m).inv m
  carried : out.flatMap (·.m.body.carried) ++ b.batch ++ b.invs.map (·.msgID) = ids

theorem Collects.recount {b : Batching n k} {out : List (Packet n k)} {ids : List (Fin k)}
    (h : Collects W s v p b out ids) (currBatch timeOffset : Nat) :
    Collects W s v p { b with currBatch := currBatch, timeOffset := timeOffset } out ids :=
  ⟨h.emits, h.sender, h.receiver, h.forward, h.batch, h.invs, h.entries, h.carried⟩

theorem Collects.add {b : Batching n k} {out : List (Packet n k)} {ids ids' : List (Fin k)}
    (h : Collects W s v p b out ids) {s' : Sim n k} {m : LightningMessage k} {hops : Nat}
    {batch : List (Fin k)} {invs : List (ChannelInv k)}
    (hs : Emits b.sim [⟨m, v, p, hops⟩] s') (hm : Forward W s.messages m.body)
    (hbatch : W.algo.sendBatchUpdates = false → batch = []) (hinvs : invs = [])
    (hc : out.flatMap (·.m.body.carried) ++ m.body.carried ++ batch = ids') :
    Collects W s v p { b with batch := batch, invs := invs, sim := s' } (out ++ [⟨m, v, p, hops⟩])
      ids' := by
  subst hinvs
  refine ⟨h.emits.trans hs, ?_, ?_, ?_, hbatch, fun _ => rfl, rfl, ?_⟩
  · intro me hme
    rcases List.mem_append.1 hme with hme | hme
    · exact h.sender me hme
    · rw [List.mem_singleton.1 hme]
  · intro me hme
    rcases List.mem_append.1 hme with hme | hme
    · exact h.receiver me hme
    · rw [List.mem_singleton.1 hme]
  · intro me hme
    rcases List.mem_append.1 hme with hme | hme
    · exact h.forward me hme
    · rw [List.mem_singleton.1 hme]
      exact hm
  · rw [List.flatMap_append, List.flatMap_singleton, List.map_nil, List.append_nil]
    exact hc

/-- After a flush nothing is held back. -/
theorem flushBatch_spec {b b' : Batching n k} {out : List (Packet n k)} {ids : List (Fin k)}
    {entrySize : Nat} (hb : Collects W s v p b out ids)
    (h : flushBatch W time v p entrySize b = some b') :
    b'.batch = [] ∧ b'.invs = [] ∧ ∃ out', Collects W s v p b' out' ids := by
  have hids := hb.carried
  unfold flushBatch at h
  split at h
  · next hmode =>
    obtain ⟨s', hs', h⟩ := Option.bind_eq_some_iff.1 h
    have hinvs := hb.invs (.inl hmode.1)
    cases h
    refine ⟨rfl, hinvs, _, hb.add (send_emits hs') (.batch _ hmode.1) (fun _ => rfl) hinvs ?_⟩
    rw [hinvs] at hids
    simpa [Body.carried, Body.direct, Body.offered] using hids
  next hmode =>
  split at h
  · next hmode' =>
    obtain ⟨s', hs', h⟩ := Option.bind_eq_some_iff.1 h
    have hno : W.algo.sendBatchUpdates = false := by
      by_contra hne
      exact hmode'.2 (hb.invs (.inl (Bool.not_eq_false _ ▸ hne)))
    have hbatch := hb.batch hno
    have hbody : Forward W s.messages (.channelInvs b.invs false ∅) := by
      rw [hb.entries]
      exact .invs _ hno hmode'.1
    cases h
    refine ⟨hbatch, rfl, _, hb.add (send_emits hs') hbody hb.batch rfl ?_⟩
    rw [hbatch] at hids ⊢
    simpa [Body.carried, Body.direct, Body.offered] using hids
  next hmode' =>
  cases h
  refine ⟨?_, ?_, out, hb⟩
  · by_contra hne
    cases hbm : W.algo.sendBatchUpdates with
    | true => exact hmode ⟨hbm, hne⟩
    | false => exact hne (hb.batch hbm)
  · by_contra hne
    cases him : W.algo.sendInvs with
    | true => exact hmode' ⟨him, hne⟩
    | false => exact hne (hb.invs (.inr him))

theorem trickle_spec {b b' : Batching n k} {out : List (Packet n k)} {ids : List (Fin k)}
    (hb : Collects W s v p b out ids) (h : trickle W time v p batchSize b = some b') :
    ∃ out', Collects W s v p b' out' ids := by
  unfold trickle at h
  split at h
  · obtain ⟨b₁, hb₁, h⟩ := Option.bind_eq_some_iff.1 h
    obtain ⟨-, -, out₁, h₁⟩ := flushBatch_spec hb hb₁
    cases h
    exact ⟨out₁, h₁.recount _ _⟩
  · cases h
    exact ⟨out, hb⟩

/-- What a turn adds to the messages, whichever way they are forwarded. -/
theorem staggerMessage_spec {b b' : Batching n k} {out : List (Packet n k)} {ids : List (Fin k)}
    {m : Fin k} (hb : Collects W s v p b out ids)
    (h : staggerMessage W time v p interval batchSize b m = some b') :
    ∃ out', Collects W s v p b' out' (ids ++ [m].filter ((s.nodes v).owes p)) := by
  obtain ⟨ms, hms, h⟩ := Option.bind_eq_some_iff.1 h
  rw [hb.emits.bq] at hms
  split at h
  · cases h
  split at h
  · cases h
  obtain ⟨b₁, hb₁, h⟩ := Option.bind_eq_some_iff.1 h
  obtain ⟨out₁, h₁⟩ := trickle_spec hb hb₁
  have h₁ := h₁.recount (b₁.currBatch + 1) b₁.timeOffset
  have hids := h₁.carried
  have hmess := h₁.emits.messages
  split at h
  · next hsend =>
    cases h
    refine ⟨out₁, h₁.emits, h₁.sender, h₁.receiver, h₁.forward, h₁.batch, h₁.invs, h₁.entries, ?_⟩
    rw [List.filter_singleton, LightningNode.owes_of_bq hms, decide_eq_false (not_not.2 hsend)]
    simpa using hids
  next hsend =>
  have howes : [m].filter ((s.nodes v).owes p) = [m] := by
    rw [List.filter_singleton, LightningNode.owes_of_bq hms, decide_eq_true hsend]
    rfl
  rw [howes]
  split at h
  · next hbm =>
    cases h
    have hinvs := h₁.invs (.inl hbm)
    refine ⟨out₁, h₁.emits, h₁.sender, h₁.receiver, h₁.forward, ?_, h₁.invs, h₁.entries, ?_⟩
    · intro hno
      rw [hbm] at hno
      cases hno
    · rw [← hids, hinvs]
      simp
  next hbm =>
  have hno := Bool.not_eq_true _ ▸ hbm
  have hbatch := h₁.batch hno
  split at h
  · next him =>
    cases h
    refine ⟨out₁, h₁.emits, h₁.sender, h₁.receiver, h₁.forward, h₁.batch, ?_, ?_, ?_⟩
    · rintro (hbm' | him')
      · exact absurd hbm' hbm
      · rw [him] at him'
        cases him'
    · rw [List.map_append, List.map_append, ← h₁.entries, hmess]
      rfl
    · rw [← hids, List.map_append, ← List.append_assoc]
      rfl
  · next him =>
    have him' := Bool.not_eq_true _ ▸ him
    obtain ⟨s', hs', h⟩ := Option.bind_eq_some_iff.1 h
    cases h
    have hinvs := h₁.invs (.inr him')
    refine ⟨_, h₁.add (sendWithHops_emits hs') (.gossip m hno him') h₁.batch hinvs ?_⟩
    rw [← hids, hbatch, hinvs]
    simp [Body.carried, Body.direct, Body.offered]

theorem staggerMessages_spec {b b' : Batching n k} {out : List (Packet n k)} {ids l : List (Fin k)}
    (hb : Collects W s v p b out ids)
    (h : l.foldlM (staggerMessage W time v p interval batchSize) b = some b') :
    ∃ out', Collects W s v p b' out' (ids ++ l.filter ((s.nodes v).owes p)) := by
  induction l generalizing b out ids with
  | nil =>
    cases h
    exact ⟨out, by rwa [List.filter_nil, List.append_nil]⟩
  | cons m l ih =>
    rw [List.foldlM_cons] at h
    obtain ⟨b₁, hm, hl⟩ := Option.bind_eq_some_iff.1 h
    obtain ⟨out₁, h₁⟩ := staggerMessage_spec hb hm
    obtain ⟨out₂, h₂⟩ := ih h₁ hl
    refine ⟨out₂, ?_⟩
    rwa [List.append_assoc, ← List.filter_append] at h₂

theorem staggerPeer_spec {s' : Sim n k} {l : List (Fin k)}
    (h : staggerPeer W time v interval batchSize l s p = some s') :
    ∃ out, Emits s out s' ∧ (∀ me ∈ out, me.sender = v) ∧ (∀ me ∈ out, me.receiver = p) ∧
      (∀ me ∈ out, Forward W s.messages me.m.body) ∧
      out.flatMap (·.m.body.carried) = l.filter ((s.nodes v).owes p) := by
  unfold staggerPeer at h
  split at h
  · cases h
  obtain ⟨b, hb, h⟩ := Option.bind_eq_some_iff.1 h
  obtain ⟨b', hb', h⟩ := Option.bind_eq_some_iff.1 h
  have h₀ : Collects W s v p ⟨0, 0, [], [], s⟩ [] [] :=
    ⟨Emits.refl s, by simp, by simp, by simp, fun _ => rfl, fun _ => rfl, rfl, rfl⟩
  obtain ⟨out₁, h₁⟩ := staggerMessages_spec h₀ hb
  obtain ⟨hbatch, hinvs, out₂, h₂⟩ := flushBatch_spec h₁ hb'
  cases h
  refine ⟨out₂, h₂.emits, h₂.sender, h₂.receiver, h₂.forward, ?_⟩
  have hids := h₂.carried
  rw [hbatch, hinvs] at hids
  simpa using hids

end Peer

theorem staggerPeers_spec {W : World n k} {time : Nat} {v : Fin n} {interval : Nat} {batchSize : Int}
    {l : List (Fin k)} {peers : List (Fin n)} (hnodup : peers.Nodup) {s s' : Sim n k}
    (hl : ∀ p, l.filter ((s.nodes v).owes p) = (List.finRange k).filter ((s.nodes v).owes p))
    (h : peers.foldlM (staggerPeer W time v interval batchSize l) s = some s') :
    ∃ out, Emits s out s' ∧ Forwards W s.messages (s.nodes v) v peers out := by
  induction peers generalizing s with
  | nil =>
    cases h
    exact ⟨[], Emits.refl _, by simp, by simp, by simp, by simp⟩
  | cons p peers ih =>
    rw [List.foldlM_cons] at h
    obtain ⟨s₁, hp, h⟩ := Option.bind_eq_some_iff.1 h
    obtain ⟨hnot, hnodup⟩ := List.nodup_cons.1 hnodup
    obtain ⟨out₁, he₁, hsnd₁, hrcv₁, hfwd₁, hcar₁⟩ := staggerPeer_spec hp
    have howes : (s₁.nodes v).owes = (s.nodes v).owes := by
      unfold LightningNode.owes
      rw [he₁.bq]
    obtain ⟨out₂, he₂, h₂⟩ := ih hnodup (by rwa [howes]) h
    rw [he₁.messages] at h₂
    refine ⟨out₁ ++ out₂, he₁.trans he₂, ?_, ?_, ?_, ?_⟩
    · intro me hme
      rcases List.mem_append.1 hme with hme | hme
      · exact hsnd₁ me hme
      · exact h₂.sender me hme
    · intro me hme
      rcases List.mem_append.1 hme with hme | hme
      · rw [hrcv₁ me hme]
        exact List.mem_cons_self
      · exact List.mem_cons_of_mem p (h₂.receiver me hme)
    · intro me hme
      rcases List.mem_append.1 hme with hme | hme
      · exact hfwd₁ me hme
      · exact h₂.forward me hme
    · intro q hq
      rw [List.filter_append, List.flatMap_append]
      rcases List.mem_cons.1 hq with rfl | hq
      · have h₁ : out₁.filter (fun me => me.receiver = q) = out₁ :=
          List.filter_eq_self.2 fun me hme => decide_eq_true (hrcv₁ me hme)
        have h₂' : out₂.filter (fun me => me.receiver = q) = [] := by
          refine List.filter_eq_nil_iff.2 fun me hme hq => hnot ?_
          rw [← of_decide_eq_true hq]
          exact h₂.receiver me hme
        rw [h₁, h₂', hcar₁, hl]
        exact List.append_nil _
      · have h₁ : out₁.filter (fun me => me.receiver = q) = [] := by
          refine List.filter_eq_nil_iff.2 fun me hme hq' => hnot ?_
          rw [← hrcv₁ me hme, of_decide_eq_true hq']
          exact hq
        rw [h₁, ← howes]
        exact h₂.carried q hq

/-- A stagger tick sends what the queue owes to the peers, and empties it. -/
theorem staggerTick_spec {W : World n k} {s s' : Sim n k} {time : Nat} {v : Fin n} {interval : Nat}
    (h : s.staggerTick W time v interval = some s') : W.algo.reconcilTimer = 0 ∧
      ∃ out, Emits (s.modify v LightningNode.clearQueue) out s' ∧
        Forwards W s.messages (s.nodes v) v (sorted (s.nodes v).gossipPeers) out := by
  unfold staggerTick at h
  split at h
  · cases h
  next hmode =>
  refine ⟨by omega, ?_⟩
  obtain ⟨batchSize, -, h⟩ := Option.bind_eq_some_iff.1 h
  split at h
  · next hempty =>
    have hnone : ∀ m, (s.nodes v).bq m = none := by
      intro m
      have := List.filter_eq_nil_iff.1 hempty m (List.mem_finRange m)
      simpa using this
    cases h
    refine ⟨[], ⟨fun w => ?_, rfl, rfl, (add_zero _).symm, rfl, by rw [List.append_nil]; rfl⟩,
      by simp, by simp, by simp, fun p _ => ?_⟩
    · by_cases hw : w = v
      · subst hw
        rw [modify_self, modify_self]
        refine LightningNode.untimed_eq_iff.2 ⟨?_, ?_, rfl, rfl, rfl, rfl, rfl⟩
        · funext m
          exact hnone m
        · funext m
          unfold LightningNode.clearQueue
          simp [hnone m]
      · rw [modify_of_ne _ _ hw, modify_of_ne _ _ hw]
    · symm
      apply List.filter_eq_nil_iff.2
      intro m _ hm
      obtain ⟨ms, hms, -⟩ := LightningNode.owes_iff.1 hm
      rw [hnone m] at hms
      cases hms
  · obtain ⟨s₁, hs₁, h⟩ := Option.bind_eq_some_iff.1 h
    cases h
    have hl : ∀ p, ((List.finRange k).filter fun m => ((s.nodes v).bq m).isSome).filter
        ((s.nodes v).owes p) = (List.finRange k).filter ((s.nodes v).owes p) := by
      intro p
      rw [List.filter_filter]
      apply List.filter_congr
      intro m _
      unfold LightningNode.owes
      cases (s.nodes v).bq m <;> simp
    obtain ⟨out, he, hf⟩ := staggerPeers_spec (nodup_sorted _) hl hs₁
    exact ⟨out, he.modify LightningNode.plain_clearQueue v, hf⟩

end Sim

end LnConv.Lnsim
