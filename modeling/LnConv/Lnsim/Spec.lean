import LnConv.Lib.Loop
import LnConv.Lnsim.Sim
import LnConv.Netsim.Counters
import Mathlib.Data.Multiset.Bind
import Mathlib.Algebra.BigOperators.Group.Multiset.Basic

/-!
# What the handlers do

A handler changes the state in a way its lemma writes out, and beyond that it sends messages
and schedules ticks. `Emits` is the second part: two states that differ by messages sent and
by ticks.
-/

namespace LnConv.Lnsim

open Netsim

variable {n k : Nat}

namespace LightningNode

/-- A node without its tickers. -/
def untimed (ln : LightningNode n k) : LightningNode n k :=
  { ln with gossipTickers := fun _ => none, willTick := false }

theorem untimed_eq_iff {a b : LightningNode n k} : a.untimed = b.untimed ↔
    a.bq = b.bq ∧ a.seen = b.seen ∧ a.seenByChannel = b.seenByChannel ∧
      a.gossipPeers = b.gossipPeers ∧ a.reconcilSets = b.reconcilSets ∧
      a.requestedInv = b.requestedInv ∧ a.tickOffset = b.tickOffset := by
  cases a
  cases b
  simp [untimed]

/-- A change that neither reads nor writes the tickers. -/
def Plain (f : LightningNode n k → LightningNode n k) : Prop :=
  ∀ a b : LightningNode n k, a.untimed = b.untimed → (f a).untimed = (f b).untimed

end LightningNode

namespace Sim

/-! ## What is under way -/

/-- The messages under way: those sent at a later time, and those to be delivered. -/
def flight (s : Sim n k) : Multiset (Packet n k) := s.net.eq.filterMap fun e => e.data.hop

/-- The message that an event broadcasts. -/
def broadcastOf (e : Event n (LightningMessage k) (Ticker n k)) : Option (Fin k) :=
  match e.data with
  | .other (.broadcast m) => some m
  | _ => none

/-- The messages whose broadcast waits. -/
def queued (s : Sim n k) : Multiset (Fin k) := s.net.eq.filterMap broadcastOf

/-- From `s` to `s'`, `out` was sent and ticks were scheduled. -/
structure Emits (s : Sim n k) (out : List (Packet n k)) (s' : Sim n k) : Prop where
  nodes : ∀ v, (s'.nodes v).untimed = (s.nodes v).untimed
  messages : s'.messages = s.messages
  seenLogger : s'.seenLogger = s.seenLogger
  flight : s'.flight = s.flight + (out : Multiset (Packet n k))
  queued : s'.queued = s.queued
  history : s'.history = { s.history with sent := s.history.sent ++ out }

namespace Emits

variable {s s₁ s₂ s' : Sim n k} {out out' : List (Packet n k)}

theorem refl (s : Sim n k) : Emits s [] s where
  nodes _ := rfl
  messages := rfl
  seenLogger := rfl
  flight := (add_zero _).symm
  queued := rfl
  history := by rw [List.append_nil]

theorem trans (h : Emits s out s₁) (h' : Emits s₁ out' s₂) : Emits s (out ++ out') s₂ where
  nodes v := (h'.nodes v).trans (h.nodes v)
  messages := h'.messages.trans h.messages
  seenLogger := h'.seenLogger.trans h.seenLogger
  flight := by rw [h'.flight, h.flight, add_assoc, Multiset.coe_add]
  queued := h'.queued.trans h.queued
  history := by rw [h'.history, h.history, List.append_assoc]

theorem bq (h : Emits s out s') (v : Fin n) : (s'.nodes v).bq = (s.nodes v).bq :=
  (LightningNode.untimed_eq_iff.1 (h.nodes v)).1

theorem seen (h : Emits s out s') (v : Fin n) : (s'.nodes v).seen = (s.nodes v).seen :=
  (LightningNode.untimed_eq_iff.1 (h.nodes v)).2.1

theorem seenByChannel (h : Emits s out s') (v : Fin n) :
    (s'.nodes v).seenByChannel = (s.nodes v).seenByChannel :=
  (LightningNode.untimed_eq_iff.1 (h.nodes v)).2.2.1

theorem gossipPeers (h : Emits s out s') (v : Fin n) :
    (s'.nodes v).gossipPeers = (s.nodes v).gossipPeers :=
  (LightningNode.untimed_eq_iff.1 (h.nodes v)).2.2.2.1

theorem reconcilSets (h : Emits s out s') (v : Fin n) :
    (s'.nodes v).reconcilSets = (s.nodes v).reconcilSets :=
  (LightningNode.untimed_eq_iff.1 (h.nodes v)).2.2.2.2.1

theorem requestedInv (h : Emits s out s') (v : Fin n) :
    (s'.nodes v).requestedInv = (s.nodes v).requestedInv :=
  (LightningNode.untimed_eq_iff.1 (h.nodes v)).2.2.2.2.2.1

/-- What is sent does not depend on a change made to a node before or after. -/
theorem modify (h : Emits s out s') {f : LightningNode n k → LightningNode n k}
    (hf : LightningNode.Plain f) (v : Fin n) : Emits (s.modify v f) out (s'.modify v f) where
  nodes w := by
    by_cases hw : w = v
    · subst hw
      rw [modify_self, modify_self]
      exact hf _ _ (h.nodes w)
    · rw [modify_of_ne _ f hw, modify_of_ne _ f hw]
      exact h.nodes w
  messages := h.messages
  seenLogger := h.seenLogger
  flight := h.flight
  queued := h.queued
  history := h.history

/-- A change of the tickers alone. -/
theorem of_modify {s : Sim n k} {f : LightningNode n k → LightningNode n k} (v : Fin n)
    (hf : (f (s.nodes v)).untimed = (s.nodes v).untimed) : Emits s [] (s.modify v f) where
  nodes w := by
    by_cases hw : w = v
    · subst hw
      rw [modify_self]
      exact hf
    · rw [modify_of_ne _ f hw]
  messages := rfl
  seenLogger := rfl
  flight := (add_zero _).symm
  queued := rfl
  history := by rw [List.append_nil]; rfl

/-- A loop sends what its turns send. -/
theorem foldlM {α : Type} {f : Sim n k → α → Option (Sim n k)} {out : α → List (Packet n k)}
    {l : List α} (hf : ∀ s a s', a ∈ l → f s a = some s' → Emits s (out a) s')
    (h : l.foldlM f s = some s') : Emits s (l.flatMap out) s' := by
  induction l generalizing s with
  | nil =>
    cases h
    exact refl _
  | cons a l ih =>
    rw [List.foldlM_cons] at h
    obtain ⟨s₁, ha, hl⟩ := Option.bind_eq_some_iff.1 h
    exact (hf _ _ _ List.mem_cons_self ha).trans
      (ih (fun s b s' hb => hf s b s' (List.mem_cons_of_mem a hb)) hl)

/-- Turns that send nothing. -/
theorem foldlM_nil {α : Type} {f : Sim n k → α → Option (Sim n k)} {l : List α}
    (hf : ∀ s a s', f s a = some s' → Emits s [] s') (h : l.foldlM f s = some s') :
    Emits s [] s' := by
  have h' := foldlM (fun s a s' _ => hf s a s') h
  rwa [List.flatMap_eq_nil_iff.2 fun _ _ => rfl] at h'

end Emits

theorem flight_append {s s' : Sim n k} {e : Event n (LightningMessage k) (Ticker n k)}
    (h : s'.net.eq = s.net.eq ++ [e]) :
    s'.flight = s.flight + (e.data.hop.toList : Multiset (Packet n k)) := by
  unfold flight
  rw [h, List.filterMap_append, ← Multiset.coe_add]
  cases hh : e.data.hop <;> simp [hh]

theorem queued_append {s s' : Sim n k} {e : Event n (LightningMessage k) (Ticker n k)}
    (h : s'.net.eq = s.net.eq ++ [e]) :
    s'.queued = s.queued + ((broadcastOf e).toList : Multiset (Fin k)) := by
  unfold queued
  rw [h, List.filterMap_append, ← Multiset.coe_add]
  cases hh : broadcastOf e <;> simp [hh]

theorem newTicker_eq {s s' : Sim n k} {interval offset : Nat} {q : Ticker n k}
    (h : s.newTicker interval offset q = some s') :
    s' = { s with net := s'.net } ∧ ∃ t, s'.net.eq = s.net.eq ++ [⟨t, .other q⟩] := by
  obtain ⟨net, hnet, h⟩ := Option.bind_eq_some_iff.1 h
  cases h
  exact ⟨rfl, _, (Network.push_eq hnet).2.1⟩

theorem newTicker_emits {s s' : Sim n k} {interval offset : Nat} {q : Ticker n k}
    (hq : ∀ m, q ≠ .broadcast m) (h : s.newTicker interval offset q = some s') : Emits s [] s' := by
  obtain ⟨hs, t, heq⟩ := newTicker_eq h
  have hb : broadcastOf (⟨t, .other q⟩ : Event n (LightningMessage k) (Ticker n k)) = none := by
    cases q with
    | broadcast m => exact absurd rfl (hq m)
    | stagger v interval => rfl
    | reconcil v peerID => rfl
    | payment pe => rfl
  constructor
  · intro v; rw [hs]
  · rw [hs]
  · rw [hs]
  · rw [flight_append heq]; rfl
  · rw [queued_append heq, hb]; exact add_zero _
  · rw [hs, List.append_nil]

/-- What every payment that is pushed keeps, `injectPayments` keeps. -/
theorem injectPayments_invariant {W : World n k} {P : Sim n k → Prop} {s s' : Sim n k}
    (hP : ∀ s interval offset pe s', P s → s.newTicker interval offset (.payment pe) = some s' → P s')
    (h : P s) (hs : s.injectPayments W = some s') : P s' := by
  obtain ⟨b, hb, rfl⟩ := Option.map_eq_some_iff.1 hs
  refine foldlM_invariant (P := fun b : Sim n k × UInt64 => P b.1) (fun b p _ b' hb hp => ?_) h hb
  obtain ⟨net, hnet, hp⟩ := Option.bind_eq_some_iff.1 hp
  cases hp
  refine hP b.1 (p.2 * (W.paymentInterval / W.payments.length)) b.1.time
    ⟨p.1.1, p.1.2, b.2 * 1000⟩ _ hb ?_
  unfold newTicker
  rw [Nat.add_sub_cancel_left, hnet]
  rfl

theorem injectPayments_emits {W : World n k} {s s' : Sim n k} (h : s.injectPayments W = some s') :
    Emits s [] s' := by
  refine injectPayments_invariant (P := fun t => Emits s [] t) (fun t _ _ pe t' ht hs => ?_)
    (Emits.refl s) h
  exact ht.trans (newTicker_emits (by intro m hm; cases hm) hs)

theorem sendWithHops_emits {W : World n k} {s s' : Sim n k} {currTime time : Nat} {src dst : Fin n}
    {m : LightningMessage k} {hops : Nat}
    (h : s.sendWithHops W currTime time src dst m hops = some s') :
    Emits s [⟨m, src, dst, hops + 1⟩] s' := by
  obtain ⟨net, hnet, h⟩ := Option.bind_eq_some_iff.1 h
  have heq : ∃ e, net.eq = s.net.eq ++ [e] ∧ e.data.hop = some ⟨m, src, dst, hops + 1⟩ ∧
      broadcastOf e = none := by
    unfold Network.sendMessageWithHops at hnet
    split at hnet
    · cases hnet
    next hne =>
    split at hnet
    · obtain ⟨⟨t, ht⟩, -⟩ := Network.pushMessageEvent_eq hne hnet
      exact ⟨_, ht, rfl, rfl⟩
    · exact ⟨_, (Network.push_eq hnet).2.1, rfl, rfl⟩
  obtain ⟨e, he, hhop, hb⟩ := heq
  cases h
  constructor
  · intro v; rfl
  · rfl
  · rfl
  · rw [flight_append he, hhop]; rfl
  · rw [queued_append he, hb]; exact add_zero _
  · rfl

theorem send_emits {W : World n k} {s s' : Sim n k} {currTime time : Nat} {src dst : Fin n}
    {m : LightningMessage k} (h : s.send W currTime time src dst m = some s') :
    Emits s [⟨m, src, dst, 1⟩] s' := sendWithHops_emits h

/-! ## Ticks -/

theorem scheduleStaggerTick_emits {W : World n k} {s s' : Sim n k} {v : Fin n} {currTime : Nat}
    (h : s.scheduleStaggerTick W v currTime = some s') : Emits s [] s' := by
  simp only [scheduleStaggerTick] at h
  split at h
  · obtain ⟨t, -, h⟩ := Option.bind_eq_some_iff.1 h
    obtain ⟨s₁, hs₁, h⟩ := Option.bind_eq_some_iff.1 h
    cases h
    have h₁ : Emits s [] s₁ := newTicker_emits (by intro m hm; cases hm) hs₁
    exact h₁.trans (Emits.of_modify v rfl)
  · cases h
    exact Emits.refl _

theorem scheduleReconcilTick_emits {W : World n k} {s s' : Sim n k} {v peerID : Fin n}
    {currTime : Nat} (h : s.scheduleReconcilTick W v currTime peerID = some s') :
    Emits s [] s' := by
  obtain ⟨t, -, h⟩ := Option.bind_eq_some_iff.1 h
  split at h
  · cases h
    exact Emits.refl _
  · obtain ⟨t', -, h⟩ := Option.bind_eq_some_iff.1 h
    have hm : Emits s [] (s.modify v fun ln =>
        { ln with gossipTickers := Function.update ln.gossipTickers peerID
                    (some { t with willTick := true }) }) := Emits.of_modify v rfl
    exact hm.trans (newTicker_emits (by intro m hm; cases hm) h)

theorem scheduleReconcilTicks_emits {W : World n k} {s s' : Sim n k} {v : Fin n} {currTime : Nat}
    (h : s.scheduleReconcilTicks W v currTime = some s') : Emits s [] s' := by
  obtain ⟨s₁, hs₁, h⟩ := Option.bind_eq_some_iff.1 h
  have h₁ := Emits.foldlM_nil (fun _ _ _ => scheduleReconcilTick_emits) hs₁
  exact h₁.trans (Emits.foldlM_nil (fun _ _ _ => scheduleReconcilTick_emits) h)

theorem reconcileTick_emits {W : World n k} {s s' : Sim n k} {time : Nat} {v peerID : Fin n}
    (h : s.reconcileTick W time v peerID = some s') :
    ∃ size, Emits s [⟨⟨.reconcilRequest size, 8⟩, v, peerID, 1⟩] s' := by
  obtain ⟨t, -, h⟩ := Option.bind_eq_some_iff.1 h
  obtain ⟨set, -, h⟩ := Option.bind_eq_some_iff.1 h
  have hm : Emits s [] (s.modify v fun ln =>
      { ln with gossipTickers := Function.update ln.gossipTickers peerID (some ⟨time, false⟩) }) :=
    Emits.of_modify v rfl
  exact ⟨set.card, hm.trans (send_emits h)⟩

end Sim

end LnConv.Lnsim
