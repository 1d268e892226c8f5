import LnConv.Lnsim.Start
import Mathlib.Algebra.BigOperators.Fin
import Mathlib.Tactic.Ring

/-!
# Every simulation ends

An event is paid for when it is pushed, together with all that may come of it: a reconcile tick
with the request, the sketch, the entries, the query and the answer that may follow, and an
entry of a broadcast queue with a message to every peer. A node enqueues a message only once,
so what is left to pay for falls with every event.
-/

namespace LnConv.Lnsim

open Netsim

variable {n k : Nat}

/-- How many events come of the arrival of a message at most, itself counted. -/
def Body.cost : Body k → Nat
  | .gossip _ => 1
  | .channelUpdateBatch _ _ _ => 1
  | .channelQuery _ => 3
  | .channelInvs _ _ _ => 5
  | .reconcilSketch => 11
  | .reconcilRequest _ => 13

/-- The same of an event. A message sent later is an event before it arrives. -/
def costOf (e : Waiting n k) : Nat :=
  match e.data with
  | .message me => me.m.body.cost
  | .messageSendAt me => me.m.body.cost + 1
  | .other (.stagger _ _) => 1
  | .other (.reconcil _ _) => 15
  | .other (.broadcast _) => 1 + 2 * n
  | .other (.payment _) => 1

namespace LightningNode

def queueSize (ln : LightningNode n k) : Nat :=
  (Finset.univ.filter fun m => (ln.bq m).isSome).card

/-- With no message more in its queue, and none new again. -/
structure Wears (ln ln' : LightningNode n k) : Prop where
  bq : ∀ m, (ln'.bq m).isSome → (ln.bq m).isSome
  new : ∀ m, (ln'.metaData m).count = 0 → (ln.metaData m).count = 0

theorem Wears.queueSize_le {ln ln' : LightningNode n k} (h : ln.Wears ln') :
    ln'.queueSize ≤ ln.queueSize :=
  Finset.card_le_card fun m hm =>
    Finset.mem_filter.2 ⟨Finset.mem_univ m, h.bq m (Finset.mem_filter.1 hm).2⟩

end LightningNode

namespace Sim

variable {W : World n k} {s s' s₁ : Sim n k} {c c' : Nat}

def queueCost (s : Sim n k) : Nat := (s.net.eq.map costOf).sum

/-- The entries of all broadcast queues. -/
def entries (s : Sim n k) : Nat := ∑ v, (s.nodes v).queueSize

/-- The nodes that a message may still be new to. -/
def freshTo (s : Sim n k) (m : Fin k) : Nat :=
  if n ≤ (s.messages m).seen then 0
  else (Finset.univ.filter fun v => ((s.nodes v).metaData m).count = 0).card

def fresh (s : Sim n k) : Nat := ∑ m, s.freshTo m

section Fresh

variable {m : Fin k}

theorem freshTo_eq_zero (h : n ≤ (s.messages m).seen) : s.freshTo m = 0 := if_pos h

theorem freshTo_le (hseen : (s.messages m).seen ≤ (s'.messages m).seen)
    (hnew : ∀ v, ((s'.nodes v).metaData m).count = 0 → ((s.nodes v).metaData m).count = 0) :
    s'.freshTo m ≤ s.freshTo m := by
  by_cases h : n ≤ (s'.messages m).seen
  · rw [freshTo_eq_zero h]
    exact Nat.zero_le _
  · unfold freshTo
    rw [if_neg h, if_neg fun h' => h (h'.trans hseen)]
    exact Finset.card_le_card fun v hv => Finset.mem_filter.2
      ⟨Finset.mem_univ v, hnew v (Finset.mem_filter.1 hv).2⟩

end Fresh

/-- From `s` to `s'` events of cost `c` were pushed, and nothing else has become more. -/
structure Costs (c : Nat) (s s' : Sim n k) : Prop where
  queue : s'.queueCost ≤ s.queueCost + c
  entries : s'.entries ≤ s.entries
  fresh : s'.fresh ≤ s.fresh

namespace Costs

theorem refl (s : Sim n k) : Costs 0 s s := ⟨le_rfl, le_rfl, le_rfl⟩

theorem trans (h : Costs c s s₁) (h' : Costs c' s₁ s') : Costs (c + c') s s' :=
  have hq := h.queue
  ⟨h'.queue.trans (by omega), h'.entries.trans h.entries, h'.fresh.trans h.fresh⟩

theorem mono (h : Costs c s s') (hc : c ≤ c') : Costs c' s s' :=
  ⟨h.queue.trans (Nat.add_le_add_left hc _), h.entries, h.fresh⟩

theorem modify (s : Sim n k) (v : Fin n) {f : LightningNode n k → LightningNode n k}
    (hf : (s.nodes v).Wears (f (s.nodes v))) : Costs 0 s (s.modify v f) := by
  refine ⟨le_rfl, Finset.sum_le_sum fun u _ => ?_, Finset.sum_le_sum fun m _ => ?_⟩
  · by_cases hu : u = v
    · subst hu
      rw [modify_self]
      exact hf.queueSize_le
    · rw [modify_of_ne _ _ hu]
  · refine freshTo_le le_rfl fun u hu => ?_
    by_cases hv : u = v
    · subst hv
      rw [modify_self] at hu
      exact hf.new m hu
    · rwa [modify_of_ne _ _ hv] at hu

theorem foldlM {α : Type} {f : Sim n k → α → Option (Sim n k)} {l : List α}
    (hf : ∀ s x s', f s x = some s' → Costs c s s') (h : l.foldlM f s = some s') :
    Costs (l.length * c) s s' := by
  induction l generalizing s with
  | nil =>
    cases h
    exact (refl _).mono (Nat.zero_le _)
  | cons x l ih =>
    rw [List.foldlM_cons] at h
    obtain ⟨s₁, hs₁, h⟩ := Option.bind_eq_some_iff.1 h
    refine ((hf _ _ _ hs₁).trans (ih h)).mono ?_
    rw [List.length_cons, Nat.succ_mul]
    omega

/-- An event is pushed. -/
theorem push {net : Network n (LightningMessage k) (Ticker n k)} {e : Waiting n k}
    (h : net.eq = s.net.eq ++ [e]) : Costs (costOf e) s { s with net := net } := by
  refine ⟨le_of_eq ?_, le_rfl, le_rfl⟩
  unfold queueCost
  rw [h, List.map_append, List.sum_append, List.map_singleton, List.sum_singleton]

end Costs

/-! ## Ticks and messages -/

def Batching.pending (b : Batching n k) : Nat := b.batch.length + b.invs.length

/-- What is collected for a peer is paid for when it is collected. -/
structure Batching.Costs (c : Nat) (b b' : Batching n k) : Prop where
  queue : b'.sim.queueCost + 6 * b'.pending ≤ b.sim.queueCost + 6 * b.pending + c
  entries : b'.sim.entries ≤ b.sim.entries
  fresh : b'.sim.fresh ≤ b.sim.fresh

namespace Batching.Costs

variable {b b' b₁ : Batching n k}

theorem refl (b : Batching n k) : Batching.Costs 0 b b := ⟨le_rfl, le_rfl, le_rfl⟩

theorem trans (h : Batching.Costs c b b₁) (h' : Batching.Costs c' b₁ b') :
    Batching.Costs (c + c') b b' :=
  have hq := h.queue
  ⟨h'.queue.trans (by omega), h'.entries.trans h.entries, h'.fresh.trans h.fresh⟩

/-- An entry is collected. -/
theorem collect (hs : b'.sim = b.sim) (hp : b'.pending = b.pending + 1) : Batching.Costs 6 b b' := by
  refine ⟨?_, (congrArg Sim.entries hs).le, (congrArg Sim.fresh hs).le⟩
  rw [hs, hp]
  omega

/-- A message is sent, with entries that were paid for. -/
theorem send (h : Sim.Costs c b.sim b'.sim) (hc : c + 6 * b'.pending ≤ 6 * b.pending) :
    Batching.Costs 0 b b' := by
  refine ⟨?_, h.entries, h.fresh⟩
  have hq := h.queue
  omega

end Batching.Costs

end Sim

namespace Simulation

variable {W : World n k}

end Simulation

end LnConv.Lnsim
