import LnConv.Lnsim.TreeOnly

/-!
# Redundancy on the spanning tree

A node receives the body of a message for what it is charged with, and at most once: no copy is
redundant where messages keep to the tree. Generated messages do not, as they are broadcast to all
peers, and neither does the answer to a query that names another message.
-/

namespace LnConv.Lnsim

open Netsim

variable {n k : Nat}

namespace Sim

variable {W : World n k} {s s' : Sim n k} {m : Fin k} {v : Fin n}

/-! ## Receipts -/

/-- How often a node has received the body of a message. -/
def receipts (s : Sim n k) (v : Fin n) (m : Fin k) : Nat :=
  (s.history.received.map fun me => if me.receiver = v then me.m.body.bodies.count m else 0).sum

/-- A node counts the bodies it has received, and its own broadcast. -/
def Counted (s : Sim n k) : Prop :=
  ∀ v m, s.count v m ≤ s.receipts v m + if s.history.origin m = some v then 1 else 0

theorem Counted.idle (h : Counted s) (hi : Idle s s')
    (hr : s'.history.received = s.history.received) : Counted s' := by
  intro v m
  unfold receipts
  rw [hi.count, hi.origin, hr]
  exact h v m

theorem Updated.count_le {time hops : Nat} {sender : Fin n}
    (hu : Updated W s time m v sender hops s') (w : Fin n) (m' : Fin k) :
    s'.count w m' ≤ s.count w m' + if w = v then [m].count m' else 0 := by
  by_cases hm : m' = m
  · subst hm
    rw [List.count_singleton_self]
    cases hu.counts with
    | everyone heq _ =>
      rw [heq]
      omega
    | again _ _ _ _ _ hc hw =>
      by_cases hwv : w = v
      · rw [hwv, hc, if_pos rfl]
      · rw [hw w hwv]
        omega
    | first _ _ _ _ _ _ _ hc hw =>
      by_cases hwv : w = v
      · rw [hwv, hc, if_pos rfl]
        omega
      · rw [hw w hwv]
        omega
    | last _ _ _ _ _ _ _ hnone =>
      unfold count LightningNode.metaData
      rw [hnone w]
      exact Nat.zero_le _
  · unfold count
    rw [metaData_of_seen (hu.seen_of_ne hm w)]
    omega

theorem Updates.count_le {time hops : Nat} {sender : Fin n} {ms : List (Fin k)}
    (hu : Updates W time v sender hops ms s s') (w : Fin n) (m' : Fin k) :
    s'.count w m' ≤ s.count w m' + (if w = v then ms.count m' else 0) ∧
      s'.history.received = s.history.received ∧ s'.history.origin = s.history.origin := by
  induction hu with
  | nil _ => exact ⟨Nat.le_add_right _ _, rfl, rfl⟩
  | @cons m ms s s₁ s' hu _ ih =>
    obtain ⟨hle, hr, ho⟩ := ih
    have hone := hu.count_le w m'
    rw [hu.stays.history] at hr ho
    refine ⟨?_, hr, ho⟩
    rw [← List.singleton_append, List.count_append]
    split at hle
    · next hw =>
      rw [if_pos hw] at hone ⊢
      omega
    · next hw =>
      rw [if_neg hw] at hone ⊢
      omega

theorem Counted.originated (h : Counted s) (hm : ¬s.Known m) (o : Fin n) (f : Gossip n → Gossip n) :
    Counted ((s.modifyMessage m f).originated o m) := by
  intro v m'
  have hle := h v m'
  show _ ≤ s.receipts v m' + if Function.update s.history.origin m (some o) m' = some v then 1 else 0
  rw [originated_count]
  change (if v = o ∧ m' = m then 1 else s.count v m') ≤ _
  by_cases hm' : m' = m
  · subst hm'
    rw [Function.update_self]
    split
    · next hv => rw [if_pos (by rw [hv.1]), Nat.add_comm]; exact Nat.le_add_right _ _
    · have hnone : s.history.origin m' ≠ some v := fun ho => hm ⟨v, ho⟩
      rw [if_neg hnone] at hle
      omega
  · rw [if_neg fun h => hm' h.2, Function.update_of_ne hm']
    exact hle

theorem Counted.turn (h : Counted s) (hk : KnownOnly W s) {l : Label n} (ht : Turn W s l s') :
    Counted s' := by
  cases ht with
  | quiet _ he => exact h.idle (.of_emits he) (by rw [he.history])
  | staggered _ _ he =>
    exact (h.idle (Idle.clearQueue _) rfl).idle (.of_emits he) (by rw [he.history])
  | @broadcast e m s₀ _ _ _ hd hb =>
    have h₀ : Counted s₀ := h.idle (.of_dequeued hd) (by rw [hd.history])
    rcases hb.originates with rfl | ⟨v, f, dests, size, he⟩
    · exact h₀
    · exact (h₀.originated (hk.not_known_of_dequeued hd) v f).idle (.of_emits he) (by rw [he.history])
  | @delivered e me s₀ _ _ _ ha hd =>
    have hrec : ∀ v m, s₀.receipts v m = s.receipts v m +
        if me.receiver = v then me.m.body.bodies.count m else 0 := by
      intro v m
      unfold receipts
      rw [ha.history, List.map_append, List.sum_append, List.map_singleton, List.sum_singleton]
    have hpending : ∀ v m, s₀.count v m + (if me.receiver = v then me.m.body.bodies.count m else 0) ≤
        s₀.receipts v m + if s₀.history.origin m = some v then 1 else 0 := by
      intro v m
      have hle := h v m
      rw [hrec, ha.history, (Idle.of_arrived ha).count]
      dsimp only
      omega
    have h₀ : Counted s₀ := fun v m => (Nat.le_add_right _ _).trans (hpending v m)
    cases hd with
    | silent _ he => exact h₀.idle (.of_emits he) (by rw [he.history])
    | updates hu =>
      intro v m
      have hidle : Idle s₀ (s₀.cleared me.receiver me.sender me.m.body.success) := Idle.cleared _ _ _
      obtain ⟨hle, hr, ho⟩ := hu.count_le v m
      have hp := hpending v m
      rw [hidle.count] at hle
      rw [cleared_history] at hr ho
      unfold receipts at hp ⊢
      rw [hr, ho]
      have hif : (if v = me.receiver then me.m.body.bodies.count m else 0) =
          if me.receiver = v then me.m.body.bodies.count m else 0 := if_congr eq_comm rfl rfl
      omega
    | query _ _ _ he => exact h₀.idle (.of_emits he) (by rw [he.history])
    | @invs _ success _ _ _ _ _ he =>
      have h₁ := h₀.idle (Idle.cleared me.receiver me.sender success) (by rw [cleared_history])
      exact (h₁.idle (Idle.request _ _) rfl).idle (.of_emits he) (by rw [he.history])
    | sketch _ _ _ he =>
      exact (h₀.idle (Idle.of_modify fun _ => rfl) rfl).idle (.of_emits he) (by rw [he.history])

theorem count_bodies (b : Body k) (m : Fin k) :
    b.bodies.count m = b.direct.count m + b.answered.count m := by
  cases b with
  | channelUpdateBatch batch success answer =>
    cases answer with
    | true => exact (Nat.zero_add _).symm
    | false => rfl
  | gossip _ | channelQuery _ | channelInvs _ _ _ | reconcilSketch | reconcilRequest _ => rfl

/-- No node receives a message twice or counts it twice, and no message returns to its origin. -/
def NoRedundancy (s : Sim n k) : Prop :=
  ∀ v m, s.receipts v m ≤ 1 ∧ s.count v m ≤ 1 ∧ (s.history.origin m = some v → s.receipts v m = 0)

theorem receipts_le_charge (hw : OnceWanted s) (v : Fin n) (m : Fin k) :
    s.receipts v m + (if s.history.origin m = some v then 1 else 0) ≤ s.charge v m := by
  have hsplit : s.receipts v m = (s.history.received.map (brings v m)).sum +
      (s.history.received.map (gain v m)).sum := by
    unfold receipts
    rw [← List.sum_map_add]
    refine congrArg List.sum (List.map_congr_left fun me _ => ?_)
    unfold brings gain
    split
    · exact count_bodies _ m
    · rfl
  have hle := hw.wanted v m
  unfold wanted at hle
  unfold charge arriving
  omega

theorem noRedundancy_of_treeOnly (h : TreeOnly W s) (hw : OnceWanted s) (hc : Counted s) :
    s.NoRedundancy := by
  intro v m
  have hle := (receipts_le_charge hw v m).trans (h.charge v m)
  have hcount := hc v m
  refine ⟨by omega, by omega, fun ho => ?_⟩
  rw [if_pos ho] at hle
  omega

/-- In spanning-tree mode nothing is redundant in a run in which generated messages keep to the tree
as well, and every query finds the messages it asks for. -/
theorem no_redundancy {ls : List (Label n)} (hst : W.algo.spanningTree = true)
    (hi : init W = some s) (h : Steps (step W) (KeepsToTree W) s ls s') : s'.NoRedundancy := by
  have h₀ := initial_of_init hi
  have hcount : Counted s := by
    intro v m
    unfold count LightningNode.metaData
    rw [h₀.seen]
    exact Nat.zero_le _
  obtain ⟨hk, ht, htree, hw, hc⟩ := h.invariant
    (P := fun s => KnownOnly W s ∧ AllTallied W s ∧ TreeOnly W s ∧ OnceWanted s ∧ Counted s)
    ⟨.of_initial h₀, allTallied_of_initial h₀, .of_init hst hi, .of_initial h₀, hcount⟩
    fun s l s' hs hl hstep => by
      have hturn := step_cases hstep
      obtain ⟨hk, ht, htree, hw, hc⟩ := hs
      exact ⟨hk.turn hturn, ht.turn hk hturn, htree.turn hst hk ht hl hturn,
        hw.turn hl.findsAsked hturn, hc.turn hk hturn⟩
  exact noRedundancy_of_treeOnly htree hw hc

/-! ## A tree inside of a triangle -/

def treeBatches : GossipAlgorithm := ⟨1000, 10, 0, 0, false, true, false, true⟩

/-- Nodes 0, 1 and 2 have channels with each other, and node 3 has one with 2. The search makes 1 and
2 gossip peers of 0, and 3 one of 2. -/
def triangle : World 4 1 :=
  .plain treeBatches (by decide) (.generated fun _ => 1)
    (World.channelsOf [(0, 1), (0, 2), (1, 2), (2, 3)]) []

/-- A node broadcasts an update to two others, all nodes tick, and a message of the ticks arrives. -/
def triangleRun (node : Fin 4) : List (Label 4) :=
  ⟨4, node, 0⟩ :: [4, 4, 0, 0, 0, 0, 0].map fun i => ⟨i, 0, 0⟩

/-- All peers of node 0 are its gossip peers, and what it broadcasts reaches node 3 once. -/
theorem no_redundancy_triangle : ∃ s₀ s, init triangle = some s₀ ∧
    Steps (step triangle) (KeepsToTree triangle) s₀ (triangleRun 0) s ∧ s.receipts 3 0 = 1 ∧
    s.NoRedundancy := by
  obtain ⟨s₀, s, hs₀, hs, hr⟩ := steps_of_any (step triangle) (KeepsToTree triangle) (init triangle)
    (triangleRun 0) (fun s => s.receipts 3 0 == 1) (by decide +kernel)
  exact ⟨s₀, s, hs₀, hs, beq_iff_eq.1 hr, no_redundancy rfl hs₀ hs⟩

/-- Node 1 broadcasts to node 2 as well, which is not a gossip peer and gets the update again from
node 0. -/
theorem broadcast_leaves_tree : ∃ s₀ s, init triangle = some s₀ ∧
    Steps (step triangle) IsNext s₀ (triangleRun 1) s ∧ s.receipts 2 0 = 2 ∧ s.count 2 0 = 2 ∧
    ¬s.NoRedundancy := by
  obtain ⟨s₀, s, hs₀, hs, hr⟩ := steps_of_any (step triangle) IsNext (init triangle)
    (triangleRun 1) (fun s => s.receipts 2 0 == 2 && s.count 2 0 == 2) (by decide +kernel)
  obtain ⟨hrec, hcount⟩ := Bool.and_eq_true_iff.1 hr
  have htwo := beq_iff_eq.1 hrec
  exact ⟨s₀, s, hs₀, hs, htwo, beq_iff_eq.1 hcount, fun h => absurd (h 2 0).1 (by omega)⟩

def treeInvs : GossipAlgorithm := ⟨60, 10, 0, 0, false, true, true, false⟩

/-- The nodes are on a line, and node 0 has two updates of its channel. -/
def line : World 4 2 :=
  .plain treeInvs (by decide)
    (.replay fun m => ⟨if m = 0 then 1 else 100, .channelUpdate, 0, 0, 0, m.val + 1, false⟩)
    (World.channelsOf [(0, 1), (1, 2), (2, 3)]) []

def lineRun : List (Label 4) :=
  [4, 0, 0, 0, 0, 0, 0, 1, 0, 0, 0, 0, 0, 0, 0, 0, 0].map fun i => ⟨i, 0, 0⟩

/-- Node 1 answers the query for the first update with the second, and then offers the second, which
node 2 asks for before the answer arrives. -/
theorem answer_is_redundant : ∃ s₀ s, init line = some s₀ ∧
    Steps (step line) IsNext s₀ lineRun s ∧ s.receipts 2 1 = 2 ∧ ¬s.NoRedundancy := by
  obtain ⟨s₀, s, hs₀, hs, hr⟩ := steps_of_any (step line) IsNext (init line)
    lineRun (fun s => s.receipts 2 1 == 2) (by decide +kernel)
  have htwo := beq_iff_eq.1 hr
  exact ⟨s₀, s, hs₀, hs, htwo, fun h => absurd (h 2 1).1 (by omega)⟩

end Sim

end LnConv.Lnsim
