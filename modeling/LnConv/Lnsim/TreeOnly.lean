import LnConv.Lnsim.Inventory
import LnConv.Lnsim.SpanningTree

/-!
# Messages that keep to the tree

A message crosses the forest away from its origin, so a node gets it over one edge: as a body, or,
where the others only offer what they have, as a body from the origin or as the answer to the one
query for it. What a node is sent, has been sent or has asked for adds up to at most one.
-/

namespace LnConv.Lnsim

open Netsim

variable {n k : Nat}

/-- Only the origin sends a message without being asked for it. -/
def World.Announces (W : World n k) : Prop :=
  0 < W.algo.reconcilTimer ∨ W.algo.sendBatchUpdates = false ∧ W.algo.sendInvs = true

/-- The forest, with the nodes outside of it to which `o` broadcasts. -/
def World.graphFrom (W : World n k) (o : Fin n) : SimpleGraph (Fin n) :=
  withLeaves W.treeGraph o ((W.peers o).filter fun p => W.treePeers p = ∅)

namespace Sim

variable {W : World n k} {s s' : Sim n k} {m : Fin k} {u v w : Fin n}

/-! ## The way of a message -/

theorem graphFrom_isAcyclic (hst : W.algo.spanningTree = true) (o : Fin n) :
    (W.graphFrom o).IsAcyclic := by
  obtain ⟨hG, hadj⟩ := treeGraph_spec hst
  apply isAcyclic_withLeaves hG
  intro v hv
  obtain ⟨hp, hnone⟩ := Finset.mem_filter.1 hv
  refine ⟨ne_of_mem_peers hst hp, fun x hx => ?_⟩
  have hin := (hadj v x).1 hx.symm
  rw [hnone] at hin
  exact absurd hin (Finset.notMem_empty x)

theorem graphFrom_adj (hst : W.algo.spanningTree = true) (o : Fin n) (h : v ∈ W.treePeers u) :
    (W.graphFrom o).Adj u v := by
  apply withLeaves_adj.2
  exact .inl (((treeGraph_spec hst).2 u v).2 h)

theorem graphFrom_adj_peer (hst : W.algo.spanningTree = true) {o p : Fin n} (hp : p ∈ W.peers o)
    (h : p ∈ W.treePeers o ∨ W.treePeers p = ∅) : (W.graphFrom o).Adj o p := by
  rcases h with h | h
  · exact graphFrom_adj hst o h
  · apply withLeaves_adj.2
    exact .inr ⟨(ne_of_mem_peers hst hp).symm, .inl ⟨rfl, Finset.mem_filter.2 ⟨hp, h⟩⟩⟩

/-- The way of the message from its origin to `v` ends with the edge from `u`. -/
def Crosses (W : World n k) (s : Sim n k) (m : Fin k) (u v : Fin n) : Prop :=
  ∃ o, s.history.origin m = some o ∧ Away (W.graphFrom o) o u v

namespace Crosses

theorem unique (h : Crosses W s m u v) (hst : W.algo.spanningTree = true) (h' : Crosses W s m w v) :
    u = w := by
  obtain ⟨o, ho, h⟩ := h
  obtain ⟨o', ho', h'⟩ := h'
  obtain rfl : o = o' := Option.some.inj (ho.symm.trans ho')
  exact h.unique (graphFrom_isAcyclic hst o) h'

theorem origin_ne (h : Crosses W s m u v) : s.history.origin m ≠ some v := by
  obtain ⟨o, ho, h⟩ := h
  rw [ho]
  exact fun heq => h.ne (Option.some.inj heq).symm

theorem step (h : Crosses W s m u v) (hst : W.algo.spanningTree = true) (hw : w ∈ W.treePeers v)
    (hne : w ≠ u) : Crosses W s m v w := by
  obtain ⟨o, ho, h⟩ := h
  exact ⟨o, ho, h.step (graphFrom_isAcyclic hst o) (graphFrom_adj hst o hw) hne⟩

theorem known (h : Crosses W s m u v) : s.Known m := by
  obtain ⟨o, ho, -⟩ := h
  exact ⟨o, ho⟩

end Crosses

/-- `u` sends the message to `v` without being asked. -/
structure Directs (W : World n k) (s : Sim n k) (m : Fin k) (u v : Fin n) : Prop where
  crosses : Crosses W s m u v
  seen : u ∈ s.seenBy m
  origin : W.Announces → s.history.origin m = some u

/-- `u` offers the message to `v`. -/
structure Offers (W : World n k) (s : Sim n k) (m : Fin k) (u v : Fin n) : Prop where
  announces : W.Announces
  crosses : Crosses W s m u v
  seen : u ∈ s.seenBy m
  origin : s.history.origin m ≠ some u

theorem Crosses.later (h : Crosses W s m u v) (hl : Later s s') : Crosses W s' m u v := by
  obtain ⟨o, ho, h⟩ := h
  exact ⟨o, hl.origin m o ho, h⟩

theorem Directs.later (h : Directs W s m u v) (hl : Later s s') : Directs W s' m u v :=
  ⟨h.crosses.later hl, hl.seenBy m h.seen, fun ha => hl.origin m u (h.origin ha)⟩

theorem Offers.later (h : Offers W s m u v) (hl : Later s s') : Offers W s' m u v := by
  refine ⟨h.announces, h.crosses.later hl, hl.seenBy m h.seen, fun heq => h.origin ?_⟩
  obtain ⟨o, ho⟩ := h.crosses.known
  rw [hl.origin m o ho] at heq
  rwa [ho]

/-- A message under way crosses the forest as the messages in it do. -/
structure OnPath (W : World n k) (s : Sim n k) (me : Packet n k) : Prop where
  direct : ∀ m ∈ me.m.body.direct, Directs W s m me.sender me.receiver
  offered : ∀ m ∈ me.m.body.offered, Offers W s m me.sender me.receiver
  asked : ∀ m ∈ me.m.body.asked, Crosses W s m me.receiver me.sender
  answered : ∀ m ∈ me.m.body.answered, Crosses W s m me.sender me.receiver
  success : me.m.body.success = true → me.sender ∈ W.treePeers me.receiver

theorem OnPath.later {me : Packet n k} (h : OnPath W s me) (hl : Later s s') : OnPath W s' me :=
  ⟨fun m hm => (h.direct m hm).later hl, fun m hm => (h.offered m hm).later hl,
    fun m hm => (h.asked m hm).later hl, fun m hm => (h.answered m hm).later hl, h.success⟩

/-- A message that is handled crossed the edge to the node that handles it. -/
theorem OnPath.bodies {me : Packet n k} (h : OnPath W s me) (hm : m ∈ me.m.body.bodies) :
    Crosses W s m me.sender me.receiver := by
  cases hb : me.m.body with
  | gossip m' =>
    rw [hb] at hm
    refine (h.direct m ?_).crosses
    rw [hb]
    exact hm
  | channelUpdateBatch batch success answer =>
    rw [hb] at hm
    cases answer with
    | true =>
      apply h.answered m
      rw [hb]
      exact hm
    | false =>
      refine (h.direct m ?_).crosses
      rw [hb]
      exact hm
  | channelQuery _ | channelInvs _ _ _ | reconcilSketch | reconcilRequest _ =>
    rw [hb] at hm
    cases hm

/-! ## What a node is charged with -/

/-- How often a packet brings the message to a node that did not ask for it. -/
def brings (v : Fin n) (m : Fin k) (me : Packet n k) : Nat :=
  if me.receiver = v then me.m.body.direct.count m else 0

/-- The bodies that are sent to a node without being asked for. -/
def arriving (s : Sim n k) (v : Fin n) (m : Fin k) : Nat :=
  (s.flight.map (brings v m)).sum + (s.history.received.map (brings v m)).sum

/-- What a node is sent, has asked for, or has broadcast. -/
def charge (s : Sim n k) (v : Fin n) (m : Fin k) : Nat :=
  s.arriving v m + (if m ∈ (s.nodes v).requestedInv then 1 else 0) +
    if s.history.origin m = some v then 1 else 0

theorem arriving_emits {out : List (Packet n k)} (he : Emits s out s') (v : Fin n) (m : Fin k) :
    s'.arriving v m = s.arriving v m + (out.map (brings v m)).sum := by
  unfold arriving
  rw [he.flight, he.history, Multiset.map_add, Multiset.sum_add, Multiset.map_coe, Multiset.sum_coe]
  exact Nat.add_right_comm _ _ _

theorem charge_emits {out : List (Packet n k)} (he : Emits s out s') (v : Fin n) (m : Fin k) :
    s'.charge v m = s.charge v m + (out.map (brings v m)).sum := by
  unfold charge
  rw [arriving_emits he, he.requestedInv, he.history]
  dsimp only
  omega

theorem arriving_arrived {me : Packet n k} (ha : Arrived s me s') (v : Fin n) (m : Fin k) :
    s'.arriving v m = s.arriving v m := by
  unfold arriving
  rw [ha.flight, ha.history, Multiset.map_cons, Multiset.sum_cons, List.map_append, List.sum_append,
    List.map_singleton, List.sum_singleton]
  omega

theorem exists_of_arriving_ne_zero (h : s.arriving v m ≠ 0) :
    ∃ me, (me ∈ s.flight ∨ me ∈ s.history.received) ∧ me.receiver = v ∧ m ∈ me.m.body.direct := by
  have hbrings : ∀ me : Packet n k, brings v m me ≠ 0 → me.receiver = v ∧ m ∈ me.m.body.direct := by
    intro me hme
    unfold brings at hme
    split at hme
    · next hv => exact ⟨hv, List.count_pos_iff.1 (Nat.pos_of_ne_zero hme)⟩
    · exact absurd rfl hme
  unfold arriving at h
  by_cases hf : (s.flight.map (brings v m)).sum = 0
  · have hr : (s.history.received.map (brings v m)).sum ≠ 0 := by omega
    obtain ⟨x, hx, hne⟩ : ∃ x ∈ s.history.received.map (brings v m), x ≠ 0 := by
      by_contra hall
      push Not at hall
      exact hr (List.sum_eq_zero hall)
    obtain ⟨me, hme, rfl⟩ := List.mem_map.1 hx
    exact ⟨me, .inr hme, hbrings me hne⟩
  · obtain ⟨x, hx, hne⟩ : ∃ x ∈ s.flight.map (brings v m), x ≠ 0 := by
      by_contra hall
      push Not at hall
      exact hf (Multiset.sum_eq_zero hall)
    obtain ⟨me, hme, rfl⟩ := Multiset.mem_map.1 hx
    exact ⟨me, .inl hme, hbrings me hne⟩

theorem sum_brings_eq_zero {out : List (Packet n k)} (hout : ∀ me ∈ out, me.m.body.direct = [])
    (v : Fin n) (m : Fin k) : (out.map (brings v m)).sum = 0 := by
  apply List.sum_eq_zero
  intro x hx
  obtain ⟨me, hme, rfl⟩ := List.mem_map.1 hx
  unfold brings
  rw [hout me hme, List.count_nil, ite_self]

/-- Every message crosses the forest away from its origin, and no node is charged twice. -/
structure TreeOnly (W : World n k) (s : Sim n k) : Prop where
  rooted : Rooted W s
  flight : ∀ me ∈ s.flight, OnPath W s me
  received : ∀ me ∈ s.history.received, ∀ m ∈ me.m.body.direct, Directs W s m me.sender me.receiver
  queue : ∀ v m ms, (s.nodes v).bq m = some ms →
    v ∈ s.seenBy m ∧ ∃ u ∈ ms.senders, Crosses W s m u v
  sets : ∀ v p set, (s.nodes v).reconcilSets p = some set → ∀ m ∈ set, Offers W s m v p
  requested : ∀ v, ∀ m ∈ (s.nodes v).requestedInv, ∃ u, Offers W s m u v
  charge : ∀ v m, s.charge v m ≤ 1
  owed : ¬W.Announces → ∀ u v m, v ∈ (s.nodes u).gossipPeers → (s.nodes u).owes v m = true →
    s.charge v m = 0

namespace TreeOnly

/-- Whence a node can be charged with a message. -/
theorem charged (h : TreeOnly W s) (hc : s.charge v m ≠ 0) : s.history.origin m = some v ∨
    m ∈ (s.nodes v).requestedInv ∨ ∃ u, Directs W s m u v := by
  unfold Sim.charge at hc
  by_cases hr : m ∈ (s.nodes v).requestedInv
  · exact .inr (.inl hr)
  by_cases ho : s.history.origin m = some v
  · exact .inl ho
  rw [if_neg hr, if_neg ho] at hc
  obtain ⟨me, hme, hv, hm⟩ := exists_of_arriving_ne_zero (by simpa using hc)
  refine .inr (.inr ⟨me.sender, ?_⟩)
  rcases hme with hme | hme
  · exact hv ▸ (h.flight me hme).direct m hm
  · exact hv ▸ h.received me hme m hm

/-- What a node owes crosses the edge to the peer it is owed to. -/
theorem crosses_of_owes (h : TreeOnly W s) (hst : W.algo.spanningTree = true)
    (hp : v ∈ (s.nodes u).gossipPeers) (ho : (s.nodes u).owes v m = true) :
    Crosses W s m u v ∧ u ∈ s.seenBy m ∧ s.history.origin m ≠ some u := by
  obtain ⟨ms, hms, hnot⟩ := LightningNode.owes_iff.1 ho
  obtain ⟨hseen, x, hx, hc⟩ := h.queue u m ms hms
  refine ⟨hc.step hst (h.rooted.gossipPeers u v hp) ?_, hseen, hc.origin_ne⟩
  rintro rfl
  exact hnot hx

/-- A message offered to a node that has not asked for it is new to the node. -/
theorem charge_eq_zero_of_offers (h : TreeOnly W s) (hst : W.algo.spanningTree = true)
    (ho : Offers W s m u v) (hr : m ∉ (s.nodes v).requestedInv) : s.charge v m = 0 := by
  by_contra hc
  rcases h.charged hc with hv | hr' | ⟨w, hd⟩
  · exact ho.crosses.origin_ne hv
  · exact hr hr'
  · have hw := hd.origin ho.announces
    rw [hd.crosses.unique hst ho.crosses] at hw
    exact ho.origin hw

/-! ## Messages sent, nodes changed -/

/-- A step that forgets nothing, and adds what fits. -/
theorem of_later (h : TreeOnly W s) (hl : Later s s') (hroot : Rooted W s')
    (hflight : ∀ me ∈ s'.flight, me ∈ s.flight ∨ OnPath W s' me)
    (hreceived : ∀ me ∈ s'.history.received, me ∈ s.history.received ∨
      ∀ m ∈ me.m.body.direct, Directs W s' m me.sender me.receiver)
    (hqueue : ∀ v m ms', (s'.nodes v).bq m = some ms' →
      (∃ ms, (s.nodes v).bq m = some ms ∧ ms.senders ⊆ ms'.senders) ∨
        v ∈ s'.seenBy m ∧ ∃ u ∈ ms'.senders, Crosses W s' m u v)
    (hsets : ∀ v p set', (s'.nodes v).reconcilSets p = some set' → ∀ m ∈ set',
      (∃ set, (s.nodes v).reconcilSets p = some set ∧ m ∈ set) ∨ Offers W s' m v p)
    (hreq : ∀ v, ∀ m ∈ (s'.nodes v).requestedInv,
      m ∈ (s.nodes v).requestedInv ∨ ∃ u, Offers W s' m u v)
    (hcharge : ∀ v m, s'.charge v m ≤ 1)
    (howed : ¬W.Announces → ∀ u v m, v ∈ (s'.nodes u).gossipPeers →
      (s'.nodes u).owes v m = true → s'.charge v m = 0) : TreeOnly W s' where
  rooted := hroot
  flight me hme := by
    rcases hflight me hme with hme | hme
    · exact (h.flight me hme).later hl
    · exact hme
  received me hme m hm := by
    rcases hreceived me hme with hme | hme
    · exact (h.received me hme m hm).later hl
    · exact hme m hm
  queue v m ms' hms' := by
    rcases hqueue v m ms' hms' with ⟨ms, hms, hsub⟩ | hnew
    · obtain ⟨hseen, u, hu, hc⟩ := h.queue v m ms hms
      exact ⟨hl.seenBy m hseen, u, hsub hu, hc.later hl⟩
    · exact hnew
  sets v p set' hset' m hm := by
    rcases hsets v p set' hset' m hm with ⟨set, hset, hm⟩ | hnew
    · exact (h.sets v p set hset m hm).later hl
    · exact hnew
  requested v m hm := by
    rcases hreq v m hm with hm | hnew
    · obtain ⟨u, hu⟩ := h.requested v m hm
      exact ⟨u, hu.later hl⟩
    · exact hnew
  charge := hcharge
  owed := howed

/-- A step that leaves alone what the nodes keep for each other. -/
theorem of_same (h : TreeOnly W s) (hl : Later s s')
    (hpeers : ∀ v, (s'.nodes v).gossipPeers = (s.nodes v).gossipPeers)
    (hbq : ∀ v, (s'.nodes v).bq = (s.nodes v).bq)
    (hsets : ∀ v, (s'.nodes v).reconcilSets = (s.nodes v).reconcilSets)
    (hreq : ∀ v, (s'.nodes v).requestedInv = (s.nodes v).requestedInv)
    (hflight : ∀ me ∈ s'.flight, me ∈ s.flight ∨ OnPath W s' me)
    (hreceived : ∀ me ∈ s'.history.received, me ∈ s.history.received ∨
      ∀ m ∈ me.m.body.direct, Directs W s' m me.sender me.receiver)
    (hcharge : ∀ v m, s'.charge v m ≤ 1)
    (howed : ¬W.Announces → ∀ u v m, v ∈ (s.nodes u).gossipPeers →
      (s.nodes u).owes v m = true → s'.charge v m = 0) : TreeOnly W s' := by
  refine h.of_later hl ⟨fun u v hv => ?_, fun u v hset => ?_⟩ hflight hreceived
    (fun v m ms hms => ?_) (fun v p set hset m hm => ?_) (fun v m hm => ?_) hcharge
    fun ha u v m hv ho => ?_
  · rw [hpeers] at hv
    exact h.rooted.gossipPeers u v hv
  · rw [hsets] at hset
    exact h.rooted.sets u v hset
  · rw [hbq] at hms
    exact .inl ⟨ms, hms, Finset.Subset.refl _⟩
  · rw [hsets] at hset
    exact .inl ⟨set, hset, hm⟩
  · rw [hreq] at hm
    exact .inl hm
  · rw [hpeers] at hv
    unfold LightningNode.owes at ho
    rw [hbq] at ho
    exact howed ha u v m hv ho

theorem emits (h : TreeOnly W s) {out : List (Packet n k)} (he : Emits s out s')
    (hout : ∀ me ∈ out, OnPath W s me)
    (hcharge : ∀ v m, s.charge v m + (out.map (brings v m)).sum ≤ 1)
    (howed : ¬W.Announces → ∀ u v m, v ∈ (s.nodes u).gossipPeers → (s.nodes u).owes v m = true →
      (out.map (brings v m)).sum = 0) : TreeOnly W s' := by
  have hl : Later s s' := (Idle.of_emits he).later
  refine h.of_same hl he.gossipPeers he.bq he.reconcilSets he.requestedInv (fun me hme => ?_)
    (fun me hme => .inl ?_) (fun v m => ?_) fun ha u v m hp ho => ?_
  · rw [he.flight, Multiset.mem_add] at hme
    exact hme.imp_right fun hme => (hout me (Multiset.mem_coe.1 hme)).later hl
  · rwa [he.history] at hme
  · rw [charge_emits he]
    exact hcharge v m
  · rw [charge_emits he, h.owed ha u v m hp ho, howed ha u v m hp ho]

/-- What is sent is asked for, offered or nothing of both. -/
theorem emits_indirect (h : TreeOnly W s) {out : List (Packet n k)} (he : Emits s out s')
    (hout : ∀ me ∈ out, OnPath W s me ∧ me.m.body.direct = []) : TreeOnly W s' := by
  have hzero := sum_brings_eq_zero fun me hme => (hout me hme).2
  refine h.emits he (fun me hme => (hout me hme).1) (fun v m => ?_) fun _ _ v m _ _ => hzero v m
  rw [hzero]
  exact h.charge v m

/-- A node forgets of its queue, clears sets for its neighbours, or requests what it is offered. -/
theorem modify (h : TreeOnly W s) (hst : W.algo.spanningTree = true) {v : Fin n}
    {f : LightningNode n k → LightningNode n k} {new : Finset (Fin k)}
    (hbq : ∀ m ms, (f (s.nodes v)).bq m = some ms → (s.nodes v).bq m = some ms)
    (hpeers : (f (s.nodes v)).gossipPeers = (s.nodes v).gossipPeers)
    (hsets : ∀ p set, (f (s.nodes v)).reconcilSets p = some set →
      set = ∅ ∧ p ∈ W.treePeers v ∨ (s.nodes v).reconcilSets p = some set)
    (hreq : (f (s.nodes v)).requestedInv = (s.nodes v).requestedInv ∪ new)
    (hnew : ∀ m ∈ new, m ∉ (s.nodes v).requestedInv ∧ ∃ u, Offers W s m u v) :
    TreeOnly W (s.modify v f) := by
  have hgp : ∀ w, ((s.modify v f).nodes w).gossipPeers = (s.nodes w).gossipPeers :=
    modify_congr (g := LightningNode.gossipPeers) hpeers
  have hq : ∀ w m ms, ((s.modify v f).nodes w).bq m = some ms → (s.nodes w).bq m = some ms := by
    intro w m ms hms
    by_cases hw : w = v
    · subst hw
      rw [modify_self] at hms
      exact hbq m ms hms
    · rwa [modify_of_ne _ _ hw] at hms
  have hr : ∀ w m, m ∈ ((s.modify v f).nodes w).requestedInv ↔
      m ∈ (s.nodes w).requestedInv ∨ w = v ∧ m ∈ new := by
    intro w m
    by_cases hw : w = v
    · subst hw
      rw [modify_self, hreq, Finset.mem_union]
      simp
    · rw [modify_of_ne _ _ hw, or_iff_left fun hm => hw hm.1]
  have hset : ∀ w p set, ((s.modify v f).nodes w).reconcilSets p = some set →
      set = ∅ ∧ p ∈ W.treePeers w ∨ (s.nodes w).reconcilSets p = some set := by
    intro w p set hset
    by_cases hw : w = v
    · subst hw
      rw [modify_self] at hset
      exact hsets p set hset
    · rw [modify_of_ne _ _ hw] at hset
      exact .inr hset
  have hcharge : ∀ w m, (s.modify v f).charge w m = s.charge w m ∨
      (s.modify v f).charge w m = 1 ∧ w = v ∧ m ∈ new := by
    intro w m
    have hiff := hr w m
    by_cases hm : w = v ∧ m ∈ new
    · obtain ⟨rfl, hm⟩ := hm
      obtain ⟨hnot, u, hu⟩ := hnew m hm
      have hzero := h.charge_eq_zero_of_offers hst hu hnot
      right
      refine ⟨?_, rfl, hm⟩
      unfold Sim.charge at hzero ⊢
      rw [if_pos (hiff.2 (.inr ⟨rfl, hm⟩))]
      change s.arriving w m + 1 + (if s.history.origin m = some w then 1 else 0) = 1
      omega
    · left
      rw [or_iff_left hm] at hiff
      unfold Sim.charge
      rw [if_congr hiff rfl rfl]
      rfl
  have hl := later_modify s v f
  refine h.of_later hl ⟨fun u w hw => ?_, fun u w hne => ?_⟩ (fun me hme => .inl hme)
    (fun me hme => .inl hme) (fun w m ms hms => .inl ⟨ms, hq w m ms hms, Finset.Subset.refl _⟩)
    (fun w p set hs m hm => ?_) (fun w m hm => ?_) (fun w m => ?_) fun ha u w m hp ho => ?_
  · rw [hgp] at hw
    exact h.rooted.gossipPeers u w hw
  · obtain ⟨set, hs⟩ := Option.ne_none_iff_exists'.1 hne
    rcases hset u w set hs with ⟨-, hw⟩ | hs
    · exact hw
    · exact h.rooted.sets u w (by rw [hs]; simp)
  · rcases hset w p set hs with ⟨rfl, -⟩ | hs
    · exact absurd hm (Finset.notMem_empty m)
    · exact .inl ⟨set, hs, hm⟩
  · rcases (hr w m).1 hm with hm | ⟨rfl, hin⟩
    · exact .inl hm
    · obtain ⟨-, u, hu⟩ := hnew m hin
      exact .inr ⟨u, hu.later hl⟩
  · rcases hcharge w m with hc | ⟨hc, -⟩
    · rw [hc]
      exact h.charge w m
    · exact hc.le
  · have ho' : (s.nodes u).owes w m = true := by
      obtain ⟨ms, hms, hnot⟩ := LightningNode.owes_iff.1 ho
      exact LightningNode.owes_iff.2 ⟨ms, hq u m ms hms, hnot⟩
    rw [hgp] at hp
    rcases hcharge w m with hc | ⟨-, rfl, hm⟩
    · rw [hc]
      exact h.owed ha u w m hp ho'
    · obtain ⟨-, x, hx⟩ := hnew m hm
      exact absurd hx.announces ha

/-- A message has left the queue. -/
theorem arrived (h : TreeOnly W s) {me : Packet n k} (ha : Arrived s me s') :
    TreeOnly W s' ∧ OnPath W s' me := by
  have hl : Later s s' := (Idle.of_arrived ha).later
  have hme : OnPath W s me := h.flight me (by rw [ha.flight]; exact Multiset.mem_cons_self me _)
  have hn : ∀ v, s'.nodes v = s.nodes v := congrFun ha.nodes
  have hcharge : ∀ v m, s'.charge v m = s.charge v m := by
    intro v m
    unfold Sim.charge
    rw [arriving_arrived ha, ha.nodes, ha.history]
  refine ⟨h.of_same hl (fun v => by rw [hn]) (fun v => by rw [hn]) (fun v => by rw [hn])
    (fun v => by rw [hn]) (fun me' hme' => .inl ?_) (fun me' hme' => ?_) (fun v m => ?_)
    fun hann u v m hp ho => ?_, hme.later hl⟩
  · rw [ha.flight]
    exact Multiset.mem_cons_of_mem hme'
  · rw [ha.history] at hme'
    apply (List.mem_append.1 hme').imp_right
    intro hme' m hm
    rw [List.mem_singleton.1 hme'] at hm ⊢
    exact (hme.direct m hm).later hl
  · rw [hcharge]
    exact h.charge v m
  · rw [hcharge]
    exact h.owed hann u v m hp ho

theorem clear (h : TreeOnly W s) (hst : W.algo.spanningTree = true) {v p : Fin n}
    (hp : p ∈ W.treePeers v) : TreeOnly W (s.modify v (·.clear p)) := by
  refine h.modify hst (fun _ _ hms => hms) rfl (fun p' set hset => ?_)
    (Finset.union_empty _).symm (fun m hm => absurd hm (Finset.notMem_empty m))
  change Function.update (s.nodes v).reconcilSets p (some ∅) p' = some set at hset
  by_cases hpp : p' = p
  · subst hpp
    rw [Function.update_self] at hset
    cases hset
    exact .inl ⟨rfl, hp⟩
  · rw [Function.update_of_ne hpp] at hset
    exact .inr hset

theorem cleared (h : TreeOnly W s) (hst : W.algo.spanningTree = true) {v p : Fin n} {success : Bool}
    (hp : success = true → p ∈ W.treePeers v) : TreeOnly W (s.cleared v p success) := by
  unfold Sim.cleared
  split
  · next hs => exact h.clear hst (hp hs)
  · exact h

/-! ## Messages handled -/

/-- A node passes on over the other edges what it gets over one. -/
theorem updated (h : TreeOnly W s) (hst : W.algo.spanningTree = true) {time hops : Nat}
    {sender : Fin n} (ht : Tallied W s m) (hc : Crosses W s m sender v)
    (hu : Updated W s time m v sender hops s') : TreeOnly W s' := by
  have hl := hu.later
  have hstays := hu.stays
  have hcharge : ∀ w m', s'.charge w m' = s.charge w m' := by
    intro w m'
    unfold Sim.charge arriving
    rw [hstays.flight, hstays.requestedInv, hstays.history]
  refine h.of_later hl ⟨fun u w hw => ?_, fun u w hset => ?_⟩ (fun me hme => .inl ?_)
    (fun me hme => .inl ?_) (fun w m' ms' hms' => ?_) (fun w p set' hset' m' hm' => ?_)
    (fun w m' hm' => .inl ?_) (fun w m' => ?_) fun ha u p m' hp ho => ?_
  · rw [hstays.gossipPeers] at hw
    exact h.rooted.gossipPeers u w hw
  · refine h.rooted.sets u w fun hnone => hset ?_
    rcases hu.sets with hs | ⟨-, -, hs, -, replace, -, hv⟩
    · rw [hs, hnone]
    · by_cases hu : u = v
      · subst hu
        rw [hv, hnone]
        rfl
      · rw [hs u hu, hnone]
  · rwa [hstays.flight] at hme
  · rwa [hstays.history] at hme
  · rcases hu.bq hms' with hold | ⟨rfl, rfl, hin, hf, -⟩
    · exact .inl hold
    · exact .inr ⟨(hu.first_seen hf ht).2, sender, hin, hc.later hl⟩
  · rcases hu.sets with hs | ⟨hf, hmode, hs, -, replace, -, hv⟩
    · rw [hs] at hset'
      exact .inl ⟨set', hset', hm'⟩
    · by_cases hw : w = v
      · subst hw
        rw [hv] at hset'
        obtain ⟨set, hset, rfl⟩ := Option.map_eq_some_iff.1 hset'
        have hold : m' ∈ set \ replace.toFinset →
            ∃ set, (s.nodes w).reconcilSets p = some set ∧ m' ∈ set :=
          fun hin => ⟨set, hset, (Finset.mem_sdiff.1 hin).1⟩
        split at hm'
        · exact .inl (hold hm')
        next hne =>
        rcases Finset.mem_insert.1 hm' with rfl | hin
        · -- the message joins the set for a neighbour that it did not come from
          have hp : p ∈ W.treePeers w := h.rooted.sets w p (by rw [hset]; simp)
          right
          refine ⟨.inl hmode, (hc.step hst hp hne).later hl, (hu.first_seen hf ht).2, ?_⟩
          exact (hc.later hl).origin_ne
        · exact .inl (hold hin)
      · rw [hs w hw] at hset'
        exact .inl ⟨set', hset', hm'⟩
  · rwa [hstays.requestedInv] at hm'
  · rw [hcharge]
    exact h.charge w m'
  · rw [hstays.gossipPeers] at hp
    rw [hcharge]
    obtain ⟨ms', hms', hnot⟩ := LightningNode.owes_iff.1 ho
    rcases hu.bq hms' with ⟨ms, hms, hsub⟩ | ⟨rfl, rfl, hin, hf, -⟩
    · exact h.owed ha u p m' hp (LightningNode.owes_iff.2 ⟨ms, hms, fun hin => hnot (hsub hin)⟩)
    · -- nobody else can have charged the peer, and this node has just seen the message
      have hcp : Crosses W s m' u p := by
        apply hc.step hst (h.rooted.gossipPeers u p hp)
        rintro rfl
        exact hnot hin
      by_contra hne
      rcases h.charged hne with ho | hr | ⟨x, hd⟩
      · exact hcp.origin_ne ho
      · obtain ⟨x, hx⟩ := h.requested p m' hr
        exact ha hx.announces
      · have hx := hd.seen
        rw [hd.crosses.unique hst hcp] at hx
        exact (hu.first_seen hf ht).1 hx

theorem updates (h : TreeOnly W s) (hst : W.algo.spanningTree = true) {time hops : Nat}
    {sender : Fin n} {ms : List (Fin k)} (ht : AllTallied W s)
    (hc : ∀ m ∈ ms, Crosses W s m sender v) (hu : Updates W time v sender hops ms s s') :
    TreeOnly W s' := by
  induction hu with
  | nil _ => exact h
  | cons hu _ ih =>
    have hm := hc _ List.mem_cons_self
    apply ih (h.updated hst (ht _ hm.known) hm hu) (ht.updates (.cons hu (.nil _)))
    intro m' hm'
    exact (hc m' (List.mem_cons_of_mem _ hm')).later hu.later

/-! ## Queries -/

theorem onPath_of_silent {me : Packet n k} (h : Silent me) :
    OnPath W s me ∧ me.m.body.direct = [] := by
  rcases h with hb | ⟨size, hb⟩
  all_goals
    refine ⟨⟨?_, ?_, ?_, ?_, ?_⟩, ?_⟩
    all_goals rw [hb]
    · exact fun m hm => absurd hm List.not_mem_nil
    · exact fun m hm => absurd hm List.not_mem_nil
    · exact fun m hm => absurd hm List.not_mem_nil
    · exact fun m hm => absurd hm List.not_mem_nil
    · exact fun hs => by cases hs
    · rfl

theorem onPath_queryTo {q : List (ChannelInv k)} {me : Packet n k}
    (hq : ∀ m ∈ q.map (·.msgID), Crosses W s m u v) (hme : me ∈ queryTo v u q) :
    OnPath W s me ∧ me.m.body.direct = [] := by
  unfold queryTo at hme
  split at hme
  · cases hme
  · rw [List.mem_singleton.1 hme]
    exact ⟨⟨fun m hm => absurd hm List.not_mem_nil, fun m hm => absurd hm List.not_mem_nil, hq,
      fun m hm => absurd hm List.not_mem_nil, fun hs => by cases hs⟩, rfl⟩

theorem onPath_answerTo {batch : List (Fin k)} {me : Packet n k}
    (hb : ∀ m ∈ batch, Crosses W s m u v) (hme : me ∈ answerTo u v batch) :
    OnPath W s me ∧ me.m.body.direct = [] := by
  unfold answerTo at hme
  split at hme
  · cases hme
  · rw [List.mem_singleton.1 hme]
    exact ⟨⟨fun m hm => absurd hm List.not_mem_nil, fun m hm => absurd hm List.not_mem_nil,
      fun m hm => absurd hm List.not_mem_nil, hb, fun hs => by cases hs⟩, rfl⟩

/-- A node asks for what it is offered. -/
theorem request (h : TreeOnly W s) (hst : W.algo.spanningTree = true) {invs q : List (ChannelInv k)}
    (hq : q = invs.filter ((s.nodes v).asks s.messages))
    (hoff : ∀ m ∈ invs.map (·.msgID), Offers W s m u v) : TreeOnly W (s.modify v (·.request q)) ∧
      ∀ m ∈ q.map (·.msgID), Crosses W (s.modify v (·.request q)) m u v := by
  have hin : ∀ m ∈ q.map (·.msgID), m ∉ (s.nodes v).requestedInv ∧ Offers W s m u v := by
    intro m hm
    obtain ⟨inv, hinv, rfl⟩ := List.mem_map.1 hm
    rw [hq] at hinv
    obtain ⟨hinv, hasks⟩ := List.mem_filter.1 hinv
    exact ⟨asks_not_requested hasks, hoff _ (List.mem_map_of_mem hinv)⟩
  refine ⟨h.modify hst (fun _ _ hms => hms) rfl (fun _ _ hset => .inr hset) rfl fun m hm => ?_,
    fun m hm => (hin m hm).2.crosses⟩
  obtain ⟨hnot, ho⟩ := hin m (List.mem_toFinset.1 hm)
  exact ⟨hnot, u, ho⟩

/-! ## Ticks and broadcasts -/

theorem sum_brings_eq_count {out : List (Packet n k)} (p : Fin n) (m : Fin k) :
    (out.map (brings p m)).sum =
      ((out.filter fun me => me.receiver = p).flatMap (·.m.body.direct)).count m := by
  induction out with
  | nil => rfl
  | cons me out ih =>
    rw [List.map_cons, List.sum_cons, ih, List.filter_cons]
    unfold brings
    by_cases hp : me.receiver = p
    · simp [hp, List.count_append]
    · simp [hp]

theorem direct_of_forward {messages : Fin k → Gossip n} {b : Body k} (hb : Forward W messages b)
    (hmode : W.algo.reconcilTimer = 0) (ha : W.Announces) : b.direct = [] := by
  rcases ha with ha | ⟨hno, hyes⟩
  · omega
  · cases hb with
    | batch _ hb => rw [hno] at hb; cases hb
    | invs ms _ _ => rfl
    | gossip m _ hi => rw [hyes] at hi; cases hi

theorem offered_of_forward {messages : Fin k → Gossip n} {b : Body k} (hb : Forward W messages b)
    (ha : ¬W.Announces) : b.offered = [] := by
  cases hb with
  | batch _ _ | gossip _ _ _ => rfl
  | invs ms hno hyes => exact absurd (.inr ⟨hno, hyes⟩) ha

/-- What a tick brings to a node without being asked was owed to it. -/
theorem sum_brings_forwards {messages : Fin k → Gossip n} {ln : LightningNode n k}
    {peers : List (Fin n)} {out : List (Packet n k)} (hf : Forwards W messages ln v peers out)
    (hmode : W.algo.reconcilTimer = 0) (p : Fin n) (m : Fin k) :
    (out.map (brings p m)).sum ≤ 1 ∧ ((out.map (brings p m)).sum ≠ 0 →
      ¬W.Announces ∧ p ∈ peers ∧ ln.owes p m = true) := by
  by_cases ha : W.Announces
  · have hzero : (out.map (brings p m)).sum = 0 :=
      sum_brings_eq_zero (fun me hme => direct_of_forward (hf.forward me hme) hmode ha) p m
    rw [hzero]
    exact ⟨Nat.zero_le 1, fun hne => absurd rfl hne⟩
  by_cases hp : p ∈ peers
  · have hdirect : (out.filter fun me => me.receiver = p).flatMap (·.m.body.direct) =
        (List.finRange k).filter (ln.owes p) := by
      rw [← hf.carried p hp]
      apply List.flatMap_congr
      intro me hme
      have hnone := offered_of_forward (hf.forward me (List.mem_filter.1 hme).1) ha
      unfold Body.carried
      rw [hnone, List.append_nil]
    rw [sum_brings_eq_count, hdirect]
    have hnodup := (List.nodup_finRange k).filter (ln.owes p)
    refine ⟨List.nodup_iff_count_le_one.1 hnodup m, fun hne => ⟨ha, hp, ?_⟩⟩
    exact (List.mem_filter.1 (List.count_pos_iff.1 (Nat.pos_of_ne_zero hne))).2
  · have hzero : (out.map (brings p m)).sum = 0 := by
      apply List.sum_eq_zero
      intro x hx
      obtain ⟨me, hme, rfl⟩ := List.mem_map.1 hx
      unfold brings
      rw [if_neg]
      rintro rfl
      exact hp (hf.receiver me hme)
    rw [hzero]
    exact ⟨Nat.zero_le 1, fun hne => absurd rfl hne⟩

theorem success_of_forward {messages : Fin k → Gossip n} {b : Body k} (hb : Forward W messages b) :
    b.success = false ∧ b.asked = [] ∧ b.answered = [] := by
  cases hb <;> exact ⟨rfl, rfl, rfl⟩

/-- A tick sends what the queue owes, and the queue is empty then. -/
theorem staggered (h : TreeOnly W s) (hst : W.algo.spanningTree = true)
    (hmode : W.algo.reconcilTimer = 0) {out : List (Packet n k)}
    (hf : Forwards W s.messages (s.nodes v) v (sorted (s.nodes v).gossipPeers) out)
    (he : Emits (s.modify v LightningNode.clearQueue) out s') : TreeOnly W s' := by
  have h₁ : TreeOnly W (s.modify v LightningNode.clearQueue) :=
    h.modify hst (fun m ms hms => by cases hms) rfl (fun _ _ hset => .inr hset)
      (Finset.union_empty _).symm fun m hm => absurd hm (Finset.notMem_empty m)
  have hl := later_modify s v LightningNode.clearQueue
  have hcharge : ∀ p m, (s.modify v LightningNode.clearQueue).charge p m = s.charge p m := by
    intro p m
    unfold Sim.charge
    rw [modify_congr (g := LightningNode.requestedInv) rfl]
    rfl
  have hcross : ∀ me ∈ out, ∀ m ∈ me.m.body.carried, Crosses W s m v me.receiver ∧
      v ∈ s.seenBy m ∧ s.history.origin m ≠ some v := fun me hme m hm =>
    h.crosses_of_owes hst (mem_sorted.1 (hf.receiver me hme)) (hf.owes hme hm)
  refine h₁.emits he (fun me hme => ?_) (fun p m => ?_) fun ha u p m hp ho => ?_
  · obtain ⟨hsucc, hasked, hanswered⟩ := success_of_forward (hf.forward me hme)
    have hsend := hf.sender me hme
    refine ⟨fun m hm => ?_, fun m hm => ?_, ?_, ?_, ?_⟩
    · obtain ⟨hc, hs, -⟩ := hcross me hme m (List.mem_append_left _ hm)
      rw [hsend]
      refine Directs.later ⟨hc, hs, fun ha => ?_⟩ hl
      rw [direct_of_forward (hf.forward me hme) hmode ha] at hm
      cases hm
    · obtain ⟨hc, hs, ho⟩ := hcross me hme m (List.mem_append_right _ hm)
      rw [hsend]
      refine Offers.later ⟨?_, hc, hs, ho⟩ hl
      by_contra ha
      rw [offered_of_forward (hf.forward me hme) ha] at hm
      cases hm
    · rw [hasked]
      exact fun m hm => absurd hm List.not_mem_nil
    · rw [hanswered]
      exact fun m hm => absurd hm List.not_mem_nil
    · rw [hsucc]
      exact fun hs => by cases hs
  · obtain ⟨hle, howed⟩ := sum_brings_forwards hf hmode p m
    have hold := h.charge p m
    rw [hcharge]
    by_cases hzero : (out.map (brings p m)).sum = 0
    · omega
    · obtain ⟨ha, hp, ho⟩ := howed hzero
      have := h.owed ha v p m (mem_sorted.1 hp) ho
      omega
  · by_contra hne
    obtain ⟨-, hp', ho'⟩ := (sum_brings_forwards hf hmode p m).2 hne
    obtain ⟨hc', -⟩ := h.crosses_of_owes hst (mem_sorted.1 hp') ho'
    by_cases hu : u = v
    · subst hu
      rw [modify_self] at ho
      cases ho
    · rw [modify_of_ne _ _ hu] at hp ho
      obtain ⟨hc, -⟩ := h.crosses_of_owes hst hp ho
      exact hu (hc.unique hst hc')

/-- Of a message that nobody knows nobody is charged. -/
theorem charge_of_not_known (h : TreeOnly W s) (hm : ¬s.Known m) (v : Fin n) : s.charge v m = 0 := by
  by_contra hne
  rcases h.charged hne with ho | hr | ⟨u, hd⟩
  · exact hm ⟨v, ho⟩
  · obtain ⟨u, hu⟩ := h.requested v m hr
    exact hm hu.crosses.known
  · exact hm hd.crosses.known

/-- A message gets its origin. -/
theorem originated (h : TreeOnly W s) (hm : ¬s.Known m) (o : Fin n) (f : Gossip n → Gossip n) :
    TreeOnly W ((s.modifyMessage m f).originated o m) := by
  have hreq := originated_congr (g := LightningNode.requestedInv) (s.modifyMessage m f) o m
    fun _ _ _ => rfl
  have hcharge : ∀ w m', m' ≠ m →
      ((s.modifyMessage m f).originated o m).charge w m' = s.charge w m' := by
    intro w m' hne
    unfold Sim.charge
    rw [hreq]
    show s.arriving w m' + _ +
      (if Function.update s.history.origin m (some o) m' = some w then 1 else 0) = _
    rw [Function.update_of_ne hne]
    rfl
  have hsingle : ∀ w, ((s.modifyMessage m f).originated o m).charge w m ≤ 1 := by
    intro w
    have hzero := h.charge_of_not_known hm w
    unfold Sim.charge at hzero ⊢
    rw [hreq]
    have hone :
        (if ((s.modifyMessage m f).originated o m).history.origin m = some w then 1 else 0) ≤ 1 := by
      split <;> omega
    change s.arriving w m + (if m ∈ (s.nodes w).requestedInv then 1 else 0) + _ ≤ 1
    omega
  refine h.of_same (later_originated hm o f)
    (originated_congr (g := LightningNode.gossipPeers) _ o m fun _ _ _ => rfl)
    (originated_congr (g := LightningNode.bq) _ o m fun _ _ _ => rfl)
    (originated_congr (g := LightningNode.reconcilSets) _ o m fun _ _ _ => rfl) hreq
    (fun me hme => .inl hme) (fun me hme => .inl hme) (fun w m' => ?_) fun ha u w m' hp ho => ?_
  · by_cases hne : m' = m
    · rw [hne]
      exact hsingle w
    · rw [hcharge w m' hne]
      exact h.charge w m'
  · have hne : m' ≠ m := by
      rintro rfl
      obtain ⟨ms, hms, -⟩ := LightningNode.owes_iff.1 ho
      obtain ⟨-, x, -, hc⟩ := h.queue u m' ms hms
      exact hm hc.known
    rw [hcharge w m' hne]
    exact h.owed ha u w m' hp ho

theorem sum_brings_gossip (dests : List (Fin n)) (m m' : Fin k) (size : UInt64) (o v : Fin n) :
    ((dests.map fun p => (⟨⟨.gossip m, size⟩, o, p, 1⟩ : Packet n k)).map (brings v m')).sum =
      if m' = m then dests.count v else 0 := by
  induction dests with
  | nil => simp
  | cons p dests ih =>
    rw [List.map_cons, List.map_cons, List.sum_cons, ih, List.count_cons]
    unfold brings Body.direct
    by_cases hm : m' = m
    · subst hm
      by_cases hp : p = v
      · simp [hp, Nat.add_comm]
      · simp [hp]
    · simp [hm, Ne.symm hm]

/-- The origin sends its message to its neighbours. -/
theorem broadcastTo (h : TreeOnly W s) (hm : ¬s.Known m) {o : Fin n} {f : Gossip n → Gossip n}
    {dests : List (Fin n)} {size : UInt64} (hnodup : dests.Nodup)
    (hd : ∀ p ∈ dests, (W.graphFrom o).Adj o p)
    (he : Emits ((s.modifyMessage m f).originated o m)
      (dests.map fun p => ⟨⟨.gossip m, size⟩, o, p, 1⟩) s') : TreeOnly W s' := by
  have h₁ := h.originated hm o f
  have hzero : ∀ v, s.charge v m = 0 := h.charge_of_not_known hm
  have hbq := originated_congr (g := LightningNode.bq) (s.modifyMessage m f) o m fun _ _ _ => rfl
  have hreq := originated_congr (g := LightningNode.requestedInv) (s.modifyMessage m f) o m
    fun _ _ _ => rfl
  generalize hs₁ : (s.modifyMessage m f).originated o m = s₁ at h₁ he hbq hreq
  have horigin : s₁.history.origin m = some o := by
    rw [← hs₁]
    exact Function.update_self _ _ _
  have hcross : ∀ p ∈ dests, Directs W s₁ m o p := fun p hp =>
    ⟨⟨o, horigin, .root (hd p hp)⟩, mem_seenBy.2 (.inl horigin), fun _ => horigin⟩
  refine h₁.emits he (fun me hme => ?_) (fun v m' => ?_) fun ha u v m' hp ho => ?_
  · obtain ⟨p, hp, rfl⟩ := List.mem_map.1 hme
    refine ⟨fun m' hm' => ?_, fun m' hm' => absurd hm' List.not_mem_nil,
      fun m' hm' => absurd hm' List.not_mem_nil, fun m' hm' => absurd hm' List.not_mem_nil,
      fun hs => by cases hs⟩
    rw [List.mem_singleton.1 hm']
    exact hcross p hp
  · rw [sum_brings_gossip]
    split
    · next hmm =>
      subst hmm
      by_cases hv : v ∈ dests
      · have hc : s₁.charge v m' = 0 := by
          have hzv := hzero v
          have hne := (hcross v hv).crosses.origin_ne
          unfold Sim.charge arriving at hzv ⊢
          rw [if_neg hne, hreq, ← hs₁]
          change (s.flight.map _).sum + (s.history.received.map _).sum +
            (if m' ∈ (s.nodes v).requestedInv then 1 else 0) + 0 = 0
          omega
        have hone := List.nodup_iff_count_le_one.1 hnodup v
        omega
      · rw [List.count_eq_zero.2 hv]
        exact h₁.charge v m'
    · exact h₁.charge v m'
  · rw [sum_brings_gossip, if_neg]
    rintro rfl
    obtain ⟨ms, hms, -⟩ := LightningNode.owes_iff.1 ho
    rw [hbq] at hms
    obtain ⟨-, x, -, hc⟩ := h.queue u m' ms hms
    exact hm hc.known

end TreeOnly

/-! ## Steps -/

/-- The message that the step broadcasts. -/
def broadcasts (s : Sim n k) (l : Label n) : Option (Fin k) :=
  (s.net.eq[l.event]?).bind broadcastOf

/-- A generated message is broadcast at a node whose peers are its gossip peers by the search, or
nodes that the search did not reach. A query finds what it asks for. -/
structure KeepsToTree (W : World n k) (s : Sim n k) (l : Label n) : Prop where
  broadcast : W.source.isGenerated = true → s.broadcasts l ≠ none →
    ∀ p ∈ W.peers l.node, p ∈ W.treePeers l.node ∨ W.treePeers p = ∅
  findsAsked : s.FindsAsked l

instance (s : Sim n k) (l : Label n) : Decidable (KeepsToTree W s l) :=
  decidable_of_iff
    ((W.source.isGenerated = true → s.broadcasts l ≠ none →
      ∀ p ∈ W.peers l.node, p ∈ W.treePeers l.node ∨ W.treePeers p = ∅) ∧ s.FindsAsked l)
    ⟨fun h => ⟨h.1, h.2⟩, fun h => ⟨h.broadcast, h.findsAsked⟩⟩

namespace TreeOnly

theorem broadcast (h : TreeOnly W s) (hst : W.algo.spanningTree = true) {l : Label n}
    (hm : ¬s.Known m)
    (hl : W.source.isGenerated = true →
      ∀ p ∈ W.peers l.node, p ∈ W.treePeers l.node ∨ W.treePeers p = ∅)
    (hb : Broadcasts W s l m s') : TreeOnly W s' := by
  cases hb with
  | generated hsrc _ he =>
    refine h.broadcastTo hm (nodup_sorted _) (fun p hp => ?_) he
    have hp := mem_sorted.1 hp
    exact graphFrom_adj_peer hst hp (hl (by rw [hsrc]; rfl) p hp)
  | @replayed _ v _ _ _ he =>
    have hid : s.modifyMessage m (fun g => g) = s := by
      unfold modifyMessage
      rw [Function.update_eq_self]
    rw [if_pos hst] at he
    rw [← hid] at he
    refine h.broadcastTo hm (nodup_sorted _) (fun p hp => ?_) he
    exact graphFrom_adj hst v (h.rooted.gossipPeers v p (mem_sorted.1 hp))
  | skipped _ _ => exact h

theorem delivered (h : TreeOnly W s) (hst : W.algo.spanningTree = true) {time : Nat}
    {me : Packet n k} (ht : AllTallied W s) (hme : OnPath W s me)
    (hfind : ∀ inv ∈ queried me.m.body, s.answerFor me.receiver inv = some inv.msgID)
    (hd : Delivered W time s me s') : TreeOnly W s' := by
  cases hd with
  | silent hout he =>
    exact h.emits_indirect he fun me' hme' => onPath_of_silent (hout me' hme')
  | updates hu =>
    have hl := (Idle.cleared (s := s) me.receiver me.sender me.m.body.success).later
    refine (h.cleared hst hme.success).updates hst ((Idle.cleared _ _ _).allTallied ht) ?_ hu
    exact fun m hm => (hme.bodies hm).later hl
  | @query invs batch _ hb _ hsub he =>
    refine h.emits_indirect he fun me' hme' => onPath_answerTo (fun m hm => ?_) hme'
    obtain ⟨inv, hinv, hans⟩ := List.mem_filterMap.1 (hsub.subset hm)
    rw [hb] at hfind
    rw [hfind inv hinv] at hans
    obtain rfl := Option.some.inj hans
    apply hme.asked _
    rw [hb]
    exact List.mem_map_of_mem hinv
  | @invs invs success compared q _ hb hq he =>
    have hsucc : success = true → me.sender ∈ W.treePeers me.receiver := fun hs =>
      hme.success (by rw [hb]; exact hs)
    have h₁ := h.cleared hst hsucc
    have hl := (Idle.cleared (s := s) me.receiver me.sender success).later
    have hasks : q = invs.filter (((s.cleared me.receiver me.sender success).nodes me.receiver).asks
        (s.cleared me.receiver me.sender success).messages) := by
      rw [hq, cleared_congr (g := LightningNode.asks) rfl, cleared_messages]
    have hoff : ∀ m ∈ invs.map (·.msgID), Offers W (s.cleared me.receiver me.sender success) m me.sender
        me.receiver := fun m hm => (hme.offered m (by rw [hb]; exact hm)).later hl
    obtain ⟨h₂, hcross⟩ := h₁.request hst hasks hoff
    exact h₂.emits_indirect he fun me' hme' => onPath_queryTo hcross hme'
  | @sketch lnSet senderSet q dataSize _ hln hsender hq he =>
    have hoff : ∀ m ∈ (((sorted (senderSet \ lnSet)).map fun m => (s.messages m).inv m)).map (·.msgID),
        Offers W s m me.sender me.receiver := by
      intro m hm
      rw [map_inv_msgID] at hm
      exact h.sets me.sender me.receiver senderSet hsender m (Finset.mem_sdiff.1 (mem_sorted.1 hm)).1
    obtain ⟨h₁, hcross⟩ := h.request hst hq hoff
    have hv : me.sender ∈ W.treePeers me.receiver := h.rooted.sets _ _ (by rw [hln]; simp)
    have hu : me.receiver ∈ W.treePeers me.sender := h.rooted.sets _ _ (by rw [hsender]; simp)
    have h₂ := h₁.clear hst hv
    rw [modify_modify] at h₂
    have hl := later_modify s me.receiver fun ln => (ln.request q).clear me.sender
    apply h₂.emits_indirect he
    intro me' hme'
    rcases List.mem_append.1 hme' with hme' | hme'
    · exact onPath_queryTo hcross hme'
    · rw [List.mem_singleton.1 hme']
      refine ⟨⟨fun m hm => absurd hm List.not_mem_nil, fun m hm => ?_,
        fun m hm => absurd hm List.not_mem_nil, fun m hm => absurd hm List.not_mem_nil,
        fun _ => hu⟩, rfl⟩
      change m ∈ ((sorted (lnSet \ senderSet)).map fun m => (s.messages m).inv m).map (·.msgID) at hm
      rw [map_inv_msgID] at hm
      refine Offers.later ?_ hl
      exact h.sets me.receiver me.sender lnSet hln m (Finset.mem_sdiff.1 (mem_sorted.1 hm)).1

theorem dequeued (h : TreeOnly W s) (hd : Dequeued s m s') : TreeOnly W s' := by
  have hn : ∀ v, s'.nodes v = s.nodes v := congrFun hd.nodes
  have hcharge : ∀ v m', s'.charge v m' = s.charge v m' := by
    intro v m'
    unfold Sim.charge arriving
    rw [hd.flight, hd.nodes, hd.history]
  refine h.of_same (Idle.of_dequeued hd).later (fun v => by rw [hn]) (fun v => by rw [hn])
    (fun v => by rw [hn]) (fun v => by rw [hn]) (fun me hme => .inl (hd.flight ▸ hme))
    (fun me hme => .inl ?_) (fun v m' => ?_) fun ha u v m' hp ho => ?_
  · rwa [hd.history] at hme
  · rw [hcharge]
    exact h.charge v m'
  · rw [hcharge]
    exact h.owed ha u v m' hp ho

theorem turn (h : TreeOnly W s) (hst : W.algo.spanningTree = true) (hk : KnownOnly W s)
    (ht : AllTallied W s) {l : Label n} (hl : KeepsToTree W s l) (hturn : Turn W s l s') :
    TreeOnly W s' := by
  cases hturn with
  | quiet hout he => exact h.emits_indirect he fun me hme => onPath_of_silent (hout me hme)
  | staggered hmode hf he => exact h.staggered hst hmode hf he
  | @broadcast e m s₀ _ hev hdata hd hb =>
    have hm := hk.not_known_of_dequeued hd
    refine (h.dequeued hd).broadcast hst hm (fun hg => hl.broadcast hg ?_) hb
    unfold broadcasts
    rw [hev, Option.bind_some, broadcastOf, hdata]
    simp
  | @delivered e me s₀ _ hev hdata ha hd =>
    obtain ⟨h₀, hme⟩ := h.arrived ha
    refine h₀.delivered hst ((Idle.of_arrived ha).allTallied ht) hme (fun inv hinv => ?_) hd
    have hfind := hl.findsAsked me (delivers_of_message hev hdata) inv hinv
    unfold answerFor at hfind ⊢
    rwa [ha.nodes]

theorem of_init (hst : W.algo.spanningTree = true) (hi : init W = some s) : TreeOnly W s := by
  have h := initial_of_init hi
  have hcharge : ∀ v m, s.charge v m = 0 := by
    intro v m
    unfold Sim.charge arriving
    rw [h.flight, h.history, h.requestedInv]
    rfl
  refine ⟨rooted_of_init hst hi, fun me hme => ?_, fun me hme => ?_, fun v m ms hms => ?_,
    fun v p set hset m hm => ?_, fun v m hm => ?_, fun v m => ?_, fun _ _ v m _ _ => hcharge v m⟩
  · rw [h.flight] at hme
    exact absurd hme (Multiset.notMem_zero me)
  · rw [h.history] at hme
    exact absurd hme List.not_mem_nil
  · rw [h.bq] at hms
    cases hms
  · rw [h.sets v p set hset] at hm
    exact absurd hm (Finset.notMem_empty m)
  · rw [h.requestedInv] at hm
    exact absurd hm (Finset.notMem_empty m)
  · rw [hcharge]
    exact Nat.zero_le 1

end TreeOnly

end Sim

end LnConv.Lnsim
