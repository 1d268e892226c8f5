import LnConv.DeliveryOrder
import LnConv.FloodTiming
import LnConv.Flush
import LnConv.Percentiles
import LnConv.Tables

/-!
# What is reported of a flood

From one origination in a network of flooding nodes to the row of `msg_stats`: the flood
reaches each node at the time that its distance from the origin gives, the flushes ship
what the nodes counted, and the aggregator makes one row of it. So its percentiles are
those of the breadth-first distances, whenever the nodes flush.
-/

namespace LnConv

/-! ## One message, once per node -/

section Single

variable {P : Type} [PctIndex P] {n : Nat} {ps : List P}

theorem ExactStats.perm {ts ts' : List Nat} {row : MsgStats P} (h : ExactStats ps n ts row)
    (hp : ts.Perm ts') : ExactStats ps n ts' row := by
  have hset : { t | t ∈ ts } = { t | t ∈ ts' } := Set.ext fun t => hp.mem_iff
  have hstat : orderStatistic ts = orderStatistic ts' := by
    funext i
    unfold orderStatistic
    rw [List.Perm.eq_of_pairwise' (List.pairwise_insertionSort (· ≤ ·) ts)
      (List.pairwise_insertionSort (· ≤ ·) ts')
      ((List.perm_insertionSort _ _).trans (hp.trans (List.perm_insertionSort _ _).symm))]
  refine ⟨h.coverage.trans hp.length_eq, hset ▸ h.origin, hset ▸ h.last, hstat ▸ h.values, ?_, ?_, ?_⟩
  · intro i
    rw [← hstat, h.unreached, hp.length_eq]
  · exact hstat ▸ h.unsaturated
  · exact hstat ▸ h.rising

/-- Tuples of one message, at most one from a node. -/
structure OneMessage (m : Gossip) (l : List (Sighting n)) : Prop where
  message : ∀ x ∈ l, x.gossip = m
  nodes : (l.map Sighting.node).Nodup
  times : ∀ x ∈ l, x.timeNs ≠ NOT_SEEN

namespace OneMessage

variable {m : Gossip} {l : List (Sighting n)}

omit [PctIndex P] in
theorem ofId_eq (h : OneMessage m l) : ofId m.id l = l :=
  List.filter_eq_self.2 fun x hx => decide_eq_true (by rw [h.message x hx])

theorem sameIdentity (h : OneMessage m l) : SameIdentity l := by
  intro x hx y hy _
  rw [h.message x hx, h.message y hy]
  exact ⟨rfl, rfl, rfl, rfl⟩

theorem oncePerNode (h : OneMessage m l) : OncePerNode l := by
  have hmap : (l.map fun x => (x.node, x.gossip.id)) = (l.map Sighting.node).map fun v =>
      (v, m.id) := by
    rw [List.map_map]
    exact List.map_congr_left fun x hx => by rw [h.message x hx]; rfl
  rw [OncePerNode, hmap]
  exact h.nodes.map fun _ _ he => (Prod.mk.inj he).1

theorem settled (h : OneMessage m l) (ps : List P) : Settled ps l where
  filled i p _ hlt := by
    rwa [List.countP_eq_length.2 fun x hx => decide_eq_true (h.times x (mem_ofId.1 hx).1)]
  size x hx y hy _ := by rw [h.message x hx, h.message y hy]
  key k := by
    refine .inr fun v x hx y hy _ => ?_
    have hmem := (List.mem_filter.1 (List.mem_of_mem_head? hx)).1
    rw [h.message x hmem, h.message y hy]

theorem finalizeMsg_nNodes {i : MsgId} {mi : MsgInflight n} {row : MsgStats P}
    (h : finalizeMsg i mi ps = some row) : row.nNodes = n := by
  obtain ⟨_, -, h⟩ := Option.bind_eq_some_iff.1 h
  cases h
  rfl

/-- The aggregator emits one row, with the order statistics of all times. -/
theorem aggregate {bs : List (Fin n × List FirstSeenEntry)} (h : OneMessage m (sightings bs))
    (hne : sightings bs ≠ []) (ps : List P) : ∃ s row, AggregatorState.aggregate ps bs = some s ∧
      s.mirror = [row] ∧ row.id = m.id ∧ row.sizeBytes = m.sizeBytes ∧ row.nNodes = n ∧
      ExactStats ps n ((sightings bs).map (·.timeNs)) row := by
  have hfits := h.sameIdentity.fits
  have hset := h.settled ps
  set I := Identity.ofSightings (sightings bs)
  obtain ⟨hsome, hnone⟩ := aggregate_tracks ps hfits
  cases hs : AggregatorState.aggregate ps bs with
  | none => exact absurd (hnone hs) (hset.not_fails h.oncePerNode hfits)
  | some s =>
    obtain ⟨hrows, -⟩ := hsome s hs
    have hmem : ∀ i, i ∈ s.finalized ↔ i = m.id := by
      intro i
      rw [hrows.finalized]
      have hseen := Tracker.phase_run_eq_unseen (I := I) (l := sightings bs) (i := i)
      constructor
      · intro hc
        by_contra hi
        have hun := hseen.2 fun x hx => by rw [h.message x hx]; exact Ne.symm hi
        simp [Tracker.drain, hun, Phase.drain, Phase.isClosed] at hc
      · rintro rfl
        obtain ⟨x, hx⟩ := List.exists_mem_of_ne_nil _ hne
        obtain ⟨mi, b, hclosed, -⟩ := Tracker.exists_closed_drain (I := I) hx
        rw [h.message x hx] at hclosed
        rw [hclosed]
        rfl
    have hfin : s.finalized = [m.id] := by
      refine List.perm_singleton.1 ((List.perm_ext_iff_of_nodup hrows.nodup
        (List.nodup_singleton _)).2 fun i => ?_)
      rw [hmem, List.mem_singleton]
    have hids := hrows.ids
    rw [hfin, List.map_eq_singleton_iff] at hids
    obtain ⟨row, hmirror, hid⟩ := hids
    obtain ⟨mi, b, hclosed, hrow⟩ := hrows.rows row (by rw [hmirror]; exact List.mem_singleton_self _)
    rw [hid] at hclosed hrow
    have hseen := hset.seen h.oncePerNode hfits hclosed
    rw [h.ofId_eq] at hseen
    obtain ⟨row', hrow', -, hstats⟩ := hseen.exactStats h.nodes h.times m.id ps
    obtain rfl : row = row' := Option.some.inj (hrow.symm.trans hrow')
    obtain ⟨x, hx, hsize⟩ := hseen.size
    refine ⟨s, row, rfl, hmirror, hid, ?_, finalizeMsg_nNodes hrow, hstats⟩
    rw [(finalizeMsg_data hrow).2, hsize, h.message x (List.mem_of_mem_head? hx)]

end OneMessage

end Single

/-! ## The batches of the nodes -/

section Batches

/-- The tuples of one node in a queue of batches are those shipped for it. -/
theorem filter_node_sightings {n : Nat} (evs : List MetricsEvent) (v : Fin n) :
    ((sightings (evs.filterMap (AggregatorThread.slotBatch? n))).filter fun x => x.node = v) =
      (shipped v evs).map fun e => ⟨v, e.gossip, e.timeNs⟩ := by
  induction evs with
  | nil => rfl
  | cons ev evs ih =>
    rw [shipped_cons, List.map_append, ← ih, List.filterMap_cons]
    cases ev with
    | firstSeenBatch idx entries =>
      simp only [AggregatorThread.slotBatch?, MetricsEvent.shippedBy]
      by_cases hlt : idx < n
      · rw [dif_pos hlt]
        simp only [sightings, List.flatMap_cons, List.filter_append, List.filter_map]
        congr 1
        by_cases hv : idx = v
        · subst hv
          simp [Function.comp_def]
        · have hne : (⟨idx, hlt⟩ : Fin n) ≠ v := fun he => hv (by rw [← he])
          simp [Function.comp_def, hv, hne]
      · have hne : idx ≠ v := fun he => hlt (he ▸ v.2)
        rw [dif_neg hlt, if_neg hne]
        rfl
    | _ => rfl

variable {V : Type} {w : Network V} {s s' : Net V}

/-- The events of the nodes: the sentinel is not theirs, and a batch has the index of its node. -/
def Net.FromNodes (w : Network V) (s : Net V) : Prop :=
  ∀ ev ∈ s.metrics, ev.isShutdown = false ∧
    ∀ idx entries, ev = .firstSeenBatch idx entries → ∃ u, w.topo.idx u = idx

theorem fire_events [MsgHash] {mc : ModelCfg V} {peerState : V → NodeState} {ev : Ev} {now : Nat}
    {n n' : Node} {e : Effects V} (h : mc.fire peerState ev now n = some (n', e)) :
    ∀ x ∈ e.events, x.isShutdown = false ∧
      ∀ idx entries, x = .firstSeenBatch idx entries → mc.base.idx = idx := by
  have hdrain : ∀ (c : NodeCfg V), ∀ x ∈ (n.drain c now).2, x.isShutdown = false ∧
      ∀ idx entries, x = .firstSeenBatch idx entries → c.idx = idx := by
    intro c x hx
    rcases List.mem_append.1 hx with hx | hx
    · unfold sendFirstSeenBatch at hx
      split at hx
      · cases hx
      · rw [List.mem_singleton.1 hx]
        exact ⟨rfl, fun idx entries he => by cases he; rfl⟩
    · rw [List.mem_singleton.1 hx]
      exact ⟨rfl, fun idx entries he => by cases he⟩
  cases hf : ev.isFlush with
  | false =>
    rw [(fire_buffers h hf).1.events]
    simp
  | true =>
    have hev : ev = .flushSummary := by
      cases ev <;> simp [Ev.isFlush] at hf ⊢
    subst hev
    cases mc with
    | sketch c =>
      simp only [ModelCfg.fire, SketchNode.flushSummary] at h
      split at h
      · cases h
        intro x hx
        rcases List.mem_append.1 hx with hx | hx
        · exact hdrain c.toNodeCfg x hx
        · rw [List.mem_singleton.1 hx]
          exact ⟨rfl, fun idx entries he => by cases he⟩
      · cases h
        exact hdrain c.toNodeCfg
    | flooding c => cases h; exact hdrain c.toNodeCfg
    | cln c => cases h; exact hdrain c.toNodeCfg
    | lnd c => cases h; exact hdrain c.toNodeCfg

theorem Net.FromNodes.step [DecidableEq V] [MsgHash] (h : s.FromNodes w) {l : Label}
    (hs : LnConv.step w s l = some s') : s'.FromNodes w := by
  cases moves_of_step hs with
  | advance _ => exact h
  | deliver hp hr _ =>
    have hnil := (recv_buffers hr).1.events
    intro ev hev
    rw [Net.commit, hnil, List.append_nil] at hev
    exact h ev hev
  | @fire i q n e hq hr _ =>
    intro ev hev
    rcases List.mem_append.1 hev with hev | hev
    · exact h ev hev
    · obtain ⟨hsh, hidx⟩ := fire_events hr ev hev
      refine ⟨hsh, fun idx entries he => ⟨q.node, ?_⟩⟩
      rw [← w.idx_eq]
      exact hidx idx entries he

end Batches

/-! ## The flood -/

section Flood

variable {V : Type} [DecidableEq V] [MsgHash] {w : Network V} {o : V} {g m : Gossip} {d t₀ : Nat}
  {s s₀ : Net V} {ls : List Label}

omit [MsgHash] in
/-- A path visits no node twice. -/
theorem Topology.dist_le [Fintype V] {t : Topology V} (hc : t.graph.Connected) (u v : V) :
    t.graph.dist u v ≤ t.nodes.length - 1 := by
  have hcard : Fintype.card V = t.nodes.length := by
    have huniv : (Finset.univ : Finset V) = t.nodes.toFinset := by
      ext v
      simp [t.mem_nodes v]
    rw [← Finset.card_univ, huniv, List.toFinset_card_of_nodup t.nodup]
  obtain ⟨p, hp, hlen⟩ := hc.exists_path_of_dist u v
  have hlt := hp.length_lt
  omega

omit [DecidableEq V] [MsgHash] in
/-- Nothing stays in a buffer past the deadline. -/
theorem Shipping.shipped_of_finished (h : Shipping w s) (hend : w.Finished s) (u : V) :
    shipped (w.topo.idx u) s.metrics = s.counted u := by
  have hempty : s.buffered u = [] := by
    by_contra hne
    obtain ⟨q, hq, -, -, hle⟩ := h.due u hne
    exact absurd hle (not_le.2 (hend.queue q hq))
  rw [← h.kept u, hempty, List.append_nil]

/-- A run of a flood that ended after all its flushes: each node shipped the message, once,
with the time at which it heard it. -/
theorem flood_shipped [Fintype V] (hset : FloodSetup w o g m d (max t₀ 1))
    (hlong : max t₀ 1 + (w.topo.nodes.length - 1) * d < w.runDuration)
    (h₀ : init w [(t₀, o, g)] = some s₀) (hr : run (tstep w) s₀ ls = some s)
    (hend : w.Finished s) (v : V) : shipped (w.topo.idx v) s.metrics =
      stampSeen [m] (Flood.hearTime w.topo.graph o (max t₀ 1) d v) := by
  have hstart : ∃ f, Spreads w o g m d (max t₀ 1) s₀ f := ⟨_, Spreads.init hset h₀⟩
  have hkeep : ∀ t l t', (∃ f, Spreads w o g m d (max t₀ 1) t f) → tstep w t l = some t' →
      ∃ f, Spreads w o g m d (max t₀ 1) t' f := by
    rintro t l t' ⟨f, h⟩ hs
    obtain ⟨f', h', -⟩ := h.step hset hs
    exact ⟨f', h'⟩
  -- the flood is over before the last instant, so no tuple comes too late for a flush
  have htimely : Steps (tstep w) (Timely w) s₀ ls s := by
    refine steps_of_invariant hr hstart hkeep ?_
    rintro t l ⟨f, h⟩
    by_cases hlt : t.now < w.runDuration
    · cases l with
      | advance _ => trivial
      | deliver i => exact fun p _ => .inl hlt
      | fire i => exact fun q _ msg _ => .inl hlt
    · obtain ⟨hflight, hqueue⟩ := h.spent_of_lt hset (hlong.trans_le (not_lt.1 hlt))
      cases l with
      | advance _ => trivial
      | deliver i => intro p hp; simp [hflight] at hp
      | fire i =>
        intro q hq msg hmsg
        have hquiet := hqueue q (List.mem_of_getElem? hq)
        cases hev : q.ev <;> simp [hev, Ev.originated?, Ev.broadcasts] at hmsg hquiet
  have hship := htimely.invariant (P := Shipping w) (shipping_init h₀)
    fun _ _ _ hi hok hs => hi.step hok hs
  have hnow : s.now = w.runDuration := by
    refine le_antisymm hend.now_le (not_lt.1 fun hlt => ?_)
    obtain ⟨q, hq, -, -, htime⟩ := hship.final hlt o
    exact absurd htime (hend.queue q hq).ne'
  obtain ⟨f, hspread⟩ := run_invariant (P := fun s => ∃ f, Spreads w o g m d (max t₀ 1) s f)
    hr hstart hkeep
  have hspent := hspread.spent_of_lt hset (hnow ▸ hlong)
  have hexact := hspread.exact hset hspent
  rw [hship.shipped_of_finished hend v]
  by_cases hv : v = o
  · subst hv
    rw [hexact.origin, Flood.hearTime, SimpleGraph.dist_self, Nat.zero_sub, Nat.zero_mul,
      Nat.add_zero]
  · exact hexact.others v hv

/-- What the aggregator is sent of a flood: the message, from each node once, at its time. -/
structure FloodTuples (w : Network V) (o : V) (m : Gossip) (d t₀ : Nat)
    (l : List (Sighting w.topo.nodes.length)) : Prop where
  from_node : ∀ x ∈ l, ∃ u, w.topo.idx u = x.node
  of_node : ∀ u, ∀ v : Fin w.topo.nodes.length, w.topo.idx u = v →
    (l.filter fun x => x.node = v) = [⟨v, m, Flood.hearTime w.topo.graph o t₀ d u⟩]

namespace FloodTuples

variable {l : List (Sighting w.topo.nodes.length)}

omit [DecidableEq V] [MsgHash] in
theorem mem_iff (h : FloodTuples w o m d t₀ l) {x : Sighting w.topo.nodes.length} :
    x ∈ l ↔ ∃ u, w.topo.idx u = x.node ∧
      x = ⟨x.node, m, Flood.hearTime w.topo.graph o t₀ d u⟩ := by
  constructor
  · intro hx
    obtain ⟨u, hu⟩ := h.from_node x hx
    have hmem : x ∈ l.filter fun y => y.node = x.node := List.mem_filter.2 ⟨hx, by simp⟩
    rw [h.of_node u x.node hu] at hmem
    exact ⟨u, hu, List.mem_singleton.1 hmem⟩
  · rintro ⟨u, hu, hx⟩
    have hmem : x ∈ l.filter fun y => y.node = x.node := by
      rw [h.of_node u x.node hu]
      exact List.mem_singleton.2 hx
    exact (List.mem_filter.1 hmem).1

omit [DecidableEq V] [MsgHash] in
theorem nodup (h : FloodTuples w o m d t₀ l) : (l.map Sighting.node).Nodup := by
  refine List.nodup_iff_count_le_one.2 fun v => ?_
  rw [List.count, List.countP_map, List.countP_eq_length_filter]
  by_cases hv : ∃ x ∈ l, x.node = v
  · obtain ⟨x, hx, rfl⟩ := hv
    obtain ⟨u, hu⟩ := h.from_node x hx
    have hone := congrArg List.length (h.of_node u x.node hu)
    exact le_of_eq hone
  · rw [List.filter_eq_nil_iff.2 fun x hx hxv => hv ⟨x, hx, by simpa using hxv⟩]
    exact Nat.zero_le 1

omit [DecidableEq V] [MsgHash] in
theorem times_perm (h : FloodTuples w o m d t₀ l) (hidx : ∀ v, w.topo.idx v < w.topo.nodes.length) :
    (l.map (·.timeNs)).Perm (w.topo.nodes.map (Flood.hearTime w.topo.graph o t₀ d)) := by
  have hpairs : l.Perm (w.topo.nodes.map fun u =>
      ⟨⟨w.topo.idx u, hidx u⟩, m, Flood.hearTime w.topo.graph o t₀ d u⟩) := by
    refine (List.perm_ext_iff_of_nodup (List.Nodup.of_map _ h.nodup) ?_).2 fun x => ?_
    · refine w.topo.nodup.map fun u v huv => ?_
      injection huv with hnode
      exact w.topo.idx_inj u v (congrArg Fin.val hnode)
    · rw [h.mem_iff, List.mem_map]
      constructor
      · rintro ⟨u, hu, hx⟩
        refine ⟨u, w.topo.mem_nodes u, ?_⟩
        rw [hx]
        simp only [Sighting.mk.injEq, and_true]
        exact Fin.ext hu
      · rintro ⟨u, -, rfl⟩
        exact ⟨u, rfl, rfl⟩
  have hmap := hpairs.map (·.timeNs)
  rwa [List.map_map] at hmap

omit [DecidableEq V] [MsgHash] in
theorem oneMessage (h : FloodTuples w o m d t₀ l)
    (hns : ∀ u, Flood.hearTime w.topo.graph o t₀ d u < NOT_SEEN) : OneMessage m l where
  message x hx := by
    obtain ⟨u, -, hx⟩ := h.mem_iff.1 hx
    rw [hx]
  nodes := h.nodup
  times x hx := by
    obtain ⟨u, -, hx⟩ := h.mem_iff.1 hx
    rw [hx]
    exact (hns u).ne

end FloodTuples

theorem flood_tuples [Fintype V] (hset : FloodSetup w o g m d (max t₀ 1))
    (hlong : max t₀ 1 + (w.topo.nodes.length - 1) * d < w.runDuration)
    (hns : ∀ u, Flood.hearTime w.topo.graph o (max t₀ 1) d u < NOT_SEEN)
    (h₀ : init w [(t₀, o, g)] = some s₀) (hr : run (tstep w) s₀ ls = some s)
    (hend : w.Finished s) : FloodTuples w o m d (max t₀ 1)
      (sightings (s.metrics.filterMap (AggregatorThread.slotBatch? w.topo.nodes.length))) := by
  have hfrom : s.FromNodes w := run_invariant (P := Net.FromNodes w) hr
    (by rw [init_eq h₀]; intro ev hev; cases hev) fun _ _ _ h hs => h.step (step_of_tstep hs)
  constructor
  · intro x hx
    have hmem : x ∈ (sightings (s.metrics.filterMap (AggregatorThread.slotBatch?
        w.topo.nodes.length))).filter fun y => y.node = x.node := List.mem_filter.2 ⟨hx, by simp⟩
    rw [filter_node_sightings, List.mem_map] at hmem
    obtain ⟨e, he, -⟩ := hmem
    obtain ⟨ev, hev, he⟩ := List.mem_flatMap.1 he
    cases ev with
    | firstSeenBatch idx entries =>
      simp only [MetricsEvent.shippedBy] at he
      split at he
      · next hi =>
        obtain ⟨u, hu⟩ := (hfrom _ hev).2 idx entries rfl
        exact ⟨u, hu.trans hi⟩
      · cases he
    | _ => cases he
  · intro u v huv
    have hlt : Flood.hearTime w.topo.graph o (max t₀ 1) d u < 2 ^ 64 :=
      (hns u).trans (by decide)
    rw [filter_node_sightings, ← huv, flood_shipped hset hlong h₀ hr hend]
    simp only [stampSeen, List.map_cons, List.map_nil, nsSinceEpoch, Nat.mod_eq_of_lt hlt]

/-- What is reported of one origination in a network of flooding nodes, if the run is long
enough for the flood: one row, for the message and with its size, which every node saw; first
when it was originated, last when the farthest nodes heard it; and its percentiles are the order
statistics of the times at which the breadth-first distances have the nodes hear it. -/
theorem flood_reported [Fintype V] {P : Type} [PctIndex P] (ps : List P) (writer : Bool)
    (hw : w.FloodsAfter d) (hd : 0 < d) (hsimple : w.topo.Simple)
    (hc : w.topo.graph.Connected) (hg : g.HasScid)
    (hidx : ∀ v, w.topo.idx v < w.topo.nodes.length)
    (hlong : max t₀ 1 + (w.topo.nodes.length - 1) * d < w.runDuration)
    (hns : w.runDuration < 2 ^ 64) (h₀ : init w [(t₀, o, g)] = some s₀)
    (hr : run (tstep w) s₀ ls = some s) (hend : w.Finished s) :
    ∃ t : AggregatorThread P w.topo.nodes.length, ∃ row,
      AggregatorThread.spawn ps writer (s.metrics ++ [.finalizeAndShutdown]) = some t ∧
      t.state.mirror = [row] ∧ row.id = (g.originated (w.topo.id o) (max t₀ 1)).id ∧
      row.sizeBytes = g.sizeBytes ∧ row.nNodes = w.topo.nodes.length ∧
      row.coverage = w.topo.nodes.length ∧ row.originNs = max t₀ 1 ∧
      ExactStats ps w.topo.nodes.length
        (w.topo.nodes.map (Flood.hearTime w.topo.graph o (max t₀ 1) d)) row := by
  have hset : FloodSetup w o g (g.originated (w.topo.id o) (max t₀ 1)) d (max t₀ 1) :=
    ⟨hw, hd, hsimple, hc, hg, rfl⟩
  have htime : ∀ u, Flood.hearTime w.topo.graph o (max t₀ 1) d u < NOT_SEEN := by
    intro u
    have hdist := w.topo.dist_le hc o u
    have hle : Flood.hearTime w.topo.graph o (max t₀ 1) d u ≤
        max t₀ 1 + (w.topo.nodes.length - 1) * d :=
      Nat.add_le_add_left (Nat.mul_le_mul_right d ((Nat.sub_le _ _).trans hdist)) _
    have hbound : NOT_SEEN + 1 = 2 ^ 64 := by decide
    omega
  have htuples := flood_tuples hset hlong htime h₀ hr hend
  have hfrom : s.FromNodes w := run_invariant (P := Net.FromNodes w) hr
    (by rw [init_eq h₀]; intro ev hev; cases hev) fun _ _ _ h hs => h.step (step_of_tstep hs)
  have hin : ∀ idx entries, .firstSeenBatch idx entries ∈ s.metrics →
      idx < w.topo.nodes.length := by
    intro idx entries hev
    obtain ⟨u, rfl⟩ := (hfrom _ hev).2 idx entries rfl
    exact hidx u
  have hstate := AggregatorThread.spawn_state ps writer (fun ev hev => (hfrom ev hev).1) hin
  have hperm := htuples.times_perm hidx
  have hpos : 0 < w.topo.nodes.length := List.length_pos_of_mem (w.topo.mem_nodes o)
  have hne : sightings (s.metrics.filterMap
      (AggregatorThread.slotBatch? w.topo.nodes.length)) ≠ [] := by
    intro hnil
    have hlen := hperm.length_eq
    rw [hnil, List.length_map, List.length_map, List.length_nil] at hlen
    omega
  obtain ⟨a, row, ha, hmirror, hid, hsize, hn, hstats⟩ := (htuples.oneMessage htime).aggregate hne ps
  rw [ha] at hstate
  obtain ⟨t, ht, rfl⟩ := Option.map_eq_some_iff.1 hstate
  have hstats := hstats.perm hperm
  rw [originated_sizeBytes] at hsize
  refine ⟨t, row, ht, hmirror, hid, hsize, hn, ?_, ?_, hstats⟩
  · rw [hstats.coverage, List.length_map]
  · refine hstats.origin.unique ⟨?_, ?_⟩
    · refine List.mem_map.2 ⟨o, w.topo.mem_nodes o, ?_⟩
      rw [Flood.hearTime, SimpleGraph.dist_self, Nat.zero_sub, Nat.zero_mul, Nat.add_zero]
    · intro x hx
      obtain ⟨u, -, rfl⟩ := List.mem_map.1 hx
      exact Nat.le_add_right _ _

end Flood

/-! ## Three nodes in a line -/

section Line

local instance reportHash : MsgHash := ⟨List.length⟩

/-- Up to the end of a run of two seconds, with the flushes. -/
def reportLabels : List Label :=
  lineLabels ++ [.advance (2 * 10 ^ 9), .fire 0, .fire 0, .fire 0]

theorem flood_reported_line : ∃ s₀ s, ∃ t : AggregatorThread Percent 3, ∃ row,
    init (floodLine (2 * 10 ^ 9)) [(10 ^ 9, 0, sampleUpdate)] = some s₀ ∧
    run (tstep (floodLine (2 * 10 ^ 9))) s₀ reportLabels = some s ∧
    AggregatorThread.spawn [⟨50⟩, ⟨100⟩] true (s.metrics ++ [.finalizeAndShutdown]) = some t ∧
    t.state.mirror = [row] ∧ row.sizeBytes = 130 ∧ row.coverage = 3 ∧ row.originNs = 10 ^ 9 ∧
    ExactStats [(⟨50⟩ : Percent), ⟨100⟩] 3 ((floodLine (2 * 10 ^ 9)).topo.nodes.map
      (Flood.hearTime (floodLine (2 * 10 ^ 9)).topo.graph 0 (10 ^ 9) (10 ^ 8))) row := by
  have hruns : ((init (floodLine (2 * 10 ^ 9)) [(10 ^ 9, 0, sampleUpdate)]).any fun s₀ =>
      (run (tstep (floodLine (2 * 10 ^ 9))) s₀ reportLabels).any fun s =>
        decide ((floodLine (2 * 10 ^ 9)).Finished s)) = true := by
    decide +kernel
  obtain ⟨s₀, h₀, hrun⟩ := (Option.any_eq_true _ _).1 hruns
  obtain ⟨s, hr, hs⟩ := (Option.any_eq_true _ _).1 hrun
  have hw : (floodLine (2 * 10 ^ 9)).FloodsAfter (10 ^ 8) := fun v => ⟨_, rfl, rfl⟩
  have hsimple : (floodLine (2 * 10 ^ 9)).topo.Simple := ⟨by decide, by decide⟩
  have hscid : sampleUpdate.HasScid := fun _ => rfl
  obtain ⟨t, row, ht, hmirror, -, hsize, -, hcov, horigin, hstats⟩ :=
    flood_reported [(⟨50⟩ : Percent), ⟨100⟩] true hw (by decide) hsimple line_connected hscid
      (by decide) (by decide) (by decide) h₀ hr (of_decide_eq_true hs)
  exact ⟨s₀, s, t, row, h₀, hr, ht, hmirror, hsize, hcov, horigin, hstats⟩

end Line

end LnConv
