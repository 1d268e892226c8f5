import LnConv.Topology.PeerRun

/-!
# How many peers a vertex gets

The cap drops requests of a hub and each drop is one edge less; phase 3 gives it back where it finds
someone. No vertex is left short of its plan unless its turn runs out of vertices. A hub stays
within its cap as long as phase 3 does not draw it for a vertex whose edge to it was dropped before.
-/

namespace LnConv.Graph

variable {A : Type} {t t' : Topology A} {kFor maxPeerFor : A → Nat} {rng : Rng}
  {enforceHubCap : Bool} {ps : List NodePicks} {stats : PeerBuildStats}

/-! ## After phase 2 -/

section AfterPicks

theorem mem_neighbors_afterPicks (hE : t.peerEdges = []) {v y : Nat} :
    y ∈ (afterPicks enforceHubCap t ps).topology.neighbors v ↔ ∃ q ∈ requests ps,
      edgeAllowed enforceHubCap (hubKeptOf enforceHubCap ps) q.1 q.2 = true ∧
        (q = (v, y) ∨ q = (y, v)) := by
  unfold afterPicks
  rw [Topology.mem_neighbors, peerSet_addPicks ps hE, Finset.mem_image]
  constructor
  · rintro ⟨q, hq, he⟩
    rw [List.mem_toFinset, List.mem_filter] at hq
    have hends : q = (v, y) ∨ q = (v, y).swap := undirected_eq he
    exact ⟨q, hq.1, hq.2, hends⟩
  · rintro ⟨q, hq, hal, he⟩
    refine ⟨q, by rw [List.mem_toFinset, List.mem_filter]; exact ⟨hq, hal⟩, ?_⟩
    rcases he with rfl | rfl
    · rfl
    · exact Sym2.eq_swap

/-- The picks that are allowed and those that are dropped are the plan. -/
theorem length_allowed_add_drops {v : Nat} {p : NodePicks} (h : p.Plan t kFor maxPeerFor v)
    (enforceHubCap : Bool) (hubKept : List (Option (Finset Nat))) :
    (p.all.filter fun y => edgeAllowed enforceHubCap hubKept v y).length +
      p.drops enforceHubCap hubKept v = t.planned kFor maxPeerFor v := by
  rw [← h.length_all, NodePicks.drops, ← List.countP_eq_length_filter,
    List.length_eq_countP_add_countP fun y => edgeAllowed enforceHubCap hubKept v y]
  simp

/-- The picks that are not dropped are peers after phase 2. -/
theorem Plans.planned_le (h : Plans t kFor maxPeerFor ps) (hE : t.peerEdges = [])
    (enforceHubCap : Bool) {v : Nat} {p : NodePicks} (hp : ps[v]? = some p) :
    t.planned kFor maxPeerFor v ≤
      ((afterPicks enforceHubCap t ps).topology.neighbors v).card +
        p.drops enforceHubCap (hubKeptOf enforceHubCap ps) v := by
  have hplan := h.of v p hp
  rw [← length_allowed_add_drops hplan enforceHubCap (hubKeptOf enforceHubCap ps),
    ← List.toFinset_card_of_nodup (hplan.nodup_all.filter _)]
  refine Nat.add_le_add_right (Finset.card_le_card fun y hy => ?_) _
  rw [List.mem_toFinset, List.mem_filter] at hy
  exact (mem_neighbors_afterPicks hE).2
    ⟨(v, y), mem_requests.2 ⟨p, hp, hy.1⟩, hy.2, .inl rfl⟩

/-- A hub has no other peers after phase 2. -/
theorem Plans.hub_eq (h : Plans t kFor maxPeerFor ps) (hE : t.peerEdges = []) {v : Nat}
    {p : NodePicks} (hp : ps[v]? = some p) (hub : t.IsHub maxPeerFor v) :
    ((afterPicks true t ps).topology.neighbors v).card + p.drops true (hubKeptOf true ps) v =
      t.maxPeer maxPeerFor v := by
  have hplan := h.of v p hp
  have hplanned : t.planned kFor maxPeerFor v = t.maxPeer maxPeerFor v := by
    unfold Topology.planned
    exact if_pos hub
  refine le_antisymm ?_ (hplanned ▸ h.planned_le hE true hp)
  rw [← hplanned, ← length_allowed_add_drops hplan true (hubKeptOf true ps),
    ← List.toFinset_card_of_nodup (hplan.nodup_all.filter _)]
  refine Nat.add_le_add_right (Finset.card_le_card fun y hy => ?_) _
  rw [List.mem_toFinset, List.mem_filter]
  obtain ⟨q, hq, hal, rfl | rfl⟩ := (mem_neighbors_afterPicks hE).1 hy
  · obtain ⟨p', hp', hmem⟩ := mem_requests.1 hq
    rw [hp] at hp'
    cases hp'
    exact ⟨hmem, hal⟩
  · have hisHub : p.isHub = true := by
      rw [hplan.isHub]
      exact decide_eq_true hub
    have hkept : y ∈ p.keptCounterparties := edgeAllowed_iff.1 hal rfl p hp hisHub
    refine ⟨List.mem_append_left _ hkept, ?_⟩
    by_contra hrej
    exact h.not_requested_back (q := (v, y)) hrej hq

/-- A request is an edge, or it is rejected. -/
theorem Plans.length_add_rejected (h : Plans t kFor maxPeerFor ps) (hE : t.peerEdges = [])
    (enforceHubCap : Bool) :
    (afterPicks enforceHubCap t ps).topology.peerEdges.length +
      (afterPicks enforceHubCap t ps).stats.hubRejectedEdges =
        ((requests ps).toFinset.image undirected).card := by
  have htwo := h.phaseTwo enforceHubCap
  rw [h.card_edges enforceHubCap, htwo.rejected,
    ← (htwo.peersOk (.of_empty hE)).card_peerSet]
  unfold afterPicks
  rw [peerSet_addPicks ps hE, Nat.zero_add]

/-- Without the cap nothing is rejected. -/
theorem Plans.rejected_false (h : Plans t kFor maxPeerFor ps) :
    (afterPicks false t ps).stats.hubRejectedEdges = 0 := by
  rw [(h.phaseTwo false).rejected, Nat.zero_add]
  exact List.countP_eq_zero.2 fun q _ => by simp [edgeAllowed]

end AfterPicks

/-! ## The turns -/

section Turns

variable {n : Nat} {l : List Nat} {turns : List Turn} {s s' : Topology A × PeerBuildStats}

theorem PhaseThree.sum_dropped (h : PhaseThree n l.zipIdx turns s s') :
    (turns.map Turn.dropped).sum = l.sum := by
  have hfst := congrArg (List.map Prod.fst) h.order
  rw [List.map_map, List.zipIdx_map_fst] at hfst
  exact congrArg List.sum hfst

theorem PhaseThree.nodup_nodes (h : PhaseThree n l.zipIdx turns s s') :
    (turns.map Turn.node).Nodup := by
  have hsnd := congrArg (List.map Prod.snd) h.order
  rw [List.map_map] at hsnd
  have hnodes : turns.map Turn.node = l.zipIdx.map Prod.snd := hsnd
  rw [hnodes]
  exact List.nodup_zipIdx_map_snd l

/-- Every vertex has its turn. -/
theorem PhaseThree.exists_turn (h : PhaseThree n l.zipIdx turns s s') {v : Nat}
    (hv : v < l.length) : ∃ x ∈ turns, x.node = v := by
  have hmem : (l[v], v) ∈ turns.map fun x => (x.dropped, x.node) := by
    rw [h.order]
    exact List.mem_zipIdx_iff_getElem?.2 (List.getElem?_eq_getElem hv)
  obtain ⟨x, hx, he⟩ := List.mem_map.1 hmem
  exact ⟨x, hx, congrArg Prod.snd he⟩

/-- The turns add what they draw, as far as there is something to draw. -/
theorem PhaseThree.added_eq (h : PhaseThree n l.zipIdx turns s s') :
    s'.2.replacementsAdded =
      s.2.replacementsAdded + (turns.map fun x => min x.dropped x.eligible.card).sum := by
  rw [h.added, List.map_congr_left fun x hx => (h.ok x hx).length]

/-- The degree that the turns add: a vertex's own draws, and one for each turn that draws it. -/
theorem edgeDegree_turns (hok : ∀ x ∈ turns, x.Ok n) (v : Nat) :
    edgeDegree (turns.flatMap fun x => x.drawn.map fun y => (x.node, y)) v =
      (turns.map fun x => if x.node = v then x.drawn.length else 0).sum +
        turns.countP fun x => v ∈ x.drawn := by
  induction turns with
  | nil => rfl
  | cons x turns ih =>
    have hx := hok x List.mem_cons_self
    have ih := ih fun y hy => hok y (List.mem_cons_of_mem x hy)
    rw [List.flatMap_cons, edgeDegree_append, edgeDegree_star hx.nodup, ih, List.map_cons,
      List.sum_cons, List.countP_cons]
    by_cases hv : x.node = v
    · have hnot : v ∉ x.drawn := fun hm => hx.ne (hv ▸ hx.subset v hm)
      simp only [hv, hnot, if_true, decide_false, Bool.false_eq_true, if_false]
      omega
    · by_cases hm : v ∈ x.drawn
      · simp only [hv, hm, if_true, decide_true, if_false]
        omega
      · simp only [hv, hm, decide_false, Bool.false_eq_true, if_false]
        omega

theorem sum_own (hnd : (turns.map Turn.node).Nodup) {x : Turn} (hx : x ∈ turns) :
    (turns.map fun y => if y.node = x.node then y.drawn.length else 0).sum = x.drawn.length := by
  induction turns with
  | nil => cases hx
  | cons z turns ih =>
    obtain ⟨hz, hnd⟩ := List.nodup_cons.1 hnd
    rw [List.map_cons, List.sum_cons]
    rcases List.mem_cons.1 hx with rfl | hx
    · have hrest : ∀ y ∈ turns, (if y.node = x.node then y.drawn.length else 0) = 0 :=
        fun y hy => if_neg fun he => hz (List.mem_map.2 ⟨y, hy, he⟩)
      rw [if_pos rfl, List.sum_eq_zero, Nat.add_zero]
      intro k hk
      obtain ⟨y, hy, rfl⟩ := List.mem_map.1 hk
      exact hrest y hy
    · have hne : z.node ≠ x.node := fun he => hz (List.mem_map.2 ⟨x, hx, he.symm⟩)
      rw [if_neg hne, Nat.zero_add]
      exact ih hnd hx

/-- The degree of a vertex after its own turn and those of the others. -/
theorem PhaseThree.edgeDegree_eq (h : PhaseThree n l.zipIdx turns s s') {x : Turn}
    (hx : x ∈ turns) : edgeDegree s'.1.peerEdges x.node = edgeDegree s.1.peerEdges x.node +
      x.drawn.length + turns.countP fun y => x.node ∈ y.drawn := by
  rw [h.edges, edgeDegree_append, edgeDegree_turns h.ok, sum_own h.nodup_nodes hx, Nat.add_assoc]

end Turns

/-! ## The number of edges -/

section EdgeCount

variable [IndexSample] {fuel : Nat} {o : HashOrder}

/-- With the cap there is an edge less for each rejection and one more for each replacement. -/
theorem edges_preserved (hE : t.peerEdges = [])
    (h : buildPeerGraph fuel o t kFor maxPeerFor rng true = some (t', stats)) :
    ∃ t₀ stats₀, buildPeerGraph fuel o t kFor maxPeerFor rng false = some (t₀, stats₀) ∧
      t'.peerEdges.length + stats.hubRejectedEdges =
        t₀.peerEdges.length + stats.replacementsAdded ∧
      stats.replacementsAdded = ((phase3Turns fuel o t kFor maxPeerFor rng).map fun x =>
        min x.dropped x.eligible.card).sum ∧
      ((∀ x ∈ phase3Turns fuel o t kFor maxPeerFor rng, x.dropped ≤ x.eligible.card) →
        stats.replacementsAdded = stats.hubRejectedEdges) := by
  by_cases hn : t.nodes.length < 2
  · unfold buildPeerGraph at h ⊢
    rw [if_pos hn] at h ⊢
    cases h
    refine ⟨t, ⟨0, 0⟩, rfl, rfl, ?_, fun _ => rfl⟩
    unfold phase3Turns
    rw [if_pos hn]
    rfl
  obtain ⟨r, hr, h3⟩ := buildPeerGraph_true hn hE h
  have hplans := pickNodes_plans hr
  have htwo := hplans.phaseTwo true
  have hadded : stats.replacementsAdded = _ := h3.added_eq
  rw [show (afterPicks true t r.1).stats.replacementsAdded = 0 from htwo.added, Nat.zero_add]
    at hadded
  refine ⟨_, _, buildPeerGraph_false hn hr, ?_, hadded, fun hpool => ?_⟩
  · have hlen : t'.peerEdges.length = (afterPicks true t r.1).topology.peerEdges.length +
        ((phase3Turns fuel o t kFor maxPeerFor rng).map fun x => x.drawn.length).sum := by
      rw [show t'.peerEdges = _ from h3.edges, List.length_append, List.length_flatMap]
      simp only [List.length_map]
    have hdrawn : stats.replacementsAdded =
        ((phase3Turns fuel o t kFor maxPeerFor rng).map fun x => x.drawn.length).sum := by
      rw [show stats.replacementsAdded = _ from h3.added, htwo.added, Nat.zero_add]
    have hcapped := hplans.length_add_rejected hE true
    have hfree := hplans.length_add_rejected hE false
    rw [hplans.rejected_false] at hfree
    have hrej : stats.hubRejectedEdges = (afterPicks true t r.1).stats.hubRejectedEdges :=
      h3.rejected
    omega
  · have hmin : ((phase3Turns fuel o t kFor maxPeerFor rng).map fun x =>
        min x.dropped x.eligible.card) =
          (phase3Turns fuel o t kFor maxPeerFor rng).map Turn.dropped :=
      List.map_congr_left fun x hx => Nat.min_eq_left (hpool x hx)
    have hdropped : (afterPicks true t r.1).droppedPerNode.sum =
        (afterPicks true t r.1).stats.hubRejectedEdges := by
      rw [htwo.dropped, htwo.rejected, List.sum_replicate]
      · rfl
      · intro q hq
        rw [List.length_replicate]
        exact (hplans.requests_lt hq).1
    rw [hadded, hmin, h3.sum_dropped, hdropped]
    exact h3.rejected.symm

end EdgeCount

/-- The channels to a star's hub with a cap of one, and the turns of phase 3. -/
theorem exists_star : ∃ t t' stats t₀ stats₀, star = some t ∧ t.peerEdges = [] ∧ t.nodes.length = 3 ∧
    @buildPeerGraph rotateSample _ 4 .ascending t (fun _ => 0) (fun _ => 1) counting true =
      some (t', stats) ∧
    @buildPeerGraph rotateSample _ 4 .ascending t (fun _ => 0) (fun _ => 1) counting false =
      some (t₀, stats₀) ∧
    (@phase3Turns _ rotateSample 4 .ascending t (fun _ => 0) (fun _ => 1) counting).map
      (fun x => (x.dropped, x.eligible.card)) = [(0, 1), (0, 1), (1, 1)] := by
  have hruns : (star.bind fun t =>
      (@buildPeerGraph rotateSample _ 4 .ascending t (fun _ => 0) (fun _ => 1) counting true).bind
        fun _ =>
      (@buildPeerGraph rotateSample _ 4 .ascending t (fun _ => 0) (fun _ => 1) counting false).map
        fun _ => decide (t.peerEdges = [] ∧ t.nodes.length = 3 ∧
          (@phase3Turns _ rotateSample 4 .ascending t (fun _ => 0) (fun _ => 1) counting).map
            (fun x => (x.dropped, x.eligible.card)) = [(0, 1), (0, 1), (1, 1)])) = some true := by
    decide +kernel
  obtain ⟨t, ht, hruns⟩ := Option.bind_eq_some_iff.1 hruns
  obtain ⟨⟨t', stats⟩, hs, hruns⟩ := Option.bind_eq_some_iff.1 hruns
  obtain ⟨⟨t₀, stats₀⟩, hs₀, hruns⟩ := Option.map_eq_some_iff.1 hruns
  obtain ⟨hE, hn, hturns⟩ := of_decide_eq_true hruns
  exact ⟨t, t', stats, t₀, stats₀, ht, hE, hn, hs, hs₀, hturns⟩

/-- Turns with these numbers are not short of vertices. -/
theorem dropped_le_of_map {turns : List Turn}
    (h : turns.map (fun x => (x.dropped, x.eligible.card)) = [(0, 1), (0, 1), (1, 1)]) :
    ∀ x ∈ turns, x.dropped ≤ x.eligible.card := by
  intro x hx
  have hmem := List.mem_map_of_mem (f := fun x : Turn => (x.dropped, x.eligible.card)) hx
  simp only [h, List.mem_cons, Prod.mk.injEq, List.not_mem_nil, or_false] at hmem
  omega

/-- One edge is rejected and replaced. -/
theorem edges_preserved_star : ∃ t t' stats t₀ stats₀, star = some t ∧
    @buildPeerGraph rotateSample _ 4 .ascending t (fun _ => 0) (fun _ => 1) counting true =
      some (t', stats) ∧
    @buildPeerGraph rotateSample _ 4 .ascending t (fun _ => 0) (fun _ => 1) counting false =
      some (t₀, stats₀) ∧
    t'.peerEdges.length + stats.hubRejectedEdges =
      t₀.peerEdges.length + stats.replacementsAdded ∧
    stats.replacementsAdded = 1 ∧ stats.hubRejectedEdges = 1 := by
  obtain ⟨t, t', stats, -, -, ht, hE, -, hs, -, hturns⟩ := exists_star
  let _ := rotateSample
  obtain ⟨t₀, stats₀, hs₀, hcount, hadded, hpool⟩ := edges_preserved hE hs
  have hone : stats.replacementsAdded = 1 := by
    have hmin := congrArg (List.map fun p : Nat × Nat => min p.1 p.2) hturns
    rw [List.map_map] at hmin
    rw [hadded]
    exact congrArg List.sum hmin
  exact ⟨t, t', stats, t₀, stats₀, ht, hs, hs₀, hcount, hone,
    (hpool (dropped_le_of_map hturns)).symm.trans hone⟩

/-! ## The degrees -/

section Degrees

variable [IndexSample] {fuel : Nat} {o : HashOrder}

/-- What a turn finds of its vertex after phase 2, and how many peers the vertex ends with. -/
structure Turn.Finds (t t' : Topology A) (kFor maxPeerFor : A → Nat) (turns : List Turn)
    (ps : List NodePicks) (x : Turn) (p : NodePicks) : Prop where
  picks : ps[x.node]? = some p
  plan : p.Plan t kFor maxPeerFor x.node
  ok : x.Ok t.nodes.length
  dropped : x.dropped = p.drops true (hubKeptOf true ps) x.node
  card_neighbors : (t'.neighbors x.node).card =
    ((afterPicks true t ps).topology.neighbors x.node).card + x.drawn.length +
      turns.countP fun y => x.node ∈ y.drawn

theorem turns_find (hE : t.peerEdges = []) (hn : ¬t.nodes.length < 2)
    (h : buildPeerGraph fuel o t kFor maxPeerFor rng true = some (t', stats)) :
    ∃ ps, Plans t kFor maxPeerFor ps ∧ PeersOk t.nodes.length t' ∧
      (∀ v < t.nodes.length, ∃ x ∈ phase3Turns fuel o t kFor maxPeerFor rng, x.node = v) ∧
      ∀ x ∈ phase3Turns fuel o t kFor maxPeerFor rng, ∃ p,
        x.Finds t t' kFor maxPeerFor (phase3Turns fuel o t kFor maxPeerFor rng) ps p := by
  obtain ⟨r, hr, h3⟩ := buildPeerGraph_true hn hE h
  have hplans := pickNodes_plans hr
  have htwo := hplans.phaseTwo true
  have hlen : (afterPicks true t r.1).droppedPerNode.length = t.nodes.length := by
    rw [htwo.length, List.length_replicate]
  refine ⟨r.1, hplans, h3.peersOk, fun v hv => h3.exists_turn (hlen ▸ hv), fun x hx => ?_⟩
  have hmem : (x.dropped, x.node) ∈ (afterPicks true t r.1).droppedPerNode.zipIdx := by
    rw [← h3.order]
    exact List.mem_map.2 ⟨x, hx, rfl⟩
  have hlt : x.node < r.1.length := by
    rw [hplans.length]
    exact (h3.ok x hx).node_lt
  have hp := List.getElem?_eq_getElem hlt
  refine ⟨_, hp, hplans.of _ _ hp, h3.ok x hx, ?_, ?_⟩
  · have hd := drops_of_mem_zipIdx rfl hmem
    rw [hp] at hd
    exact hd
  · rw [h3.peersOk.card_neighbors, (htwo.peersOk (.of_empty hE)).card_neighbors]
    exact h3.edgeDegree_eq hx

omit [IndexSample] in
theorem counterparties_eq_empty (hn : t.nodes.length < 2) {v : Nat} (hv : v < t.nodes.length) :
    t.counterparties v = ∅ := by
  apply Finset.eq_empty_of_forall_notMem
  intro y hy
  have hlt := Topology.counterparties_lt hy
  have hne := (Topology.mem_counterparties.1 hy).1
  omega

omit [IndexSample] in
/-- With fewer than two vertices nobody plans a pick. -/
theorem planned_eq_zero (hn : t.nodes.length < 2) {v : Nat} (hv : v < t.nodes.length) :
    t.planned kFor maxPeerFor v = 0 := by
  unfold Topology.planned
  rw [counterparties_eq_empty hn hv, Finset.card_empty]
  dsimp only
  split
  · omega
  · split
    · rfl
    · omega

/-- The graph is simple, and a vertex has at least the peers it plans, unless its turn runs out of
vertices. -/
theorem peers_simple_and_planned (hE : t.peerEdges = [])
    (h : buildPeerGraph fuel o t kFor maxPeerFor rng enforceHubCap = some (t', stats)) :
    SimpleEdges t'.peerEdges ∧
      (∀ v < t.nodes.length, t.planned kFor maxPeerFor v ≤ edgeDegree t'.peerEdges v ∨
        enforceHubCap = true ∧ ∃ x ∈ phase3Turns fuel o t kFor maxPeerFor rng, x.node = v ∧
          x.eligible.card < x.dropped) ∧
      (enforceHubCap = false → ∀ v, ¬t.IsHub maxPeerFor v →
        t.counterparties v ⊆ t'.neighbors v) := by
  by_cases hn : t.nodes.length < 2
  · unfold buildPeerGraph at h
    rw [if_pos hn] at h
    cases h
    refine ⟨hE ▸ .nil, fun v hv => .inl ?_, fun _ v _ y hy => ?_⟩
    · rw [planned_eq_zero hn hv]
      exact Nat.zero_le _
    · have hv : v < t.nodes.length := Topology.counterparties_lt (Topology.counterparties_comm.1 hy)
      rw [counterparties_eq_empty hn hv] at hy
      exact absurd hy (Finset.notMem_empty y)
  cases enforceHubCap with
  | false =>
    obtain ⟨r, hr, -⟩ : ∃ r, pickNodes fuel o t kFor maxPeerFor t.nodes.length rng = some r ∧
        True := by
      unfold buildPeerGraph at h
      rw [if_neg hn] at h
      obtain ⟨r, hr, -⟩ := Option.bind_eq_some_iff.1 h
      exact ⟨r, hr, trivial⟩
    have hplans := pickNodes_plans hr
    have hok := (hplans.phaseTwo false).peersOk (.of_empty hE)
    rw [buildPeerGraph_false hn hr] at h
    cases h
    have hget : ∀ v < t.nodes.length, ∃ p, r.1[v]? = some p := fun v hv =>
      ⟨_, List.getElem?_eq_getElem (hplans.length.symm ▸ hv)⟩
    refine ⟨hok.simple, fun v hv => .inl ?_, fun _ v hub y hy => ?_⟩
    · obtain ⟨p, hp⟩ := hget v hv
      have hle := hplans.planned_le hE false hp
      have hdrops : p.drops false (hubKeptOf false r.1) v = 0 :=
        List.countP_eq_zero.2 fun y _ => by simp [edgeAllowed]
      rwa [hdrops, Nat.add_zero, hok.card_neighbors] at hle
    · obtain ⟨p, hp⟩ := hget v (Topology.counterparties_lt (Topology.counterparties_comm.1 hy))
      have hkept : y ∈ p.all :=
        ((hplans.of v p hp).mem_all_of_not_hub hub).2 (.inl hy)
      exact (mem_neighbors_afterPicks hE).2
        ⟨(v, y), mem_requests.2 ⟨p, hp, hkept⟩, by simp [edgeAllowed], .inl rfl⟩
  | true =>
    obtain ⟨ps, hplans, hok, hturn, hfinds⟩ := turns_find hE hn h
    refine ⟨hok.simple, fun v hv => ?_, fun hfalse => Bool.noConfusion hfalse⟩
    obtain ⟨x, hx, rfl⟩ := hturn v hv
    obtain ⟨p, hf⟩ := hfinds x hx
    by_cases hpool : x.eligible.card < x.dropped
    · exact .inr ⟨rfl, x, hx, rfl, hpool⟩
    · left
      have hle := hplans.planned_le hE true hf.picks
      have hlen := hf.ok.length
      have hcard := hf.card_neighbors
      have hd := hf.dropped
      rw [hok.card_neighbors] at hcard
      omega

end Degrees

/-- With the cap the vertices have the peers they plan, without it all their counterparties. -/
theorem peers_simple_and_planned_star : ∃ t t' stats t₀ stats₀, star = some t ∧
    @buildPeerGraph rotateSample _ 4 .ascending t (fun _ => 0) (fun _ => 1) counting true =
      some (t', stats) ∧
    @buildPeerGraph rotateSample _ 4 .ascending t (fun _ => 0) (fun _ => 1) counting false =
      some (t₀, stats₀) ∧
    SimpleEdges t'.peerEdges ∧
    (∀ v < 3, t.planned (fun _ => 0) (fun _ => 1) v ≤ edgeDegree t'.peerEdges v) ∧
    SimpleEdges t₀.peerEdges ∧
    ∀ v, ¬t.IsHub (fun _ => 1) v → t.counterparties v ⊆ t₀.neighbors v := by
  obtain ⟨t, t', stats, t₀, stats₀, ht, hE, hn, hs, hs₀, hturns⟩ := exists_star
  let _ := rotateSample
  obtain ⟨hsimple, hplanned, -⟩ := peers_simple_and_planned hE hs
  obtain ⟨hsimple₀, -, hall⟩ := peers_simple_and_planned hE hs₀
  refine ⟨t, t', stats, t₀, stats₀, ht, hs, hs₀, hsimple, fun v hv => ?_, hsimple₀, hall rfl⟩
  rcases hplanned v (hn ▸ hv) with hle | ⟨-, x, hx, -, hshort⟩
  · exact hle
  · exact absurd (dropped_le_of_map hturns x hx) (Nat.not_le_of_lt hshort)

/-! ## The cap -/

section Cap

variable [IndexSample] {fuel : Nat} {o : HashOrder}

/-- A hub stays within its cap if and only if the others draw it at most as often as its own turn
is short of vertices. -/
theorem hub_cap_iff (hE : t.peerEdges = [])
    (h : buildPeerGraph fuel o t kFor maxPeerFor rng true = some (t', stats)) :
    (∀ v, t.IsHub maxPeerFor v → (t'.neighbors v).card ≤ t.maxPeer maxPeerFor v) ↔
      ∀ x ∈ phase3Turns fuel o t kFor maxPeerFor rng, t.IsHub maxPeerFor x.node →
        ((phase3Turns fuel o t kFor maxPeerFor rng).countP fun y => x.node ∈ y.drawn) ≤
          x.dropped - x.eligible.card := by
  by_cases hn : t.nodes.length < 2
  · have hnone : phase3Turns fuel o t kFor maxPeerFor rng = [] := if_pos hn
    rw [hnone]
    refine iff_of_true (fun v hub => ?_) (by simp)
    have hgt : (t.counterparties v).card > t.maxPeer maxPeerFor v := hub
    rw [counterparties_eq_empty hn hub.lt, Finset.card_empty] at hgt
    omega
  obtain ⟨ps, hplans, -, hturn, hfinds⟩ := turns_find hE hn h
  -- for the hub of a turn both sides compare the same numbers
  have hturns : ∀ x ∈ phase3Turns fuel o t kFor maxPeerFor rng, t.IsHub maxPeerFor x.node →
      ((t'.neighbors x.node).card ≤ t.maxPeer maxPeerFor x.node ↔
        ((phase3Turns fuel o t kFor maxPeerFor rng).countP fun y => x.node ∈ y.drawn) ≤
          x.dropped - x.eligible.card) := by
    intro x hx hub
    obtain ⟨p, hf⟩ := hfinds x hx
    have hhub := hplans.hub_eq hE hf.picks hub
    have hlen := hf.ok.length
    have hcard := hf.card_neighbors
    have hd := hf.dropped
    omega
  constructor
  · exact fun hcap x hx hub => (hturns x hx hub).1 (hcap x.node hub)
  · intro hcap v hub
    obtain ⟨x, hx, rfl⟩ := hturn v hub.lt
    exact (hturns x hx hub).2 (hcap x hx hub)

end Cap

/-- In a star no other vertex draws the hub. -/
theorem hub_cap_star : ∃ t t' stats, star = some t ∧
    @buildPeerGraph rotateSample _ 4 .ascending t (fun _ => 0) (fun _ => 1) counting true =
      some (t', stats) ∧
    ∀ v, t.IsHub (fun _ => 1) v → (t'.neighbors v).card ≤ t.maxPeer (fun _ => 1) v := by
  have hturns : (star.map fun t => decide (∀ x ∈ @phase3Turns _ rotateSample 4 .ascending t
      (fun _ => 0) (fun _ => 1) counting, t.IsHub (fun _ => 1) x.node →
        ((@phase3Turns _ rotateSample 4 .ascending t (fun _ => 0) (fun _ => 1) counting).countP
          fun y => x.node ∈ y.drawn) ≤ x.dropped - x.eligible.card)) = some true := by
    decide +kernel
  obtain ⟨t, t', stats, -, -, ht, hE, -, hs, -, -⟩ := exists_star
  rw [ht] at hturns
  let _ := rotateSample
  exact ⟨t, t', stats, ht, hs, (hub_cap_iff hE hs).2 (of_decide_eq_true (Option.some.inj hturns))⟩

/-! ## A chain of channels -/

def chain : Option (Topology Unit) :=
  (Topology.ofNodes [0, 1, 2, 3, 4] ()).bind fun t => (t.addChannel 10 0 1).bind fun t =>
    (t.addChannel 11 1 2).bind fun t => (t.addChannel 12 2 3).bind fun t => t.addChannel 13 3 4

/-- The inner vertices keep their right neighbours; then 0 draws 4, 1 draws 0 and 2 draws 1. -/
def chainDraws : Rng := ⟨fun i => [1, 1, 1, 4, 0, 1].getD i 0, 0⟩

/-- Vertex 2 rejects hub 1, which gets vertex 0 instead; then vertex 2 draws hub 1. -/
theorem hub_exceeds_cap : ∃ t t' stats, chain = some t ∧ t.peerEdges = [] ∧
    @buildPeerGraph rotateSample _ 4 .ascending t (fun _ => 0) (fun _ => 1) chainDraws true =
      some (t', stats) ∧
    t'.neighbors 1 = {0, 2} ∧
    ¬∀ v, t.IsHub (fun _ => 1) v → (t'.neighbors v).card ≤ t.maxPeer (fun _ => 1) v := by
  have hruns : (chain.bind fun t => (@buildPeerGraph rotateSample _ 4 .ascending t (fun _ => 0)
      (fun _ => 1) chainDraws true).map fun s => decide (t.peerEdges = [] ∧
        t.IsHub (fun _ => 1) 1 ∧ t.maxPeer (fun _ => 1) 1 = 1 ∧ s.1.neighbors 1 = {0, 2})) =
      some true := by
    decide +kernel
  obtain ⟨t, ht, hruns⟩ := Option.bind_eq_some_iff.1 hruns
  obtain ⟨⟨t', stats⟩, hs, hend⟩ := Option.map_eq_some_iff.1 hruns
  obtain ⟨hE, hub, hmax, hpeers⟩ := of_decide_eq_true hend
  refine ⟨t, t', stats, ht, hE, hs, hpeers, fun hcap => ?_⟩
  have hle := hcap 1 hub
  rw [hmax, hpeers] at hle
  exact absurd hle (by decide)

end LnConv.Graph
