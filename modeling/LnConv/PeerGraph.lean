import LnConv.Topology.PeerFuel

/-!
# When the peer graph is reproducible

A hub keeps counterparties at drawn positions of a vector that was collected from a hash set,
so whom it keeps depends on the order of the set. The rest of the construction does not. The
edges are the same for all orders where no choice of a hub shows: without the cap where every
counterparty of a choosing hub keeps the hub itself, and with the cap where all counterparties
of a choosing hub reject everyone.
-/

namespace LnConv.Graph

open Filter

/-! ## Two orders -/

section Twins

variable {A : Type} {t : Topology A} {kFor maxPeerFor : A → Nat} {rng : Rng}
  {enforceHubCap : Bool} {ps ps' : List NodePicks}

theorem edgeAllowed_iff {src dst : Nat} :
    edgeAllowed enforceHubCap (hubKeptOf enforceHubCap ps) src dst ↔ (enforceHubCap = true →
      ∀ p, ps[dst]? = some p → p.isHub = true → src ∈ p.keptCounterparties) := by
  cases enforceHubCap with
  | false => simp [edgeAllowed]
  | true =>
    unfold edgeAllowed hubKeptOf
    simp only [Bool.not_true, Bool.false_eq_true, if_false, if_true, List.getElem?_map, forall_const]
    cases ps[dst]? with
    | none => simp
    | some p => cases hub : p.isHub <;> simp [hub]

theorem mem_rejecting_hubKeptOf {nx i : Nat} : i ∈ rejecting (hubKeptOf true ps) nx ↔
    ∃ p, ps[i]? = some p ∧ p.isHub = true ∧ nx ∉ p.keptCounterparties := by
  rw [mem_rejecting]
  unfold hubKeptOf
  simp only [if_true, List.getElem?_map, Option.map_eq_some_iff]
  constructor
  · rintro ⟨kept, ⟨p, hp, hk⟩, hn⟩
    cases hub : p.isHub with
    | false => simp [hub] at hk
    | true =>
      rw [hub, if_pos rfl, Option.some.injEq] at hk
      rw [← hk, List.mem_toFinset] at hn
      exact ⟨p, hp, hub, hn⟩
  · rintro ⟨p, hp, hub, hn⟩
    exact ⟨p.keptCounterparties.toFinset, ⟨p, hp, by rw [hub, if_pos rfl]⟩, by simpa using hn⟩

theorem NodePicks.Of.mem_all_of_not_hub {nx ny : Nat} {p : NodePicks} (h : p.Of t maxPeerFor nx)
    (hub : ¬t.IsHub maxPeerFor nx) :
    ny ∈ p.all ↔ ny ∈ t.counterparties nx ∨ ny ∈ p.strangers.toFinset := by
  rw [NodePicks.all, List.mem_append, ← h.kept_all hub, List.mem_toFinset, List.mem_toFinset]

/-- A hub picks some of its counterparties, if its cap lets it pick any. -/
theorem NodePicks.Of.mem_all_of_hub {nx ny : Nat} {p : NodePicks} (h : p.Of t maxPeerFor nx)
    (hub : t.IsHub maxPeerFor nx) (hm : ny ∈ p.all) :
    ny ∈ p.keptCounterparties ∧ ny ∈ t.counterparties nx ∧ 0 < t.maxPeer maxPeerFor nx := by
  rw [NodePicks.all, h.strangers_hub hub, List.append_nil] at hm
  refine ⟨hm, h.kept_subset (List.mem_toFinset.2 hm), ?_⟩
  rw [← h.kept_length hub]
  exact List.length_pos_of_mem hm

/-- The picks of all the vertices, up to the choices of the hubs. -/
structure PicksOf (t : Topology A) (maxPeerFor : A → Nat) (ps : List NodePicks) : Prop where
  length : ps.length = t.nodes.length
  of : ∀ nx (p : NodePicks), ps[nx]? = some p → p.Of t maxPeerFor nx

/-- No choice of a hub shows. -/
def OrderFree (t : Topology A) (maxPeerFor : A → Nat) (enforceHubCap : Bool) : Prop :=
  ∀ u, t.IsHub maxPeerFor u → 0 < t.maxPeer maxPeerFor u → ∀ v ∈ t.counterparties u,
    if enforceHubCap then t.IsHub maxPeerFor v ∧ t.maxPeer maxPeerFor v = 0
    else ¬t.IsHub maxPeerFor v

namespace PicksOf

variable {p : NodePicks} {nx ny : Nat}

theorem exists_of_hub (h : PicksOf t maxPeerFor ps) (hub : t.IsHub maxPeerFor nx) :
    ∃ p, ps[nx]? = some p ∧ p.isHub = true := by
  have hlt : nx < ps.length := h.length ▸ hub.lt
  refine ⟨ps[nx], List.getElem?_eq_getElem hlt, ?_⟩
  rw [(h.of nx _ (List.getElem?_eq_getElem hlt)).isHub, decide_eq_true hub]

theorem hub_of_isHub (h : PicksOf t maxPeerFor ps) (hp : ps[nx]? = some p) (hub : p.isHub = true) :
    t.IsHub maxPeerFor nx := by
  rw [(h.of nx p hp).isHub] at hub
  exact of_decide_eq_true hub

/-- Under the cap, a hub that picks a vertex is one whose counterparties reject everyone. -/
theorem picked_by_hub (h : PicksOf t maxPeerFor ps) (hof : OrderFree t maxPeerFor true)
    (hp : ps[ny]? = some p) (hub : p.isHub = true) (hm : nx ∈ p.keptCounterparties) :
    t.IsHub maxPeerFor nx ∧ t.maxPeer maxPeerFor nx = 0 := by
  have hub' := h.hub_of_isHub hp hub
  obtain ⟨-, hc, hpos⟩ := (h.of ny p hp).mem_all_of_hub hub' (List.mem_append_left _ hm)
  exact hof ny hub' hpos nx hc

theorem allowed_of_not_hub (h : PicksOf t maxPeerFor ps) (hof : OrderFree t maxPeerFor true)
    (hub : ¬t.IsHub maxPeerFor nx) :
    edgeAllowed true (hubKeptOf true ps) nx ny ↔ ¬t.IsHub maxPeerFor ny := by
  rw [edgeAllowed_iff]
  constructor
  · intro hal hub'
    obtain ⟨p, hp, hph⟩ := h.exists_of_hub hub'
    exact hub (h.picked_by_hub hof hp hph (hal rfl p hp hph)).1
  · intro hn _ p hp hph
    exact absurd (h.hub_of_isHub hp hph) hn

theorem not_allowed_of_hub (h : PicksOf t maxPeerFor ps) (hof : OrderFree t maxPeerFor true)
    (hp : ps[nx]? = some p) (hub : t.IsHub maxPeerFor nx) (hm : ny ∈ p.all) :
    ¬edgeAllowed true (hubKeptOf true ps) nx ny := by
  obtain ⟨-, hc, hpos⟩ := (h.of nx p hp).mem_all_of_hub hub hm
  obtain ⟨hub', -⟩ := hof nx hub hpos ny hc
  intro hal
  obtain ⟨q, hq, hqh⟩ := h.exists_of_hub hub'
  have hk := h.picked_by_hub hof hq hqh (edgeAllowed_iff.1 hal rfl q hq hqh)
  omega

theorem drops_eq (h : PicksOf t maxPeerFor ps) (hof : OrderFree t maxPeerFor true)
    (hp : ps[nx]? = some p) : p.drops true (hubKeptOf true ps) nx =
      if t.IsHub maxPeerFor nx then t.maxPeer maxPeerFor nx
      else p.all.countP fun ny => decide (t.IsHub maxPeerFor ny) := by
  unfold NodePicks.drops
  by_cases hub : t.IsHub maxPeerFor nx
  · rw [if_pos hub, ← (h.of nx p hp).kept_length hub]
    have hall : p.all = p.keptCounterparties := by
      rw [NodePicks.all, (h.of nx p hp).strangers_hub hub, List.append_nil]
    rw [← hall, List.countP_eq_length]
    intro ny hm
    simpa using h.not_allowed_of_hub hof hp hub hm
  · rw [if_neg hub]
    apply List.countP_congr
    intro ny _
    rw [Bool.not_eq_true', ← Bool.not_eq_true, h.allowed_of_not_hub hof hub, not_not, decide_eq_true_eq]

/-- A vertex with drops is rejected by every hub. -/
theorem rejecting_eq (h : PicksOf t maxPeerFor ps) (hof : OrderFree t maxPeerFor true)
    (hp : ps[nx]? = some p) (hd : p.drops true (hubKeptOf true ps) nx ≠ 0) :
    rejecting (hubKeptOf true ps) nx =
      (Finset.range t.nodes.length).filter fun i => t.IsHub maxPeerFor i := by
  ext i
  rw [mem_rejecting_hubKeptOf, Finset.mem_filter, Finset.mem_range]
  constructor
  · rintro ⟨q, hq, hqh, -⟩
    exact ⟨(h.hub_of_isHub hq hqh).lt, h.hub_of_isHub hq hqh⟩
  · rintro ⟨-, hub⟩
    obtain ⟨q, hq, hqh⟩ := h.exists_of_hub hub
    refine ⟨q, hq, hqh, fun hm => hd ?_⟩
    obtain ⟨hub', h0⟩ := h.picked_by_hub hof hq hqh hm
    rw [h.drops_eq hof hp, if_pos hub', h0]

end PicksOf

/-- The picks of two constructions that differ in the iteration orders. -/
structure Twins (t : Topology A) (maxPeerFor : A → Nat) (ps ps' : List NodePicks) : Prop where
  left : PicksOf t maxPeerFor ps
  right : PicksOf t maxPeerFor ps'
  strangers : (ps.map fun p => p.strangers.toFinset) = ps'.map fun p => p.strangers.toFinset

namespace Twins

theorem symm (h : Twins t maxPeerFor ps ps') : Twins t maxPeerFor ps' ps :=
  ⟨h.right, h.left, h.strangers.symm⟩

theorem get (h : Twins t maxPeerFor ps ps') {nx : Nat} {p : NodePicks} (hp : ps[nx]? = some p) :
    ∃ p', ps'[nx]? = some p' ∧ p'.strangers.toFinset = p.strangers.toFinset := by
  have hs := congrArg (fun l => l[nx]?) h.strangers
  simp only [List.getElem?_map, hp, Option.map_some] at hs
  exact Option.map_eq_some_iff.1 hs.symm

theorem mem_all_iff (h : Twins t maxPeerFor ps ps') {nx ny : Nat} {p p' : NodePicks}
    (hp : ps[nx]? = some p) (hp' : ps'[nx]? = some p')
    (hs : p'.strangers.toFinset = p.strangers.toFinset) (hub : ¬t.IsHub maxPeerFor nx) :
    ny ∈ p.all ↔ ny ∈ p'.all := by
  rw [(h.left.of nx p hp).mem_all_of_not_hub hub, (h.right.of nx p' hp').mem_all_of_not_hub hub, hs]

/-- An edge that one construction adds in phase 2, the other one adds too. -/
theorem edge (h : Twins t maxPeerFor ps ps') (hof : OrderFree t maxPeerFor enforceHubCap)
    {nx ny : Nat} {p : NodePicks} (hp : ps[nx]? = some p) (hm : ny ∈ p.all)
    (hal : edgeAllowed enforceHubCap (hubKeptOf enforceHubCap ps) nx ny) :
    ∃ mx p', ps'[mx]? = some p' ∧ ∃ my ∈ p'.all,
      edgeAllowed enforceHubCap (hubKeptOf enforceHubCap ps') mx my ∧ s(nx, ny) = s(mx, my) := by
  obtain ⟨p', hp', hs⟩ := h.get hp
  by_cases hub : t.IsHub maxPeerFor nx
  · cases enforceHubCap with
    | true => exact absurd hal (h.left.not_allowed_of_hub hof hp hub hm)
    | false =>
      -- the counterparty is no hub, so it picks the hub itself
      obtain ⟨-, hc, hpos⟩ := (h.left.of nx p hp).mem_all_of_hub hub hm
      have hub' : ¬t.IsHub maxPeerFor ny := hof nx hub hpos ny hc
      have hlt : ny < ps'.length := h.right.length ▸ Topology.counterparties_lt hc
      refine ⟨ny, ps'[ny], List.getElem?_eq_getElem hlt, nx, ?_, rfl, Sym2.eq_swap⟩
      rw [(h.right.of ny _ (List.getElem?_eq_getElem hlt)).mem_all_of_not_hub hub']
      exact .inl (Topology.counterparties_comm.1 hc)
  · refine ⟨nx, p', hp', ny, (h.mem_all_iff hp hp' hs hub).1 hm, ?_, rfl⟩
    cases enforceHubCap with
    | false => rfl
    | true => exact (h.right.allowed_of_not_hub hof hub).2 ((h.left.allowed_of_not_hub hof hub).1 hal)

theorem drops_eq (h : Twins t maxPeerFor ps ps') (hof : OrderFree t maxPeerFor true)
    {nx : Nat} {p p' : NodePicks} (hp : ps[nx]? = some p) (hp' : ps'[nx]? = some p')
    (hs : p'.strangers.toFinset = p.strangers.toFinset) :
    p.drops true (hubKeptOf true ps) nx = p'.drops true (hubKeptOf true ps') nx := by
  rw [h.left.drops_eq hof hp, h.right.drops_eq hof hp']
  by_cases hub : t.IsHub maxPeerFor nx
  · rw [if_pos hub, if_pos hub]
  · rw [if_neg hub, if_neg hub]
    have hl := h.left.of nx p hp
    have hr := h.right.of nx p' hp'
    unfold NodePicks.all
    rw [List.countP_append, List.countP_append]
    refine congrArg₂ (· + ·) (List.Perm.countP_eq _ ?_) (List.Perm.countP_eq _ ?_)
    · apply List.perm_of_nodup_nodup_toFinset_eq hl.kept_nodup hr.kept_nodup
      rw [hl.kept_all hub, hr.kept_all hub]
    · exact List.perm_of_nodup_nodup_toFinset_eq hl.strangers_nodup hr.strangers_nodup hs.symm

theorem dropped_eq (h : Twins t maxPeerFor ps ps') (hof : OrderFree t maxPeerFor true)
    {b : Building A} : (addPicks true (hubKeptOf true ps) ps b).droppedPerNode =
      (addPicks true (hubKeptOf true ps') ps' b).droppedPerNode := by
  refine List.ext_getElem? fun j => ?_
  rw [dropped_addPicks, dropped_addPicks]
  cases hp : ps[j]? with
  | none =>
    have hlen : ps'.length ≤ j := by
      rw [h.right.length, ← h.left.length]
      exact List.getElem?_eq_none_iff.1 hp
    rw [List.getElem?_eq_none hlen]
    rfl
  | some p =>
    obtain ⟨p', hp', hs⟩ := h.get hp
    rw [hp', Option.elim_some, Option.elim_some, h.drops_eq hof hp hp' hs]

theorem rejecting_eq (h : Twins t maxPeerFor ps ps') (hof : OrderFree t maxPeerFor true) {n : Nat}
    {b : Building A} (hb : b.droppedPerNode = List.replicate n 0) {x : Nat × Nat}
    (hx : x ∈ (addPicks true (hubKeptOf true ps) ps b).droppedPerNode.zipIdx) (h0 : x.1 ≠ 0) :
    rejecting (hubKeptOf true ps) x.2 = rejecting (hubKeptOf true ps') x.2 := by
  have hd := drops_of_mem_zipIdx hb hx
  cases hp : ps[x.2]? with
  | none =>
    rw [hp] at hd
    exact absurd hd h0
  | some p =>
    obtain ⟨p', hp', hs⟩ := h.get hp
    rw [hp, Option.elim_some] at hd
    rw [h.left.rejecting_eq hof hp (by omega),
      h.right.rejecting_eq hof hp' (by rw [← h.drops_eq hof hp hp' hs]; omega)]

theorem peerSet_eq (h : Twins t maxPeerFor ps ps')
    (hof : OrderFree t maxPeerFor enforceHubCap) {b : Building A} :
    (addPicks enforceHubCap (hubKeptOf enforceHubCap ps) ps b).topology.peerSet =
      (addPicks enforceHubCap (hubKeptOf enforceHubCap ps') ps' b).topology.peerSet := by
  ext e
  rw [mem_peerSet_addPicks, mem_peerSet_addPicks]
  refine or_congr_right ⟨?_, ?_⟩
  · rintro ⟨nx, p, hp, ny, hm, hal, rfl⟩
    exact h.edge hof hp hm hal
  · rintro ⟨nx, p, hp, ny, hm, hal, rfl⟩
    exact h.symm.edge hof hp hm hal

end Twins

end Twins

/-! ## Orders that make hubs choose -/

theorem perm_range_of_nodup {js : List Nat} {n : Nat} (hn : js.Nodup) (hlt : ∀ i ∈ js, i < n) :
    (js ++ (List.range n).filter (· ∉ js)).Perm (List.range n) := by
  refine (List.perm_ext_iff_of_nodup ?_ List.nodup_range).2 fun i => ?_
  · refine List.nodup_append'.2 ⟨hn, List.nodup_range.filter _, fun i hi hi' => ?_⟩
    simpa [hi] using (List.mem_filter.1 hi').2
  · rw [List.mem_append, List.mem_filter, List.mem_range, decide_eq_true_eq]
    exact ⟨fun h => h.elim (hlt i) And.left, fun hi => (em (i ∈ js)).imp_right fun h => ⟨hi, h⟩⟩

/-- A set is listed with the elements of a part of it at given positions. -/
theorem exists_list_at {s S : Finset Nat} (hS : S ⊆ s) {drawn : List Nat} (hn : drawn.Nodup)
    (hlt : ∀ i ∈ drawn, i < s.card) (hlen : drawn.length = S.card) :
    ∃ l : List Nat, l.Nodup ∧ l.toFinset = s ∧ ∀ i ∈ drawn, ∀ x, l[i]? = some x → x ∈ S := by
  -- the positions in the order in which they are filled, and what fills them
  let js := drawn ++ (List.range s.card).filter (· ∉ drawn)
  let xs := S.toList ++ (s \ S).toList
  have hperm : js.Perm (List.range s.card) := perm_range_of_nodup hn hlt
  have hxlen : xs.length = s.card := by
    have hle := Finset.card_le_card hS
    rw [List.length_append, Finset.length_toList, Finset.length_toList,
      Finset.card_sdiff_of_subset hS]
    omega
  have hxn : xs.Nodup := by
    refine List.nodup_append'.2 ⟨S.nodup_toList, (s \ S).nodup_toList, fun x hx hx' => ?_⟩
    exact (Finset.mem_sdiff.1 (Finset.mem_toList.1 hx')).2 (Finset.mem_toList.1 hx)
  have hmem : ∀ i ∈ List.range s.card, i ∈ js := fun i hi => hperm.mem_iff.2 hi
  have hget : ∀ i ∈ List.range s.card,
      ∃ h : js.idxOf i < xs.length, xs.getD (js.idxOf i) 0 = xs[js.idxOf i] := by
    intro i hi
    have h : js.idxOf i < xs.length := by
      rw [hxlen, ← List.length_range (n := s.card), ← hperm.length_eq]
      exact List.idxOf_lt_length_of_mem (hmem i hi)
    exact ⟨h, List.getD_eq_getElem _ _ h⟩
  have hln : ((List.range s.card).map fun i => xs.getD (js.idxOf i) 0).Nodup := by
    apply List.nodup_range.map_on
    intro i hi j hj he
    obtain ⟨hi', hei⟩ := hget i hi
    obtain ⟨hj', hej⟩ := hget j hj
    rw [hei, hej] at he
    exact (List.idxOf_inj (hmem i hi)).1 (hxn.getElem_inj_iff.1 he)
  refine ⟨_, hln, ?_, fun i hi x hx => ?_⟩
  · refine Finset.eq_of_subset_of_card_le (fun x hx => ?_) ?_
    · obtain ⟨i, hi, rfl⟩ := List.mem_map.1 (List.mem_toFinset.1 hx)
      obtain ⟨hi', hei⟩ := hget i hi
      rw [hei]
      rcases List.mem_append.1 (List.getElem_mem hi') with hm | hm
      · exact hS (Finset.mem_toList.1 hm)
      · exact (Finset.mem_sdiff.1 (Finset.mem_toList.1 hm)).1
    · rw [List.toFinset_card_of_nodup hln, List.length_map, List.length_range]
  · rw [List.getElem?_map, List.getElem?_range (hlt i hi), Option.map_some, Option.some.injEq] at hx
    obtain ⟨hi', hei⟩ := hget i (List.mem_range.2 (hlt i hi))
    have hidx : js.idxOf i < S.toList.length := by
      rw [List.idxOf_append_of_mem hi, Finset.length_toList, ← hlen]
      exact List.idxOf_lt_length_of_mem hi
    rw [← hx, hei, List.getElem_append_left hidx]
    exact Finset.mem_toList.1 (List.getElem_mem _)

/-- In the right order, `choose_multiple` chooses any part of the right size. -/
theorem exists_list_choose [IndexSample] {s S : Finset Nat} (hS : S ⊆ s) (rng : Rng) :
    ∃ l : List Nat, l.Nodup ∧ l.toFinset = s ∧ (chooseMultiple l rng S.card).1.toFinset = S := by
  have hlen := IndexSample.length rng s.card S.card
  rw [Nat.min_eq_left (Finset.card_le_card hS)] at hlen
  obtain ⟨l, hn, hs, hat⟩ := exists_list_at hS (IndexSample.nodup rng s.card S.card)
    (IndexSample.lt rng s.card S.card) hlen
  have hllen : l.length = s.card := by rw [← hs, List.toFinset_card_of_nodup hn]
  refine ⟨l, hn, hs, Finset.eq_of_subset_of_card_le (fun x hx => ?_) ?_⟩
  · obtain ⟨i, hi, hx⟩ := List.mem_filterMap.1 (List.mem_toFinset.1 hx)
    rw [hllen] at hi
    exact hat i hi x hx
  · rw [List.toFinset_card_of_nodup (nodup_chooseMultiple hn), length_chooseMultiple, hllen]
    have hle := Finset.card_le_card hS
    omega

section Choices

variable [IndexSample] {A : Type} {t : Topology A} {kFor maxPeerFor : A → Nat} {rng : Rng}

/-- Each set in ascending order. -/
def HashOrder.ascending : HashOrder where
  iter _ s := (List.range (s.sup id + 1)).filter (· ∈ s)
  nodup _ s := List.nodup_range.filter _
  toFinset _ s := by
    ext x
    rw [List.mem_toFinset, List.mem_filter, List.mem_range, decide_eq_true_eq]
    exact ⟨And.right, fun hx => ⟨Nat.lt_succ_of_le (Finset.le_sup (f := id) hx), hx⟩⟩

theorem picksOf {fuel : Nat} {o : HashOrder} {r : List NodePicks × Rng}
    (h : pickNodes fuel o t kFor maxPeerFor t.nodes.length rng = some r) :
    PicksOf t maxPeerFor r.1 := by
  obtain ⟨hlen, hpicks⟩ := pickNodes_spec h
  refine ⟨hlen, fun nx p hp => ?_⟩
  obtain ⟨s, rng', -, hn⟩ := hpicks nx p hp
  exact (pickNode_spec hn).1

variable (kFor) in
/-- Whom each hub keeps can be prescribed. -/
theorem exists_order (hfair : rng.Fair t.nodes.length) {S : Nat → Finset Nat}
    (hS : ∀ nx, t.IsHub maxPeerFor nx →
      S nx ⊆ t.counterparties nx ∧ (S nx).card = t.maxPeer maxPeerFor nx) :
    ∃ o ps rng', (∀ᶠ fuel in atTop,
      pickNodes fuel o t kFor maxPeerFor t.nodes.length rng = some (ps, rng')) ∧
      PicksOf t maxPeerFor ps ∧ ∀ nx p, ps[nx]? = some p → t.IsHub maxPeerFor nx →
        p.keptCounterparties.toFinset = S nx := by
  -- the state of the generator at each vertex, whatever the orders
  have hat : ∀ nx, ∃ s, nx ≤ t.nodes.length →
      ∀ᶠ fuel in atTop, pickShapes fuel t kFor maxPeerFor nx rng = some s := by
    intro nx
    by_cases hnx : nx ≤ t.nodes.length
    · obtain ⟨r, -, hF⟩ : ∃ r : List NodePicks × Rng, r.2.Fair t.nodes.length ∧ ∀ᶠ fuel in atTop,
          pickNodes fuel .ascending t kFor maxPeerFor nx rng = some r := pickNodes_eventually hnx hfair
      refine ⟨(r.1.map fun p => p.strangers.toFinset, r.2), fun _ => ?_⟩
      simp only [← pickNodes_map (o := .ascending)]
      exact eventually_map _ hF
    · exact ⟨([], rng), fun h => absurd h hnx⟩
  choose s hs using hat
  have hl : ∀ nx, ∃ l : List Nat, l.Nodup ∧ l.toFinset = t.counterparties nx ∧
      (t.IsHub maxPeerFor nx →
        (chooseMultiple l (s nx).2 (t.maxPeer maxPeerFor nx)).1.toFinset = S nx) := by
    intro nx
    by_cases hub : t.IsHub maxPeerFor nx
    · obtain ⟨l, hn, hl, hch⟩ := exists_list_choose (hS nx hub).1 (s nx).2
      exact ⟨l, hn, hl, fun _ => by rw [← (hS nx hub).2]; exact hch⟩
    · exact ⟨_, HashOrder.ascending.nodup (.counterparties nx) _,
        HashOrder.ascending.toFinset (.counterparties nx) _, fun h => absurd h hub⟩
  choose l hln hlset hlch using hl
  let o : HashOrder :=
    { iter := fun site x => match site with
        | .counterparties nx =>
          if x = t.counterparties nx then l nx else HashOrder.ascending.iter site x
        | _ => HashOrder.ascending.iter site x
      nodup := fun site x => by
        cases site with
        | counterparties nx =>
          dsimp only
          split
          · exact hln nx
          · exact HashOrder.ascending.nodup _ x
        | _ => exact HashOrder.ascending.nodup _ x
      toFinset := fun site x => by
        cases site with
        | counterparties nx =>
          dsimp only
          split
          · next hx => rw [hlset, hx]
          · exact HashOrder.ascending.toFinset _ x
        | _ => exact HashOrder.ascending.toFinset _ x }
  obtain ⟨r, -, hF⟩ : ∃ r : List NodePicks × Rng, r.2.Fair t.nodes.length ∧ ∀ᶠ fuel in atTop,
    pickNodes fuel o t kFor maxPeerFor t.nodes.length rng = some r :=
      pickNodes_eventually (Nat.le_refl t.nodes.length) hfair
  obtain ⟨fuel, hfuel⟩ := hF.exists
  have hps := picksOf hfuel
  refine ⟨o, r.1, r.2, hF, hps, fun nx p hp hub => ?_⟩
  obtain ⟨fuel, hfuel, hshape⟩ := (hF.and (hs nx hub.lt.le)).exists
  obtain ⟨s', rng', hs', hpick⟩ := (pickNodes_spec hfuel).2 nx p hp
  rw [hshape, Option.some.injEq] at hs'
  subst hs'
  rw [(pickNode_spec hpick).2 hub, ← hlch nx hub]
  exact congrArg (fun x => (chooseMultiple x _ _).1.toFinset) (if_pos rfl)

end Choices

section Reproducible

variable [IndexSample] {A : Type} {t : Topology A} {kFor maxPeerFor : A → Nat} {rng : Rng}
  {enforceHubCap : Bool}

/-- Phase 1 with two orders: both run out of fuel, or the picks are twins. -/
theorem pickNodes_twins (fuel : Nat) (o o' : HashOrder) :
    (pickNodes fuel o t kFor maxPeerFor t.nodes.length rng = none ∧
      pickNodes fuel o' t kFor maxPeerFor t.nodes.length rng = none) ∨
    ∃ ps ps' rng', pickNodes fuel o t kFor maxPeerFor t.nodes.length rng = some (ps, rng') ∧
      pickNodes fuel o' t kFor maxPeerFor t.nodes.length rng = some (ps', rng') ∧
      Twins t maxPeerFor ps ps' := by
  have hm : (pickNodes fuel o t kFor maxPeerFor t.nodes.length rng).map
      (fun r => (r.1.map fun p => p.strangers.toFinset, r.2)) =
        (pickNodes fuel o' t kFor maxPeerFor t.nodes.length rng).map
          fun r => (r.1.map fun p => p.strangers.toFinset, r.2) := by
    rw [pickNodes_map, pickNodes_map]
  cases h : pickNodes fuel o t kFor maxPeerFor t.nodes.length rng with
  | none =>
    rw [h, Option.map_none, eq_comm, Option.map_eq_none_iff] at hm
    exact .inl ⟨rfl, hm⟩
  | some r =>
    rw [h, Option.map_some, eq_comm, Option.map_eq_some_iff] at hm
    obtain ⟨r', h', he⟩ := hm
    obtain ⟨hs, hrng⟩ := Prod.mk.inj he
    refine .inr ⟨r.1, r'.1, r.2, rfl, by rw [h', ← hrng], picksOf h, picksOf h', hs.symm⟩

/-- The set of edges is the same for all iteration orders. -/
def Reproducible (t : Topology A) (kFor maxPeerFor : A → Nat) (rng : Rng) (enforceHubCap : Bool) :
    Prop :=
  ∀ fuel o o', (buildPeerGraph fuel o t kFor maxPeerFor rng enforceHubCap).map (·.1.peerSet) =
    (buildPeerGraph fuel o' t kFor maxPeerFor rng enforceHubCap).map (·.1.peerSet)

theorem reproducible_of_orderFree (hof : OrderFree t maxPeerFor enforceHubCap) :
    Reproducible t kFor maxPeerFor rng enforceHubCap := by
  intro fuel o o'
  unfold buildPeerGraph
  by_cases hn : t.nodes.length < 2
  · simp [hn]
  simp only [hn, if_false, Option.bind_eq_bind]
  obtain ⟨h, h'⟩ | ⟨ps, ps', rng', h, h', htw⟩ := pickNodes_twins fuel o o'
  · rw [h, h']
    rfl
  rw [h, h', Option.bind_some, Option.bind_some]
  cases enforceHubCap with
  | false => exact congrArg some (htw.peerSet_eq hof)
  | true =>
    simp only [if_true, Option.map_map]
    have hview : ∀ X : Option ((Topology A × PeerBuildStats) × Rng),
        X.map ((fun r : Topology A × PeerBuildStats => r.1.peerSet) ∘ Prod.fst) =
          (X.map edgeView).map Prod.fst := fun X => by rw [Option.map_map]; rfl
    rw [hview, hview, ← htw.dropped_eq hof, foldlM_replaceFor_view]
    · exact fun x hx h0 => htw.rejecting_eq hof rfl hx h0
    · exact Prod.ext (htw.peerSet_eq hof) rfl

omit [IndexSample] in
/-- A hub may keep any counterparty if its cap lets it keep one, -/
theorem exists_choice_with {nx a : Nat} (hub : t.IsHub maxPeerFor nx)
    (hpos : 0 < t.maxPeer maxPeerFor nx) (ha : a ∈ t.counterparties nx) :
    ∃ S ⊆ t.counterparties nx, S.card = t.maxPeer maxPeerFor nx ∧ a ∈ S := by
  obtain ⟨S, haS, hS, hcard⟩ := Finset.exists_subsuperset_card_eq (Finset.singleton_subset_iff.2 ha)
    (by rw [Finset.card_singleton]; exact hpos) (Nat.le_of_lt hub)
  exact ⟨S, hS, hcard, haS (Finset.mem_singleton_self a)⟩

omit [IndexSample] in
/-- and it may do without any. -/
theorem exists_choice_without {nx : Nat} (hub : t.IsHub maxPeerFor nx) (a : Nat) :
    ∃ S ⊆ t.counterparties nx, S.card = t.maxPeer maxPeerFor nx ∧ a ∉ S := by
  have hle : t.maxPeer maxPeerFor nx ≤ ((t.counterparties nx).erase a).card := by
    have hpred := Finset.pred_card_le_card_erase (s := t.counterparties nx) (a := a)
    have hlt : (t.counterparties nx).card > t.maxPeer maxPeerFor nx := hub
    omega
  obtain ⟨S, hS, hcard⟩ := Finset.exists_subset_card_eq hle
  exact ⟨S, hS.trans (Finset.erase_subset _ _), hcard, fun h => Finset.notMem_erase a _ (hS h)⟩

/-- One run from the picks on, where the generator is fair. -/
theorem exists_run (hfair : rng.Fair t.nodes.length) {o : HashOrder} {ps : List NodePicks} {rng' : Rng}
    (hF : ∀ᶠ fuel in atTop, pickNodes fuel o t kFor maxPeerFor t.nodes.length rng = some (ps, rng'))
    (hn : ¬t.nodes.length < 2) (enforceHubCap : Bool) :
    let b := addPicks enforceHubCap (hubKeptOf enforceHubCap ps) ps
      ⟨t, List.replicate t.nodes.length 0, ⟨0, 0⟩⟩
    ∃ r, (∀ᶠ fuel in atTop, buildPeerGraph fuel o t kFor maxPeerFor rng enforceHubCap = some r) ∧
      b.topology.peerSet ⊆ r.1.peerSet ∧ ∀ e ∈ r.1.peerSet, e ∈ b.topology.peerSet ∨
        (enforceHubCap = true ∧ ∃ x ∈ b.droppedPerNode.zipIdx, x.1 ≠ 0 ∧
          ∃ ny, ny ∉ rejecting (hubKeptOf enforceHubCap ps) x.2 ∧ e = s(x.2, ny)) := by
  obtain ⟨r, hr⟩ : ∃ r, ∀ᶠ fuel in atTop,
    buildPeerGraph fuel o t kFor maxPeerFor rng enforceHubCap = some r :=
      buildPeerGraph_eventually hfair
  refine ⟨r, hr, ?_⟩
  obtain ⟨fuel, hfuel, hpicks⟩ := (hr.and hF).exists
  unfold buildPeerGraph at hfuel
  simp only [hn, if_false, Option.bind_eq_bind, hpicks, Option.bind_some] at hfuel
  cases enforceHubCap with
  | false =>
    cases hfuel
    exact ⟨fun _ => id, fun e => .inl⟩
  | true =>
    obtain ⟨s', hs', rfl⟩ := Option.map_eq_some_iff.1 hfuel
    obtain ⟨hsub, hmem⟩ := foldlM_replaceFor_mem hs'
    exact ⟨hsub, fun e he => (hmem e he).imp_right fun h => ⟨rfl, h⟩⟩

section Choice

variable {ps : List NodePicks} {u x : Nat} {b : Building A}

omit [IndexSample] in
/-- The edge is there if the two vertices keep each other, -/
theorem edge_of_kept (h : PicksOf t maxPeerFor ps) (hu : t.IsHub maxPeerFor u)
    (hkeep : ∀ p, ps[u]? = some p → x ∈ p.keptCounterparties)
    (hback : enforceHubCap = true → ∀ q, ps[x]? = some q → q.isHub = true →
      u ∈ q.keptCounterparties) :
    s(u, x) ∈ (addPicks enforceHubCap (hubKeptOf enforceHubCap ps) ps b).topology.peerSet := by
  obtain ⟨p, hp, -⟩ := h.exists_of_hub hu
  refine mem_peerSet_addPicks.2 (.inr ⟨u, p, hp, x, List.mem_append_left _ (hkeep p hp), ?_, rfl⟩)
  exact edgeAllowed_iff.2 hback

omit [IndexSample] in
/-- and it is not if a hub does without the other one, which does without the hub or is rejected. -/
theorem no_edge_of_avoided (h : PicksOf t maxPeerFor ps) (hu : t.IsHub maxPeerFor u)
    (hb : s(u, x) ∉ b.topology.peerSet)
    (havoid : ∀ p, ps[u]? = some p → x ∉ p.keptCounterparties)
    (hback : enforceHubCap = false → ∀ q, ps[x]? = some q → u ∉ q.all) :
    s(u, x) ∉ (addPicks enforceHubCap (hubKeptOf enforceHubCap ps) ps b).topology.peerSet := by
  intro he
  rcases mem_peerSet_addPicks.1 he with he | ⟨nx, p, hp, ny, hm, hal, he⟩
  · exact hb he
  rcases Sym2.eq_iff.1 he with ⟨rfl, rfl⟩ | ⟨rfl, rfl⟩
  · exact havoid p hp ((h.of u p hp).mem_all_of_hub hu hm).1
  · cases henf : enforceHubCap with
    | false => exact hback henf p hp hm
    | true =>
      obtain ⟨q, hq, hqh⟩ := h.exists_of_hub hu
      exact havoid q hq (edgeAllowed_iff.1 hal henf q hq hqh)

omit [IndexSample] in
/-- A hub that all its picks want is given no replacements, and it rejects those it avoids. -/
theorem no_replacement_of_avoided (h : PicksOf t maxPeerFor ps) (hu : t.IsHub maxPeerFor u)
    (hb : ∃ n, b.droppedPerNode = List.replicate n 0)
    (havoid : ∀ p, ps[u]? = some p → x ∉ p.keptCounterparties)
    (hwant : ∀ y ∈ t.counterparties u, ∀ q, ps[y]? = some q → q.isHub = true →
      u ∈ q.keptCounterparties) {d : Nat × Nat}
    (hd : d ∈ (addPicks true (hubKeptOf true ps) ps b).droppedPerNode.zipIdx) (h0 : d.1 ≠ 0)
    {ny : Nat} (hny : ny ∉ rejecting (hubKeptOf true ps) d.2) : s(u, x) ≠ s(d.2, ny) := by
  obtain ⟨n, hb⟩ := hb
  obtain ⟨p, hp, hph⟩ := h.exists_of_hub hu
  intro he
  rcases Sym2.eq_iff.1 he with ⟨hd2, rfl⟩ | ⟨rfl, hd2⟩
  · apply h0
    rw [drops_of_mem_zipIdx hb hd, ← hd2, hp]
    apply List.countP_eq_zero.2
    intro y hy
    rw [Bool.not_eq_true', Bool.not_eq_false, edgeAllowed_iff]
    exact fun _ => hwant y ((h.of u p hp).mem_all_of_hub hu hy).2.1
  · rw [← hd2] at hny
    exact hny (mem_rejecting_hubKeptOf.2 ⟨p, hp, hph, havoid p hp⟩)

end Choice

omit [IndexSample] in
/-- Choices of the hubs in which `u` keeps its counterparty, which keeps it back. -/
theorem exists_keeping {u x : Nat} (hmax : 0 < t.maxPeer maxPeerFor u) (hx : x ∈ t.counterparties u)
    (nx : Nat) : ∃ S : Finset Nat, t.IsHub maxPeerFor nx → S ⊆ t.counterparties nx ∧
      S.card = t.maxPeer maxPeerFor nx ∧ (nx = u → x ∈ S) ∧
        (nx = x → 0 < t.maxPeer maxPeerFor nx → u ∈ S) := by
  have hux : x ≠ u := (Topology.mem_counterparties.1 hx).1
  by_cases hub : t.IsHub maxPeerFor nx
  · by_cases hnu : nx = u
    · subst hnu
      obtain ⟨S, hS, hcard, hxS⟩ := exists_choice_with hub hmax hx
      exact ⟨S, fun _ => ⟨hS, hcard, fun _ => hxS, fun h => absurd h.symm hux⟩⟩
    · by_cases hnx : nx = x ∧ 0 < t.maxPeer maxPeerFor nx
      · obtain ⟨rfl, hp⟩ := hnx
        obtain ⟨S, hS, hcard, huS⟩ := exists_choice_with hub hp (Topology.counterparties_comm.1 hx)
        exact ⟨S, fun _ => ⟨hS, hcard, fun h => absurd h hnu, fun _ _ => huS⟩⟩
      · obtain ⟨S, hS, hcard, -⟩ := exists_choice_without hub u
        exact ⟨S, fun _ => ⟨hS, hcard, fun h => absurd h hnu, fun h hp => absurd ⟨h, hp⟩ hnx⟩⟩
  · exact ⟨∅, fun h => absurd h hub⟩

omit [IndexSample] in
/-- Choices in which `u` does without it, and the others keep `u` where the cap is enforced. -/
theorem exists_avoiding (u x : Nat)
    (hpos : enforceHubCap = true → ∀ nx, t.IsHub maxPeerFor nx → 0 < t.maxPeer maxPeerFor nx)
    (nx : Nat) : ∃ S : Finset Nat, t.IsHub maxPeerFor nx → S ⊆ t.counterparties nx ∧
      S.card = t.maxPeer maxPeerFor nx ∧ (nx = u → x ∉ S) ∧
        (nx ≠ u → (u ∈ S ↔ enforceHubCap = true ∧ u ∈ t.counterparties nx)) := by
  by_cases hub : t.IsHub maxPeerFor nx
  · by_cases hnu : nx = u
    · obtain ⟨S, hS, hcard, hxS⟩ := exists_choice_without hub x
      exact ⟨S, fun _ => ⟨hS, hcard, fun _ => hxS, fun h => absurd hnu h⟩⟩
    · by_cases hc : enforceHubCap = true ∧ u ∈ t.counterparties nx
      · obtain ⟨S, hS, hcard, huS⟩ := exists_choice_with hub (hpos hc.1 nx hub) hc.2
        exact ⟨S, fun _ => ⟨hS, hcard, fun h => absurd h hnu, fun _ => iff_of_true huS hc⟩⟩
      · obtain ⟨S, hS, hcard, huS⟩ := exists_choice_without hub u
        exact ⟨S, fun _ => ⟨hS, hcard, fun h => absurd h hnu, fun _ => iff_of_false huS hc⟩⟩
  · exact ⟨∅, fun h => absurd h hub⟩

/-- A hub whose choice shows leaves an edge to its iteration order. -/
theorem not_reproducible (hfair : rng.Fair t.nodes.length) (hE : t.peerEdges = [])
    (hpos : enforceHubCap = true → ∀ nx, t.IsHub maxPeerFor nx → 0 < t.maxPeer maxPeerFor nx)
    (hof : ¬OrderFree t maxPeerFor enforceHubCap) :
    ¬Reproducible t kFor maxPeerFor rng enforceHubCap := by
  unfold OrderFree at hof
  push Not at hof
  obtain ⟨u, hu, hmax, x, hx, hshow⟩ := hof
  have hux : x ≠ u := (Topology.mem_counterparties.1 hx).1
  have hn : ¬t.nodes.length < 2 := by
    have hult := hu.lt
    have hxlt := Topology.counterparties_lt hx
    omega
  have hback : ∀ y ∈ t.counterparties u, u ∈ t.counterparties y :=
    fun y hy => Topology.counterparties_comm.1 hy
  -- in one order the hub keeps the counterparty, which keeps it back
  choose S hS using exists_keeping (t := t) hmax hx
  -- in the other one it does without
  choose S' hS' using exists_avoiding (t := t) u x hpos
  obtain ⟨o, ps, rng₁, hF, hps, hkept⟩ :=
    exists_order kFor hfair fun nx hub => ⟨(hS nx hub).1, (hS nx hub).2.1⟩
  obtain ⟨o', ps', rng₂, hF', hps', hkept'⟩ :=
    exists_order kFor hfair fun nx hub => ⟨(hS' nx hub).1, (hS' nx hub).2.1⟩
  obtain ⟨r, hr, hsub, -⟩ := exists_run hfair hF hn enforceHubCap
  obtain ⟨r', hr', -, hmem⟩ := exists_run hfair hF' hn enforceHubCap
  have hin : s(u, x) ∈ r.1.peerSet := by
    refine hsub (edge_of_kept hps hu (fun p hp => ?_) fun henf q hq hqh => ?_)
    · rw [← List.mem_toFinset, hkept u p hp hu]
      exact (hS u hu).2.2.1 rfl
    · have hub := hps.hub_of_isHub hq hqh
      rw [← List.mem_toFinset, hkept x q hq hub]
      exact (hS x hub).2.2.2 rfl (hpos henf x hub)
  have havoid : ∀ p, ps'[u]? = some p → x ∉ p.keptCounterparties := by
    intro p hp
    rw [← List.mem_toFinset, hkept' u p hp hu]
    exact (hS' u hu).2.2.1 rfl
  have hout : s(u, x) ∉ r'.1.peerSet := by
    intro he
    rcases hmem _ he with he | ⟨henf, d, hd, h0, ny, hny, he⟩
    · refine no_edge_of_avoided hps' hu (by simp [Topology.peerSet, hE]) havoid ?_ he
      intro henf q hq hm
      have hub : t.IsHub maxPeerFor x := by simpa [henf] using hshow
      have hk := ((hps'.of x q hq).mem_all_of_hub hub hm).1
      rw [← List.mem_toFinset, hkept' x q hq hub, (hS' x hub).2.2.2 hux, henf] at hk
      exact Bool.false_ne_true hk.1
    · subst henf
      refine no_replacement_of_avoided hps' hu ⟨_, rfl⟩ havoid (fun y hy q hq hqh => ?_) hd h0 hny he
      have hub := hps'.hub_of_isHub hq hqh
      have hyu : y ≠ u := (Topology.mem_counterparties.1 hy).1
      rw [← List.mem_toFinset, hkept' y q hq hub, (hS' y hub).2.2.2 hyu]
      exact ⟨rfl, hback y hy⟩
  intro hrep
  obtain ⟨fuel, h, h'⟩ := (hr.and hr').exists
  have heq := hrep fuel o o'
  rw [h, h', Option.map_some, Option.map_some, Option.some.injEq] at heq
  exact hout (heq ▸ hin)

/-- The peer graph is reproducible if no choice of a hub shows, and, where every hub may keep
someone or the cap is off, only then. -/
theorem peerGraph_reproducible :
    (OrderFree t maxPeerFor enforceHubCap → Reproducible t kFor maxPeerFor rng enforceHubCap) ∧
    (rng.Fair t.nodes.length → t.peerEdges = [] →
      (enforceHubCap = true → ∀ nx, t.IsHub maxPeerFor nx → 0 < t.maxPeer maxPeerFor nx) →
      Reproducible t kFor maxPeerFor rng enforceHubCap → OrderFree t maxPeerFor enforceHubCap) :=
  ⟨reproducible_of_orderFree, fun hfair hE hpos hrep =>
    by_contra fun hof => not_reproducible hfair hE hpos hof hrep⟩

end Reproducible

/-! ## A hub of two channels -/

def HashOrder.descending : HashOrder where
  iter site s := (HashOrder.ascending.iter site s).reverse
  nodup site s := List.nodup_reverse.2 (HashOrder.ascending.nodup site s)
  toFinset site s := by rw [List.toFinset_reverse, HashOrder.ascending.toFinset]

/-- Neighbouring positions, from a drawn one on. -/
@[reducible] def rotateSample : IndexSample where
  sample rng len amount := (((List.range len).rotate (rng.outcome rng.used)).take amount,
    { rng with used := rng.used + 1 })
  nodup rng len amount := (List.nodup_rotate.2 List.nodup_range).sublist (List.take_sublist _ _)
  lt rng len amount i hi := List.mem_range.1 (List.mem_rotate.1 (List.mem_of_mem_take hi))
  length rng len amount := by simp
  outcome _ _ _ := rfl

def star : Option (Topology Unit) :=
  (Topology.ofNodes [0, 1, 2] ()).bind fun t =>
    (t.addChannel 10 0 1).bind fun t => t.addChannel 11 0 2

def counting : Rng := ⟨id, 0⟩

theorem counting_fair (k : Nat) : counting.Fair k := by
  intro n i hi
  refine ⟨n * k + i, ?_, ?_⟩
  · have hk : n ≤ n * k := Nat.le_mul_of_pos_right n (Nat.zero_lt_of_lt hi)
    omega
  · show (n * k + i) % k = i
    rw [Nat.mul_comm, Nat.mul_add_mod, Nat.mod_eq_of_lt hi]

/-- With a cap of one, the hub keeps the smaller or the greater of its counterparties. -/
theorem hub_choice_shows : ∃ t, star = some t ∧
    ¬@Reproducible rotateSample _ t (fun _ => 0) (fun _ => 1) counting true := by
  have hruns : (star.map fun t =>
      decide ((@buildPeerGraph rotateSample _ 4 .ascending t (fun _ => 0) (fun _ => 1) counting true).map
          (·.1.peerSet) = some {s(0, 1), s(1, 2)} ∧
        (@buildPeerGraph rotateSample _ 4 .descending t (fun _ => 0) (fun _ => 1) counting true).map
          (·.1.peerSet) = some {s(0, 2), s(1, 2)})) = some true := by
    decide +kernel
  obtain ⟨t, ht, hruns⟩ := Option.map_eq_some_iff.1 hruns
  obtain ⟨h, h'⟩ := of_decide_eq_true hruns
  refine ⟨t, ht, fun hrep => ?_⟩
  have heq := hrep 4 .ascending .descending
  rw [h, h'] at heq
  exact absurd heq (by decide)

/-- With a cap of two there is no hub. -/
theorem peerGraph_reproducible_star : ∃ t, star = some t ∧
    @Reproducible rotateSample _ t (fun _ => 3) (fun _ => 2) counting true ∧
    ¬@Reproducible rotateSample _ t (fun _ => 0) (fun _ => 1) counting true := by
  have hshape : (star.map fun t => decide (t.peerEdges = [] ∧
      (∀ u < t.nodes.length, ¬t.IsHub (fun _ => 2) u) ∧
      (∀ u < t.nodes.length, 0 < t.maxPeer (fun _ => 1) u) ∧
      t.IsHub (fun _ => 1) 0 ∧ 1 ∈ t.counterparties 0 ∧ ¬t.IsHub (fun _ => 1) 1)) = some true := by
    decide +kernel
  obtain ⟨t, ht, hshape⟩ := Option.map_eq_some_iff.1 hshape
  obtain ⟨hE, hno, hpos, hub, hmem, hnot⟩ := of_decide_eq_true hshape
  let _ := rotateSample
  refine ⟨t, ht, peerGraph_reproducible.1 fun u hu => absurd hu (hno u hu.lt), fun hrep => ?_⟩
  have hof := peerGraph_reproducible.2 (counting_fair _) hE (fun _ u hu => hpos u hu.lt) hrep
  exact hnot (hof 0 hub (hpos 0 hub.lt) 1 hmem).1

end LnConv.Graph
