import LnConv.Aggregator
import LnConv.Exchange

/-!
# Reservoir rows and rounds

A round is what `handle_sketch` counts for one sketch. Each of its three counts goes
into a reservoir of its own, and a row of the dump pairs the three buffers up by slot.
Past the warm-up the reservoirs replace slots independently, so a slot can hold
counts of three different rounds.
-/

namespace LnConv

structure Round where
  intersection : Nat
  aOnly : Nat
  bOnly : Nat
  deriving DecidableEq, Repr

def Round.ofDiff (d : DiffResult) : Round := ⟨d.intersection, d.aOnlyCount, d.bOnlyCount⟩

def NodeReservoirRow.round (row : NodeReservoirRow) : Round :=
  ⟨row.intersection, row.aOnly, row.bOnly⟩

theorem SketchKind.asU8_injective : Function.Injective SketchKind.asU8 := by
  intro a b h
  cases a <;> cases b <;> first | rfl | cases h

/-! ## The reservoirs of one kind -/

namespace SketchKindStats

def observeRounds (s : SketchKindStats) (rs : List Round) : SketchKindStats :=
  rs.foldl (fun s r => s.observeRound r.intersection r.aOnly r.bOnly) s

variable (s : SketchKindStats) (rs : List Round)

theorem observeRounds_append (rs' : List Round) :
    s.observeRounds (rs ++ rs') = (s.observeRounds rs).observeRounds rs' := List.foldl_append

theorem roundsIntersection_observeRounds : (s.observeRounds rs).roundsIntersection =
    s.roundsIntersection.observeAll (rs.map fun r => r.intersection % 2 ^ 32) := by
  induction rs generalizing s with
  | nil => rfl
  | cons r rs ih => exact ih _

theorem roundsAOnly_observeRounds : (s.observeRounds rs).roundsAOnly =
    s.roundsAOnly.observeAll (rs.map fun r => r.aOnly % 2 ^ 32) := by
  induction rs generalizing s with
  | nil => rfl
  | cons r rs ih => exact ih _

theorem roundsBOnly_observeRounds : (s.observeRounds rs).roundsBOnly =
    s.roundsBOnly.observeAll (rs.map fun r => r.bOnly % 2 ^ 32) := by
  induction rs generalizing s with
  | nil => rfl
  | cons r rs ih => exact ih _

end SketchKindStats

/-- A row for every slot that all three samples have. -/
theorem exists_row_iff (idx : NodeIdx) (kind : SketchKind) {s : KindReservoirSamples} {r : Round} :
    (∃ row ∈ reservoirRows idx kind s, row.round = r) ↔ ∃ i : Nat, s.intersection[i]? =
      some r.intersection ∧ s.aOnly[i]? = some r.aOnly ∧ s.bOnly[i]? = some r.bOnly := by
  constructor
  · rintro ⟨row, hrow, rfl⟩
    obtain ⟨⟨x, y, z⟩, hxyz, rfl⟩ := List.mem_map.1 hrow
    obtain ⟨i, hi⟩ := List.mem_iff_getElem?.1 hxyz
    simp only [List.getElem?_zip_eq_some] at hi
    exact ⟨i, hi⟩
  · rintro ⟨i, hi⟩
    have hmem : (r.intersection, r.aOnly, r.bOnly) ∈ s.intersection.zip (s.aOnly.zip s.bOnly) :=
      List.mem_iff_getElem?.2 ⟨i, by simpa only [List.getElem?_zip_eq_some] using hi⟩
    exact ⟨_, List.mem_map_of_mem hmem, rfl⟩

/-! ## Handling sketches -/

/-- A call of `handle_sketch`: its arguments and the states it compares. -/
structure Handled (V : Type) where
  state : NodeState
  peerState : V → NodeState
  sketch : Sketch
  now : Nat

namespace SketchNode

variable {V : Type} [MsgHash] (c : SketchCfg V)

/-- The node's state may change in between. -/
def handleAll (hs : List (Handled V)) (n : Node) : Option Node :=
  hs.foldlM (fun n h =>
    (handleSketch c h.peerState h.sketch h.now { n with state := h.state }).map Prod.fst) n

/-- A sketch of an unknown peer is dropped. -/
def roundOf (h : Handled V) : Option Round :=
  (c.peers.peerIdToLocal.lookup h.sketch.fromId).bind fun loc =>
    (c.peers.outputs[loc]?).map fun out =>
      .ofDiff (computeDiff (h.peerState out) h.state h.sketch.kind (diffSide c))

def roundsOf (kind : SketchKind) (hs : List (Handled V)) : List Round :=
  hs.flatMap fun h => if h.sketch.kind = kind then (roundOf c h).toList else []

/-- `take_reservoirs`, then `handle_reservoir_dump`. -/
def dumpRows (n : Node) : List NodeReservoirRow :=
  let (_, cu, na, ca) := n.metricsLocal.takeReservoirs
  handleReservoirDump c.idx cu na ca

variable {c} {n n' : Node}

omit [MsgHash] in
theorem row_mem_dumpRows {kind : SketchKind} {row : NodeReservoirRow} :
    (row ∈ dumpRows c n ∧ row.kind = kind.asU8) ↔
      row ∈ reservoirRows c.idx kind (n.metricsLocal.statsOf kind).takeSamples.2 := by
  have hkind : ∀ {k s}, row ∈ reservoirRows c.idx k s → row.kind = k.asU8 := by
    intro k s h
    obtain ⟨x, -, rfl⟩ := List.mem_map.1 h
    rfl
  have hrows : row ∈ dumpRows c n ↔ ∃ k : SketchKind,
      row ∈ reservoirRows c.idx k (n.metricsLocal.statsOf k).takeSamples.2 := by
    simp only [dumpRows, PerNodeMetrics.takeReservoirs, handleReservoirDump, List.mem_append]
    constructor
    · rintro (h | h | h)
      · exact ⟨.chanUpdates, h⟩
      · exact ⟨.nodeAnns, h⟩
      · exact ⟨.chanAnns, h⟩
    · rintro ⟨k, h⟩
      cases k
      · exact .inl h
      · exact .inr (.inl h)
      · exact .inr (.inr h)
  constructor
  · rintro ⟨h, hk⟩
    obtain ⟨k, h⟩ := hrows.1 h
    rwa [SketchKind.asU8_injective ((hkind h).symm.trans hk)] at h
  · exact fun h => ⟨hrows.2 ⟨kind, h⟩, hkind h⟩

omit [MsgHash] in
theorem statsOf_countRound (k kind : SketchKind) (diff : DiffResult) :
    (countRound k diff n).metricsLocal.statsOf kind = if k = kind
      then (n.metricsLocal.statsOf kind).observeRound diff.intersection diff.aOnlyCount
        diff.bOnlyCount
      else n.metricsLocal.statsOf kind := by
  cases k <;> cases kind <;> rfl

omit [MsgHash] in
theorem statsOf_recordOverflow (sketch : Sketch) (total now : Nat) (kind : SketchKind) :
    (recordOverflow c sketch total now n).metricsLocal.statsOf kind =
      n.metricsLocal.statsOf kind := by
  unfold recordOverflow countOverflow
  cases sketch.kind <;> cases kind <;> rfl

omit [MsgHash] in
theorem statsOf_sendGossips {out : V} {k : GossipKind} {gs : List Gossip}
    (h : ∀ g ∈ gs, g.kind = k) (kind : SketchKind) :
    (sendGossips out k gs h n).1.metricsLocal.statsOf kind = n.metricsLocal.statsOf kind := by
  unfold sendGossips
  split <;> cases kind <;> rfl

omit [MsgHash] in
theorem statsOf_sendInventory (out : V) (k : GossipKind) (gs : List Gossip) (kind : SketchKind) :
    (sendInventory c out k gs n).1.metricsLocal.statsOf kind = n.metricsLocal.statsOf kind := by
  unfold sendInventory
  split <;> cases kind <;> rfl

/-- A handled sketch is one observation of its round. -/
theorem handleSketch_observes (h : Handled V) (n : Node) : ∃ n' e,
    handleSketch c h.peerState h.sketch h.now { n with state := h.state } = some (n', e) ∧
      ∀ kind, n'.metricsLocal.statsOf kind =
        (n.metricsLocal.statsOf kind).observeRounds (roundsOf c kind [h]) := by
  simp only [handleSketch, roundsOf, List.flatMap_cons, List.flatMap_nil, List.append_nil, roundOf]
  cases hl : c.peers.peerIdToLocal.lookup h.sketch.fromId with
  | none => exact ⟨_, _, rfl, fun kind => by simp [SketchKindStats.observeRounds]⟩
  | some loc =>
    have hlen : loc < c.peers.outputs.length := by
      rw [← c.peers.aligned]
      exact (List.getElem?_eq_some_iff.1 (c.peers.local_of _ _ hl)).1
    simp only [List.getElem?_eq_getElem hlen, Option.bind_eq_bind, Option.bind_some,
      Option.map_some, Option.toList_some]
    have hobs : ∀ (diff : DiffResult) (kind : SketchKind),
        (countRound h.sketch.kind diff { n with state := h.state }).metricsLocal.statsOf kind =
          (n.metricsLocal.statsOf kind).observeRounds
            (if h.sketch.kind = kind then [Round.ofDiff diff] else []) := by
      intro diff kind
      rw [statsOf_countRound]
      split <;> rfl
    split
    · refine ⟨_, _, rfl, fun kind => ?_⟩
      rw [statsOf_recordOverflow, hobs]
    · refine ⟨_, _, rfl, fun kind => ?_⟩
      rw [statsOf_sendInventory, statsOf_sendGossips, hobs]

/-- `handleAll` does not fail, and its rounds are what each kind observes. -/
theorem handleAll_observes (hs : List (Handled V)) (n : Node) : ∃ n', handleAll c hs n = some n' ∧
    ∀ kind, n'.metricsLocal.statsOf kind =
      (n.metricsLocal.statsOf kind).observeRounds (roundsOf c kind hs) := by
  induction hs generalizing n with
  | nil => exact ⟨n, rfl, fun _ => rfl⟩
  | cons h hs ih =>
    obtain ⟨n₁, e, h₁, hst₁⟩ := handleSketch_observes (c := c) h n
    obtain ⟨n', h', hst'⟩ := ih n₁
    refine ⟨n', by simpa [handleAll, List.foldlM_cons, h₁] using h', fun kind => ?_⟩
    have hsplit : roundsOf c kind (h :: hs) = roundsOf c kind [h] ++ roundsOf c kind hs := by
      simp only [roundsOf, List.flatMap_cons, List.flatMap_nil, List.append_nil]
    rw [hst', hst₁, hsplit, SketchKindStats.observeRounds_append]

/-- The buffers of a node that started with empty reservoirs. -/
theorem handleAll_samples (hs : List (Handled V)) (n : Node) (rngs : SketchKind → Nat → Draws) :
    ∃ n', handleAll c hs { n with
        metricsLocal := .withSketchReservoirs c.reservoirCap rngs } = some n' ∧
      ∀ kind, ∃ total, (n'.metricsLocal.statsOf kind).takeSamples.2 =
        { intersection := ((Reservoir.new c.reservoirCap (rngs kind 0)).observeAll
            ((roundsOf c kind hs).map fun r => r.intersection % 2 ^ 32)).buf
          aOnly := ((Reservoir.new c.reservoirCap (rngs kind 1)).observeAll
            ((roundsOf c kind hs).map fun r => r.aOnly % 2 ^ 32)).buf
          bOnly := ((Reservoir.new c.reservoirCap (rngs kind 2)).observeAll
            ((roundsOf c kind hs).map fun r => r.bOnly % 2 ^ 32)).buf
          totalSeen := total } := by
  obtain ⟨n', hn', hst⟩ := handleAll_observes (c := c) hs { n with
    metricsLocal := .withSketchReservoirs c.reservoirCap rngs }
  have hstart : ∀ kind, (PerNodeMetrics.withSketchReservoirs c.reservoirCap rngs).statsOf kind =
      .withReservoirCapacity c.reservoirCap (rngs kind 0) (rngs kind 1) (rngs kind 2) := by
    intro kind; cases kind <;> rfl
  refine ⟨n', hn', fun kind => ⟨(n'.metricsLocal.statsOf kind).roundsIntersection.seen, ?_⟩⟩
  simp only [SketchKindStats.takeSamples, hst, hstart,
    SketchKindStats.roundsIntersection_observeRounds, SketchKindStats.roundsAOnly_observeRounds,
    SketchKindStats.roundsBOnly_observeRounds, SketchKindStats.withReservoirCapacity]

end SketchNode

/-! ## The rows -/

/-- Any three counts that can meet in a slot are those of one round. -/
def Aligned (cap : Nat) (rounds : List Round) : Prop :=
  ∀ i < cap, ∀ kI kA kB, FromRound cap i kI → FromRound cap i kA → FromRound cap i kB →
    ∀ rI ∈ rounds[kI]?, ∀ rA ∈ rounds[kA]?, ∀ rB ∈ rounds[kB]?,
      (⟨rI.intersection % 2 ^ 32, rA.aOnly % 2 ^ 32, rB.bOnly % 2 ^ 32⟩ : Round) ∈ rounds

theorem Reservoir.observeAll_map {cap : Nat} {rng : Draws} {rounds : List Round} {f : Round → Nat}
    {i x : Nat} (h : ((Reservoir.new cap rng).observeAll (rounds.map f)).buf[i]? = some x) :
    i < cap ∧ ∃ k, FromRound cap i k ∧ ∃ r ∈ rounds[k]?, f r = x := by
  obtain ⟨-, -, -, hlen, hbuf⟩ := Reservoir.observeAll_new cap rng (rounds.map f)
  have hi := (List.getElem?_eq_some_iff.1 h).1
  obtain ⟨k, hk, hx⟩ := hbuf i x h
  rw [List.getElem?_map, Option.map_eq_some_iff] at hx
  exact ⟨by omega, k, hk, hx⟩

theorem Reservoir.observeAll_map_hit {cap i k : Nat} {rounds : List Round} (f : Round → Nat)
    (hi : i < cap) (hk : FromRound cap i k) {r : Round} (hr : r ∈ rounds[k]?) :
    ((Reservoir.new cap (.hit i k)).observeAll (rounds.map f)).buf[i]? = some (f r) := by
  have hlen := (List.getElem?_eq_some_iff.1 hr).1
  rw [Reservoir.observeAll_hit hi hk (by rwa [List.length_map]), List.getElem?_map, hr,
    Option.map_some]

namespace SketchNode

section Rows

variable {V : Type} [MsgHash]

/-- The dumped rows of a kind are rounds of that kind, whatever the generators draw,
exactly if the counts that can meet in a slot always are one round's. -/
theorem dumped_rows_are_rounds (c : SketchCfg V) (n : Node) (hs : List (Handled V))
    (kind : SketchKind) :
    (∀ rngs, ∃ n', handleAll c hs { n with
        metricsLocal := .withSketchReservoirs c.reservoirCap rngs } = some n' ∧
      ∀ row ∈ dumpRows c n', row.kind = kind.asU8 → row.round ∈ roundsOf c kind hs) ↔
    Aligned c.reservoirCap (roundsOf c kind hs) := by
  constructor
  · intro h i hi kI kA kB hI hA hB rI hrI rA hrA rB hrB
    -- each generator brings its count to slot `i`
    let rngs : SketchKind → Nat → Draws := fun _ j =>
      .hit i (match j with | 0 => kI | 1 => kA | _ => kB)
    obtain ⟨n', hn', hs'⟩ := handleAll_samples (c := c) hs n rngs
    obtain ⟨n'', hn'', hrow⟩ := h rngs
    cases hn'.symm.trans hn''
    obtain ⟨total, htotal⟩ := hs' kind
    obtain ⟨row, hmem, hr⟩ := (exists_row_iff c.idx kind
      (s := (n'.metricsLocal.statsOf kind).takeSamples.2)
      (r := ⟨rI.intersection % 2 ^ 32, rA.aOnly % 2 ^ 32, rB.bOnly % 2 ^ 32⟩)).2 ⟨i, by
        rw [htotal]
        exact ⟨Reservoir.observeAll_map_hit _ hi hI hrI, Reservoir.observeAll_map_hit _ hi hA hrA,
          Reservoir.observeAll_map_hit _ hi hB hrB⟩⟩
    obtain ⟨hdump, hk⟩ := row_mem_dumpRows.2 hmem
    exact hr ▸ hrow row hdump hk
  · intro h rngs
    obtain ⟨n', hn', hs'⟩ := handleAll_samples (c := c) hs n rngs
    refine ⟨n', hn', fun row hrow hk => ?_⟩
    obtain ⟨total, htotal⟩ := hs' kind
    have hmem := row_mem_dumpRows.1 ⟨hrow, hk⟩
    rw [htotal] at hmem
    obtain ⟨i, hI, hA, hB⟩ := (exists_row_iff _ _).1 ⟨row, hmem, rfl⟩
    obtain ⟨hi, kI, hkI, rI, hrI, hxI⟩ := Reservoir.observeAll_map hI
    obtain ⟨-, kA, hkA, rA, hrA, hxA⟩ := Reservoir.observeAll_map hA
    obtain ⟨-, kB, hkB, rB, hrB, hxB⟩ := Reservoir.observeAll_map hB
    have := h i hi kI kA kB hkI hkA hkB rI hrI rA hrA rB hrB
    rwa [hxI, hxA, hxB] at this

end Rows

section Sample

local instance roundsHash : MsgHash := ⟨List.sum⟩

/-- Capacity 1: the second round replaces the `b_only` slot alone. -/
def oneSlotCfg : SketchCfg (Fin 2) := { sampleCfg 1 with reservoirCap := 1 }

def oneSlotDraws (_ : SketchKind) (i : Nat) : Draws := if i = 2 then .zero else .hit 0 0

/-- First only the peer has an update, then only the node itself. -/
def twoRounds : List (Handled (Fin 2)) :=
  [{ state := .new 1, peerState := fun _ => (heardAt 0 0 5).state, sketch := sampleSketch, now := 10 },
    { state := (heardAt 1 1 9).state, peerState := fun _ => .new 0, sketch := sampleSketch, now := 20 }]

theorem row_mixes_rounds : ∃ n', handleAll oneSlotCfg twoRounds { heardAt 1 1 9 with
      metricsLocal := .withSketchReservoirs oneSlotCfg.reservoirCap oneSlotDraws } = some n' ∧
    ∃ row ∈ dumpRows oneSlotCfg n', row.kind = SketchKind.chanUpdates.asU8 ∧
      row.round = ⟨0, 1, 1⟩ ∧ row.round ∉ roundsOf oneSlotCfg .chanUpdates twoRounds := by
  have h : ((handleAll oneSlotCfg twoRounds { heardAt 1 1 9 with
      metricsLocal := .withSketchReservoirs oneSlotCfg.reservoirCap oneSlotDraws }).any fun n' =>
    (dumpRows oneSlotCfg n').any fun row => decide (row.kind = SketchKind.chanUpdates.asU8 ∧
      row.round = ⟨0, 1, 1⟩ ∧ row.round ∉ roundsOf oneSlotCfg .chanUpdates twoRounds)) = true := by
    decide +kernel
  obtain ⟨n', hn', hrows⟩ := Option.any_eq_true _ _ |>.1 h
  obtain ⟨row, hmem, hrow⟩ := List.any_eq_true.1 hrows
  exact ⟨n', hn', row, hmem, of_decide_eq_true hrow⟩

end Sample

end SketchNode

end LnConv
