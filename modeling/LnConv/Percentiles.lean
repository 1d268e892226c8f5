import LnConv.Finalised
import LnConv.KeyRuns

/-!
# Convergence percentiles

A row of the aggregator tells the times at which so many nodes had a message. The times recorded
for it are those of the first tuple of every node, among the tuples handled before the message was
finalised, and the row is made of their order statistics, on whichever way it was finalised.
-/

namespace LnConv

variable {P : Type} [PctIndex P] {n : Nat}

/-- The first tuple of every node. -/
def firstPerNode (xs : List (Sighting n)) : List (Sighting n) :=
  xs.foldl (fun ys x => if ∃ y ∈ ys, y.node = x.node then ys else ys ++ [x]) []

/-- The tuples of a message that are handled before it is finalised. -/
def AggregatorState.openTuples (i : MsgId) :
    AggregatorState P n → List (Sighting n) → List (Sighting n)
  | _, [] => []
  | s, x :: l =>
    let rest := (s.handleOneFirstSeen x.node x.gossip x.timeNs).elim [] fun s => s.openTuples i l
    if x.gossip.id = i ∧ i ∉ s.finalized then x :: rest else rest

/-- The times recorded for a message, one for each node. -/
def recordedTimes (ps : List P) (l : List (Sighting n)) (i : MsgId) : List Nat :=
  (firstPerNode (AggregatorState.openTuples i { percentiles := ps } l)).map (·.timeNs)

/-- The element of a list that `i` others come before in increasing order. -/
def orderStatistic (ts : List Nat) (i : Nat) : Option Nat := (ts.insertionSort (· ≤ ·))[i]?

/-- A row tells the least and the greatest of the recorded times, and for each percentile the order
statistic of its index, from the least on. -/
structure ExactStats (ps : List P) (n : Nat) (ts : List Nat) (row : MsgStats P) : Prop where
  coverage : row.coverage = ts.length
  origin : IsLeast { t | t ∈ ts } row.originNs
  last : IsGreatest { t | t ∈ ts } row.lastNs
  values : row.percentiles = ps.map fun p =>
    (p, (orderStatistic ts (PctIndex.pctToIndex p n)).map (· - row.originNs))
  unreached : ∀ i, orderStatistic ts i = none ↔ ts.length < i + 1
  unsaturated : ∀ i t, orderStatistic ts i = some t → row.originNs ≤ t
  rising : ∀ i j t, i ≤ j → orderStatistic ts j = some t →
    ∃ t', orderStatistic ts i = some t' ∧ t' ≤ t

/-! ## Order statistics -/

theorem orderStatistic_mem {ts : List Nat} {i t : Nat} (h : orderStatistic ts i = some t) :
    t ∈ ts := (List.mem_insertionSort _).1 (List.mem_of_getElem? h)

theorem orderStatistic_eq_none {ts : List Nat} {i : Nat} :
    orderStatistic ts i = none ↔ ts.length < i + 1 := by
  unfold orderStatistic
  rw [List.getElem?_eq_none_iff, List.length_insertionSort]
  omega

theorem orderStatistic_mono {ts : List Nat} {i j t : Nat} (hij : i ≤ j)
    (h : orderStatistic ts j = some t) : ∃ t', orderStatistic ts i = some t' ∧ t' ≤ t := by
  obtain ⟨hj, rfl⟩ := List.getElem?_eq_some_iff.1 h
  have hi : i < (ts.insertionSort (· ≤ ·)).length := by omega
  refine ⟨_, List.getElem?_eq_getElem hi, ?_⟩
  have hsorted := List.pairwise_insertionSort (· ≤ ·) ts
  rcases Nat.eq_or_lt_of_le hij with rfl | hlt
  · exact le_rfl
  · exact List.pairwise_iff_getElem.1 hsorted i j hi hj hlt

/-! ## The first tuple of every node -/

theorem firstPerNode_concat (xs : List (Sighting n)) (x : Sighting n) :
    firstPerNode (xs ++ [x]) =
      if ∃ y ∈ firstPerNode xs, y.node = x.node then firstPerNode xs
      else firstPerNode xs ++ [x] := by
  unfold firstPerNode
  rw [List.foldl_append]
  rfl

theorem nodup_firstPerNode (xs : List (Sighting n)) : ((firstPerNode xs).map (·.node)).Nodup := by
  induction xs using List.reverseRecOn with
  | nil => exact .nil
  | append_singleton xs x ih =>
    rw [firstPerNode_concat]
    split
    · exact ih
    · next hnew =>
      rw [List.map_append, List.nodup_append]
      refine ⟨ih, List.nodup_singleton _, fun a ha b hb => ?_⟩
      obtain ⟨y, hy, rfl⟩ := List.mem_map.1 ha
      obtain rfl := List.mem_singleton.1 hb
      exact fun he => hnew ⟨y, hy, he⟩

theorem firstPerNode_subset (xs : List (Sighting n)) : firstPerNode xs ⊆ xs := by
  induction xs using List.reverseRecOn with
  | nil => exact List.Subset.refl _
  | append_singleton xs x ih =>
    rw [firstPerNode_concat]
    split
    · exact List.Subset.trans ih (List.subset_append_left _ _)
    · exact List.append_subset.2 ⟨List.Subset.trans ih (List.subset_append_left _ _),
        List.subset_append_right _ _⟩

/-! ## A row -/

section Row

variable {ys : List (Sighting n)} {m : MsgInflight n}

/-- The filled slots hold the recorded times. -/
theorem Seen.sorted (h : Seen ys m) (hnd : (ys.map (·.node)).Nodup)
    (ht : ∀ y ∈ ys, y.timeNs ≠ NOT_SEEN) :
    m.sorted = (ys.map (·.timeNs)).insertionSort (· ≤ ·) := by
  have hnodes : ((List.finRange n).filter fun v => m.times v ≠ NOT_SEEN).Perm
      (ys.map (·.node)) := by
    rw [List.perm_ext_iff_of_nodup ((List.nodup_finRange n).filter _) hnd]
    intro v
    rw [List.mem_filter, List.mem_map, decide_eq_true_eq]
    constructor
    · rintro ⟨-, hv⟩
      by_contra hno
      exact hv (h.rest v fun y hy he => hno ⟨y, hy, he⟩)
    · rintro ⟨y, hy, rfl⟩
      refine ⟨List.mem_finRange _, ?_⟩
      rw [h.times y hy]
      exact ht y hy
  have htimes : (ys.map (·.node)).map m.times = ys.map (·.timeNs) := by
    rw [List.map_map]
    exact List.map_congr_left h.times
  have hperm : (((List.finRange n).map m.times).filter (· ≠ NOT_SEEN)).Perm
      (ys.map (·.timeNs)) := by
    rw [List.filter_map, ← htimes]
    exact hnodes.map m.times
  unfold MsgInflight.sorted
  refine List.Perm.eq_of_pairwise' (List.pairwise_insertionSort _ _)
    (List.pairwise_insertionSort _ _) ?_
  exact (List.perm_insertionSort _ _).trans (hperm.trans (List.perm_insertionSort _ _).symm)

theorem percentileEntry_eq {N coverage originNs : Nat} {sorted : List Nat}
    (h : coverage = sorted.length) (p : P) : percentileEntry N coverage originNs sorted p =
      some (p, (sorted[PctIndex.pctToIndex p N]?).map (· - originNs)) := by
  unfold percentileEntry
  dsimp only
  split
  · next hlt =>
    rw [h] at hlt
    rw [List.getElem?_eq_getElem hlt]
    rfl
  · next hge =>
    rw [h] at hge
    rw [List.getElem?_eq_none (Nat.le_of_not_lt hge)]
    rfl

theorem mapM_percentileEntry {N coverage originNs : Nat} {sorted : List Nat}
    (h : coverage = sorted.length) (ps : List P) :
    ps.mapM (percentileEntry N coverage originNs sorted) =
      some (ps.map fun p => (p, (sorted[PctIndex.pctToIndex p N]?).map (· - originNs))) := by
  induction ps with
  | nil => rfl
  | cons p ps ih =>
    rw [List.mapM_cons, ih, percentileEntry_eq h]
    rfl

/-- The last of the sorted list is the greatest. -/
theorem isGreatest_getLast {ts : List Nat} (hts : ts ≠ []) (d : Nat) :
    IsGreatest { t | t ∈ ts } ((ts.insertionSort (· ≤ ·)).getLast?.getD d) := by
  have hne : ts.insertionSort (· ≤ ·) ≠ [] := by
    rw [← List.length_pos_iff, List.length_insertionSort]
    exact List.length_pos_iff.2 hts
  rw [List.getLast?_eq_some_getLast hne, Option.getD_some]
  refine ⟨(List.mem_insertionSort _).1 (List.getLast_mem hne), fun t ht => ?_⟩
  obtain ⟨i, hi, rfl⟩ := List.getElem_of_mem ((List.mem_insertionSort (· ≤ ·)).2 ht)
  rw [List.getLast_eq_getElem]
  have hmax : orderStatistic ts ((ts.insertionSort (· ≤ ·)).length - 1) = some _ :=
    List.getElem?_eq_getElem (by omega)
  obtain ⟨t', ht', hle⟩ := orderStatistic_mono (Nat.le_sub_one_of_lt hi) hmax
  rw [orderStatistic, List.getElem?_eq_getElem hi] at ht'
  rw [Option.some.inj ht']
  exact hle

theorem Seen.exactStats (h : Seen ys m) (hnd : (ys.map (·.node)).Nodup)
    (ht : ∀ y ∈ ys, y.timeNs ≠ NOT_SEEN) (i : MsgId) (ps : List P) :
    ∃ row, finalizeMsg i m ps = some row ∧ row.id = i ∧
      ExactStats ps n (ys.map (·.timeNs)) row := by
  have hsorted := h.sorted hnd ht
  have hlen : m.coverage = m.sorted.length := by
    rw [h.coverage, hsorted, List.length_insertionSort, List.length_map]
  have hne : ys.map (·.timeNs) ≠ [] := by
    rw [Ne, List.map_eq_nil_iff]
    exact List.length_pos_iff.1 h.length_pos
  have horigin : IsLeast { t | t ∈ ys.map (·.timeNs) } m.originNs := by
    constructor
    · obtain ⟨y, hy, he⟩ := h.origin_mem
      exact List.mem_map.2 ⟨y, hy, he.symm⟩
    · intro t hmem
      obtain ⟨y, hy, rfl⟩ := List.mem_map.1 hmem
      exact h.origin_le y hy
  unfold finalizeMsg
  rw [mapM_percentileEntry hlen]
  refine ⟨_, rfl, rfl, ?_⟩
  constructor
  · rw [List.length_map]
    exact h.coverage
  · exact horigin
  · show IsGreatest _ (m.sorted.getLast?.getD m.originNs)
    rw [hsorted]
    exact isGreatest_getLast hne _
  · rw [hsorted]
    rfl
  · exact fun i => orderStatistic_eq_none
  · exact fun i t hst => horigin.2 (orderStatistic_mem hst)
  · exact fun i j t hij => orderStatistic_mono hij

end Row

/-! ## The aggregator -/

section States

variable {ps : List P} {op op' : MsgId → List (Sighting n)} {s s' : AggregatorState P n} {i : MsgId}
  {m : MsgInflight n}

/-- The rows emitted so far are exact about the tuples `op`. -/
structure RowsExact (ps : List P) (op : MsgId → List (Sighting n)) (s : AggregatorState P n) :
    Prop where
  percentiles : s.percentiles = ps
  rows : ∀ row ∈ s.mirror, row.id ∈ s.finalized ∧
    ExactStats ps n ((firstPerNode (op row.id)).map (·.timeNs)) row
  times : ∀ i, ∀ x ∈ op i, x.timeNs ≠ NOT_SEEN

/-- So far each message was recorded for the tuples `op`. -/
structure Records (ps : List P) (op : MsgId → List (Sighting n)) (s : AggregatorState P n) : Prop
    extends RowsExact ps op s where
  live : ∀ i m, s.inFlight.lookup i = some m → i ∉ s.finalized ∧ Seen (firstPerNode (op i)) m
  unseen : ∀ i, i ∉ s.finalized → s.inFlight.lookup i = none → op i = []

theorem mem_intSet_insert {s : IntSet} {x y : Nat} : y ∈ s.insert x ↔ y ∈ s ∨ y = x := by
  unfold IntSet.insert
  split
  · next h => exact ⟨.inl, fun hy => hy.elim id fun he => he ▸ h⟩
  · rw [List.mem_append, List.mem_singleton]

/-- What `finalize` does; it does not panic. -/
theorem RowsExact.finalize (h : RowsExact ps op s) (hm : Seen (firstPerNode (op i)) m) :
    ∃ s', s.finalize i m = some s' ∧ RowsExact ps op s' ∧ s'.inFlight = s.inFlight.erase i ∧
      s'.finalized = s.finalized.insert i := by
  obtain ⟨row, hrow, hid, hexact⟩ := hm.exactStats (nodup_firstPerNode _)
    (fun y hy => h.times i y (firstPerNode_subset _ hy)) i ps
  rw [← h.percentiles] at hrow
  refine ⟨_, by rw [AggregatorState.finalize, hrow]; rfl, ?_, rfl, rfl⟩
  refine ⟨h.percentiles, fun row' hrow' => ?_, h.times⟩
  rcases List.mem_append.1 hrow' with hrow' | hrow'
  · exact ⟨mem_intSet_insert.2 (.inl (h.rows row' hrow').1), (h.rows row' hrow').2⟩
  · obtain rfl := List.mem_singleton.1 hrow'
    rw [hid]
    exact ⟨mem_intSet_insert.2 (.inr rfl), hexact⟩

/-- The other messages stay in flight when one is finalised. -/
theorem Records.of_finalize
    (hlive : ∀ j m', j ≠ i → s.inFlight.lookup j = some m' →
      j ∉ s.finalized ∧ Seen (firstPerNode (op j)) m')
    (hunseen : ∀ j, j ≠ i → j ∉ s.finalized → s.inFlight.lookup j = none → op j = [])
    (hr : RowsExact ps op s') (hin : s'.inFlight = s.inFlight.erase i)
    (hfin : s'.finalized = s.finalized.insert i) : Records ps op s' where
  toRowsExact := hr
  live j m' hj := by
    rw [hin] at hj
    have hne : j ≠ i := by
      rintro rfl
      rw [AList.lookup_erase] at hj
      cases hj
    rw [AList.lookup_erase_ne hne] at hj
    rw [hfin, mem_intSet_insert]
    exact ⟨not_or.2 ⟨(hlive j m' hne hj).1, hne⟩, (hlive j m' hne hj).2⟩
  unseen j hj hl := by
    rw [hfin, mem_intSet_insert, not_or] at hj
    rw [hin, AList.lookup_erase_ne hj.2] at hl
    exact hunseen j hj.2 hj.1 hl

/-- Only the maps by channel and the counters differ. -/
theorem Records.congr (h : Records ps op s) (hp : s'.percentiles = s.percentiles)
    (hm : s'.mirror = s.mirror) (hf : s'.finalized = s.finalized)
    (hi : s'.inFlight = s.inFlight) : Records ps op s' := by
  refine ⟨⟨hp.trans h.percentiles, ?_, h.times⟩, ?_, ?_⟩
  · rw [hm, hf]
    exact h.rows
  · rw [hi, hf]
    exact h.live
  · rw [hi, hf]
    exact h.unseen

theorem Records.supersedeOld {id : MsgId} (h : Records ps op s) (hid : id ∉ s.finalized)
    (old : MsgId) : ∃ s', s.supersedeOld id old = some s' ∧ Records ps op s' ∧
      id ∉ s'.finalized := by
  unfold AggregatorState.supersedeOld
  split
  · exact ⟨s, rfl, h, hid⟩
  next hne =>
  split
  · next m hm =>
    obtain ⟨s', hs', hr, hin, hfin⟩ := h.toRowsExact.finalize (h.live old m hm).2
    rw [hs']
    have hrec : Records ps op s' := .of_finalize (fun j m' _ => h.live j m')
      (fun j _ => h.unseen j) hr hin hfin
    refine ⟨_, rfl, hrec.congr rfl rfl rfl rfl, ?_⟩
    show id ∉ s'.finalized
    rw [hfin, mem_intSet_insert]
    exact not_or.2 ⟨hid, fun he => hne he.symm⟩
  · exact ⟨s, rfl, h, hid⟩

theorem Records.supersede {g : Gossip} (h : Records ps op s) (hid : g.id ∉ s.finalized)
    (key : Nat) : ∃ s', s.supersede key g = some s' ∧ Records ps op s' ∧ g.id ∉ s'.finalized := by
  have hloop : ∀ (olds : List MsgId) (t : AggregatorState P n), Records ps op t →
      g.id ∉ t.finalized → ∃ t', olds.foldlM (AggregatorState.supersedeOld g.id) t = some t' ∧
        Records ps op t' ∧ g.id ∉ t'.finalized := by
    intro olds
    induction olds with
    | nil => exact fun t ht hg => ⟨t, rfl, ht, hg⟩
    | cons old olds ih =>
      intro t ht hg
      obtain ⟨t₁, ht₁, hr, hg₁⟩ := ht.supersedeOld hg old
      rw [List.foldlM_cons, ht₁]
      exact ih t₁ hr hg₁
  unfold AggregatorState.supersede
  dsimp only
  split
  · exact hloop _ _ (h.congr rfl rfl rfl rfl) hid
  · exact ⟨s, rfl, h, hid⟩

/-- The tuples of a message with one more. -/
def addTuple (op : MsgId → List (Sighting n)) (x : Sighting n) : MsgId → List (Sighting n) :=
  Function.update op x.gossip.id (op x.gossip.id ++ [x])

omit [PctIndex P] in
theorem addTuple_self (op : MsgId → List (Sighting n)) (x : Sighting n) :
    addTuple op x x.gossip.id = op x.gossip.id ++ [x] := Function.update_self ..

omit [PctIndex P] in
theorem addTuple_of_ne (op : MsgId → List (Sighting n)) {x : Sighting n} {j : MsgId}
    (hj : j ≠ x.gossip.id) : addTuple op x j = op j := Function.update_of_ne hj ..

theorem RowsExact.addTuple {x : Sighting n} (h : RowsExact ps op s)
    (hid : x.gossip.id ∉ s.finalized) (hx : x.timeNs ≠ NOT_SEEN) :
    RowsExact ps (addTuple op x) s where
  percentiles := h.percentiles
  rows row hrow := by
    have hne : row.id ≠ x.gossip.id := fun he => hid (he ▸ (h.rows row hrow).1)
    rw [addTuple_of_ne op hne]
    exact h.rows row hrow
  times j y hy := by
    by_cases hj : j = x.gossip.id
    · subst hj
      rw [addTuple_self] at hy
      rcases List.mem_append.1 hy with hy | hy
      · exact h.times _ y hy
      · obtain rfl := List.mem_singleton.1 hy
        exact hx
    · rw [addTuple_of_ne op hj] at hy
      exact h.times j y hy

/-- The entry that `record` looks at: a tuple of a node that is recorded changes nothing, another one
is seen. -/
theorem Records.seen_addTuple {x : Sighting n} (h : Records ps op s)
    (hid : x.gossip.id ∉ s.finalized)
    (hm : (s.inFlight.lookup x.gossip.id).getD (.new n x.timeNs x.gossip.sizeBytes) = m) :
    (m.times x.node ≠ NOT_SEEN → s.inFlight.lookup x.gossip.id = some m ∧
      firstPerNode (op x.gossip.id ++ [x]) = firstPerNode (op x.gossip.id)) ∧
    (m.times x.node = NOT_SEEN →
      Seen (firstPerNode (op x.gossip.id ++ [x])) (m.see x.node x.timeNs)) := by
  cases hl : s.inFlight.lookup x.gossip.id with
  | none =>
    rw [hl, Option.getD_none] at hm
    subst hm
    refine ⟨fun hne => absurd rfl hne, fun _ => ?_⟩
    rw [h.unseen _ hid hl]
    exact .new x
  | some m₀ =>
    rw [hl, Option.getD_some] at hm
    subst hm
    have hseen := (h.live _ m₀ hl).2
    constructor
    · intro hne
      refine ⟨rfl, ?_⟩
      rw [firstPerNode_concat, if_pos]
      by_contra hno
      exact hne (hseen.rest x.node fun y hy he => hno ⟨y, hy, he⟩)
    · intro hnot
      have hnew : ∀ y ∈ firstPerNode (op x.gossip.id), y.node ≠ x.node := by
        intro y hy he
        have ht := hseen.times y hy
        rw [he, hnot] at ht
        exact h.times _ y (firstPerNode_subset _ hy) ht.symm
      rw [firstPerNode_concat, if_neg fun ⟨y, hy, he⟩ => hnew y hy he]
      exact hseen.see hnew

/-- Recording a tuple of an open message. -/
theorem Records.record {x : Sighting n} (h : Records ps op s) (hid : x.gossip.id ∉ s.finalized)
    (hx : x.timeNs ≠ NOT_SEEN) (key : Option Nat) : ∃ s',
    s.record key x.node x.gossip x.timeNs = some s' ∧ Records ps (addTuple op x) s' := by
  have hrows := h.toRowsExact.addTuple hid hx
  have hlive : ∀ j m', j ≠ x.gossip.id → s.inFlight.lookup j = some m' →
      j ∉ s.finalized ∧ Seen (firstPerNode (addTuple op x j)) m' := by
    intro j m' hj hl
    rw [addTuple_of_ne op hj]
    exact h.live j m' hl
  have hunseen : ∀ j, j ≠ x.gossip.id → j ∉ s.finalized → s.inFlight.lookup j = none →
      addTuple op x j = [] := by
    intro j hj hf hl
    rw [addTuple_of_ne op hj]
    exact h.unseen j hf hl
  unfold AggregatorState.record
  obtain ⟨hold, hnew⟩ := h.seen_addTuple hid rfl
  set m := (s.inFlight.lookup x.gossip.id).getD (.new n x.timeNs x.gossip.sizeBytes)
  rw [← addTuple_self] at hold hnew
  dsimp only
  split
  · next hne =>
    obtain ⟨hl, hsame⟩ := hold hne
    refine ⟨s, rfl, hrows, fun j m' hj => ?_, fun j hf hj => ?_⟩
    · by_cases hji : j = x.gossip.id
      · subst hji
        rw [hl] at hj
        cases hj
        rw [hsame]
        exact h.live _ _ hl
      · exact hlive j m' hji hj
    · by_cases hji : j = x.gossip.id
      · subst hji
        rw [hl] at hj
        cases hj
      · exact hunseen j hji hf hj
  next hnot =>
  have hseen := hnew (not_not.1 hnot)
  split
  · obtain ⟨s', hs', hr, hin, hfin⟩ := hrows.finalize hseen
    rw [hs']
    have hrec : Records ps (addTuple op x) s' := .of_finalize hlive hunseen hr hin hfin
    exact ⟨_, rfl, hrec.congr rfl rfl rfl rfl⟩
  · refine ⟨_, rfl, ⟨hrows.percentiles, hrows.rows, hrows.times⟩, fun j m' hj => ?_,
      fun j hf hj => ?_⟩
    · by_cases hji : j = x.gossip.id
      · subst hji
        rw [AList.lookup_insert] at hj
        cases hj
        exact ⟨hid, hseen⟩
      · rw [AList.lookup_insert_ne hji] at hj
        exact hlive j m' hji hj
    · by_cases hji : j = x.gossip.id
      · subst hji
        rw [AList.lookup_insert] at hj
        cases hj
      · rw [AList.lookup_insert_ne hji] at hj
        exact hunseen j hji hf hj

theorem Records.handleOneFirstSeen {x : Sighting n} (h : Records ps op s)
    (hx : x.timeNs ≠ NOT_SEEN) : ∃ s', s.handleOneFirstSeen x.node x.gossip x.timeNs = some s' ∧
      Records ps (if x.gossip.id ∈ s.finalized then op else addTuple op x) s' := by
  unfold AggregatorState.handleOneFirstSeen
  dsimp only
  split
  · exact ⟨s, rfl, h⟩
  next hid =>
  cases x.gossip.chanKey with
  | none =>
    exact h.record hid hx none
  | some key =>
    obtain ⟨s₁, hs₁, h₁, hid₁⟩ := h.supersede hid key
    obtain ⟨s', hs', h'⟩ := h₁.record hid₁ hx (some key)
    refine ⟨s', ?_, h'⟩
    show (s.supersede key x.gossip).bind _ = _
    rw [hs₁]
    exact hs'

/-- Every row that a run emits is exact about the tuples that the run recorded. -/
theorem Records.run {l : List (Sighting n)} (h : Records ps op s)
    (hl : ∀ x ∈ l, x.timeNs ≠ NOT_SEEN) : ∃ s', s.handleSightings l = some s' ∧
      Records ps (fun i => op i ++ s.openTuples i l) s' := by
  induction l generalizing op s with
  | nil =>
    refine ⟨s, rfl, ?_⟩
    simpa only [AggregatorState.openTuples, List.append_nil] using h
  | cons x l ih =>
    obtain ⟨s₁, hs₁, h₁⟩ := h.handleOneFirstSeen (hl x List.mem_cons_self)
    obtain ⟨s', hs', h'⟩ := ih h₁ fun y hy => hl y (List.mem_cons_of_mem _ hy)
    refine ⟨s', by rw [AggregatorState.handleSightings, List.foldlM_cons, hs₁]; exact hs', ?_⟩
    convert h' using 2 with i
    rw [AggregatorState.openTuples, hs₁]
    dsimp only [Option.elim]
    split
    · next hc =>
      obtain ⟨rfl, hid⟩ := hc
      rw [if_neg hid, addTuple_self, List.append_assoc]
      rfl
    · next hc =>
      split
      · rfl
      · next hid =>
        rw [addTuple_of_ne]
        rintro rfl
        exact hc ⟨rfl, hid⟩

theorem RowsExact.finalizeDrained {es : List (Sigma fun _ : Nat => MsgInflight n)}
    (h : RowsExact ps op s) (hes : ∀ e ∈ es, Seen (firstPerNode (op e.1)) e.2) :
    ∃ s', es.foldlM AggregatorState.finalizeDrained s = some s' ∧ RowsExact ps op s' := by
  induction es generalizing s with
  | nil => exact ⟨s, rfl, h⟩
  | cons e es ih =>
    have hes' := fun e' he' => hes e' (List.mem_cons_of_mem e he')
    rw [List.foldlM_cons]
    unfold AggregatorState.finalizeDrained
    split
    · exact ih h hes'
    · obtain ⟨s₁, hs₁, hr, -⟩ := h.finalize (hes e List.mem_cons_self)
      rw [hs₁]
      exact ih hr hes'

/-- The aggregator never panics, and each of its rows tells the exact order statistics of the times
recorded for its message, however it came to be finalised. -/
theorem percentiles_exact (ps : List P) {bs : List (Fin n × List FirstSeenEntry)}
    (hl : ∀ x ∈ sightings bs, x.timeNs ≠ NOT_SEEN) :
    ∃ s : AggregatorState P n, AggregatorState.aggregate ps bs = some s ∧
      ∀ row ∈ s.mirror, ExactStats ps n (recordedTimes ps (sightings bs) row.id) row := by
  have hstart : Records ps (fun _ => []) ({ percentiles := ps } : AggregatorState P n) :=
    ⟨⟨rfl, by simp, by simp⟩, by simp, by simp⟩
  obtain ⟨s, hs, h⟩ := hstart.run hl
  have hdrain : RowsExact ps (fun i => [] ++ AggregatorState.openTuples i { percentiles := ps }
      (sightings bs)) { s with inFlight := ∅ } := ⟨h.percentiles, h.rows, h.times⟩
  have hflight : ∀ e ∈ s.inFlight.entries, Seen (firstPerNode
      ([] ++ AggregatorState.openTuples e.1 { percentiles := ps } (sightings bs))) e.2 :=
    fun e he => (h.live e.1 e.2 (AList.mem_lookup_iff.2 he)).2
  obtain ⟨s', hs', h'⟩ := hdrain.finalizeDrained hflight
  refine ⟨{ s' with inflightByChannel := ∅ }, ?_, fun row hrow => (h'.rows row hrow).2⟩
  unfold AggregatorState.aggregate AggregatorState.finalizeRemaining
  rw [foldlM_handleFirstSeenBatch, hs]
  show (s.inFlight.entries.foldlM AggregatorState.finalizeDrained _).bind _ = _
  rw [hs']
  rfl

end States

/-- One message reaches both nodes, late at the first of them; another is in flight at the end. -/
def lateTuples : List (Fin 2 × List FirstSeenEntry) :=
  [(0, [⟨updateOf 1 7 10, 300⟩, ⟨updateOf 2 8 10, 400⟩]),
    (1, [⟨updateOf 1 7 10, 100⟩, ⟨updateOf 1 7 10, 500⟩])]

theorem percentiles_exact_sample : ∃ s : AggregatorState Percent 2,
    AggregatorState.aggregate [⟨50⟩, ⟨100⟩] lateTuples = some s ∧ s.mirror.length = 2 ∧
    ∀ row ∈ s.mirror, ExactStats [(⟨50⟩ : Percent), ⟨100⟩] 2
      (recordedTimes [(⟨50⟩ : Percent), ⟨100⟩] (sightings lateTuples) row.id) row := by
  have hrun : ((AggregatorState.aggregate [(⟨50⟩ : Percent), ⟨100⟩] lateTuples).any fun s =>
      s.mirror.length = 2) = true := by decide +kernel
  have htimes : ∀ x ∈ sightings lateTuples, x.timeNs ≠ NOT_SEEN := by decide
  obtain ⟨s, hs, h⟩ := percentiles_exact [(⟨50⟩ : Percent), ⟨100⟩] htimes
  rw [hs] at hrun
  exact ⟨s, hs, of_decide_eq_true hrun, h⟩

end LnConv
