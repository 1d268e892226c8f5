import Mathlib.Algebra.BigOperators.Fin
import Mathlib.Algebra.Order.BigOperators.Group.List
import Mathlib.Algebra.Order.Floor.Semiring
import Mathlib.Data.List.GetD
import Mathlib.Data.List.Sort
import Mathlib.Data.Rat.Floor
import Mathlib.Tactic.Linarith
import Mathlib.Tactic.Ring

/-!
# Mixed populations

`assign_mix` gives each vertex the algorithm of an entry of the population: first the whole part
of each entry's share, then one more to the entries with the largest remainders. Fractions are
rationals. `none` is a panic.
-/

namespace LnConv

structure MixEntry (α : Type) where
  algo : α
  fraction : ℚ

/-- `shuffle` with a seeded generator. -/
structure Shuffle (α : Type) where
  run : List α → List α
  perm : ∀ l, (run l).Perm l

namespace Mix

variable {α : Type}

def total (population : List (MixEntry α)) : ℚ := (population.map (·.fraction)).sum

/-- The share of an entry. -/
def exact (n : Nat) (total : ℚ) (m : MixEntry α) : ℚ := m.fraction / total * n

/-- `counts[i] += 1`. -/
def addOne (counts : List Nat) (x : Nat × ℚ) : Option (List Nat) :=
  counts[x.1]?.map fun count => counts.set x.1 (count + 1)

def fracResiduals (n : Nat) (total : ℚ) (population : List (MixEntry α)) : List (Nat × ℚ) :=
  population.zipIdx.map fun x => (x.2, exact n total x.1 - ⌊exact n total x.1⌋)

/-- The residuals that get one more. -/
def roundedUp (n : Nat) (total : ℚ) (population : List (MixEntry α)) (remainder : Nat) :
    List (Nat × ℚ) :=
  ((fracResiduals n total population).insertionSort fun a b => b.2 ≤ a.2).take remainder

def assignMix (n : Nat) (population : List (MixEntry α)) (shuffle : Shuffle α) :
    Option (List α) :=
  let total := total population
  if total ≤ 0 then none
  else do
    let counts := population.map fun m => ⌊exact n total m⌋₊
    let assigned := counts.sum
    let counts ←
      if assigned < n then (roundedUp n total population (n - assigned)).foldlM addOne counts
      else some counts
    let assignments := (population.zip counts).flatMap fun x => List.replicate x.2 x.1.algo
    some (shuffle.run assignments)

/-! ## What is left after the whole parts -/

/-- There are at least as many remainders as they add up to. -/
theorem sum_fract_le (qs : List ℚ) :
    (qs.map Int.fract).sum ≤ qs.countP fun q => decide (0 < Int.fract q) := by
  induction qs with
  | nil => simp
  | cons q qs ih =>
    rw [List.map_cons, List.sum_cons, List.countP_cons]
    by_cases hq : 0 < Int.fract q
    · have := Int.fract_lt_one q
      simp only [hq, decide_true, if_true]
      push_cast
      linarith
    · have : Int.fract q = 0 := le_antisymm (not_lt.1 hq) (Int.fract_nonneg q)
      simpa [this] using ih

theorem sum_floor_add_sum_fract {qs : List ℚ} (hqs : ∀ q ∈ qs, 0 ≤ q) :
    (((qs.map fun q => ⌊q⌋₊).sum : Nat) : ℚ) + (qs.map Int.fract).sum = qs.sum := by
  induction qs with
  | nil => simp
  | cons q qs ih =>
    have hq : ((⌊q⌋₊ : Nat) : ℚ) + Int.fract q = q := by
      rw [natCast_floor_eq_intCast_floor (hqs q (List.mem_cons_self ..)), Int.floor_add_fract]
    have ih := ih fun q hq => hqs q (List.mem_cons_of_mem _ hq)
    rw [List.map_cons, List.map_cons, List.sum_cons, List.sum_cons, List.sum_cons, Nat.cast_add]
    linarith

theorem ceil_of_fract_pos {q : ℚ} (hq : 0 ≤ q) (hfract : 0 < Int.fract q) : ⌈q⌉₊ = ⌊q⌋₊ + 1 := by
  have hsplit := Int.floor_add_fract q
  have hlt := Int.fract_lt_one q
  rw [← natCast_floor_eq_intCast_floor hq] at hsplit
  rw [Nat.ceil_eq_iff (Nat.succ_ne_zero _), Nat.succ_sub_one, Nat.cast_succ]
  constructor <;> linarith

/-- The first entries of a list in descending order are the positive ones. -/
theorem pos_of_mem_take {l : List (Nat × ℚ)} (hl : l.Pairwise fun a b => b.2 ≤ a.2) {r : Nat}
    (hr : r ≤ l.countP fun x => decide (0 < x.2)) : ∀ x ∈ l.take r, 0 < x.2 := by
  induction l generalizing r with
  | nil => simp
  | cons y l ih =>
    obtain ⟨hy, hl⟩ := List.pairwise_cons.1 hl
    cases r with
    | zero => simp
    | succ r =>
      rw [List.countP_cons] at hr
      have hpos : 0 < y.2 := by
        by_contra hneg
        have hnone : l.countP (fun x => decide (0 < x.2)) = 0 :=
          List.countP_eq_zero.2 fun x hx => by simpa using (hy x hx).trans (not_lt.1 hneg)
        simp [hneg, hnone] at hr
      simp only [hpos, decide_true, if_true] at hr
      intro x hx
      rcases List.mem_cons.1 hx with rfl | hx
      · exact hpos
      · exact ih hl (by omega) x hx

/-! ## Who gets one more -/

theorem addOne_eq {counts : List Nat} {x : Nat × ℚ} (hx : x.1 < counts.length) :
    ∃ counts', addOne counts x = some counts' ∧ counts'.length = counts.length ∧
      counts'.sum = counts.sum + 1 ∧
      ∀ i < counts.length, counts'.getD i 0 = counts.getD i 0 + if x.1 = i then 1 else 0 := by
  refine ⟨counts.set x.1 (counts[x.1] + 1), ?_, List.length_set, ?_, fun i hi => ?_⟩
  · rw [addOne, List.getElem?_eq_getElem hx, Option.map_some]
  · have hold := (List.getElem_cons_eraseIdx_perm hx).sum_eq
    have hnew := (List.set_perm_cons_eraseIdx hx (counts[x.1] + 1)).sum_eq
    rw [List.sum_cons] at hold hnew
    omega
  · rw [List.getD_eq_getElem _ _ (by rwa [List.length_set]), List.getD_eq_getElem _ _ hi,
      List.getElem_set]
    split
    · next h => subst h; rfl
    · rfl

theorem addOne_run {xs : List (Nat × ℚ)} {counts : List Nat} (hxs : ∀ x ∈ xs, x.1 < counts.length)
    (hnodup : (xs.map Prod.fst).Nodup) : ∃ counts', xs.foldlM addOne counts = some counts' ∧
      counts'.length = counts.length ∧ counts'.sum = counts.sum + xs.length ∧
      ∀ i < counts.length,
        counts'.getD i 0 = counts.getD i 0 + if i ∈ xs.map Prod.fst then 1 else 0 := by
  induction xs generalizing counts with
  | nil => exact ⟨counts, rfl, rfl, rfl, by simp⟩
  | cons x xs ih =>
    obtain ⟨counts₁, hone, hlen₁, hsum₁, hget₁⟩ := addOne_eq (hxs x (List.mem_cons_self ..))
    rw [List.map_cons, List.nodup_cons] at hnodup
    obtain ⟨counts₂, hrun, hlen₂, hsum₂, hget₂⟩ :=
      ih (fun y hy => hlen₁ ▸ hxs y (List.mem_cons_of_mem _ hy)) hnodup.2
    refine ⟨counts₂, by simp [List.foldlM_cons, hone, hrun], hlen₂.trans hlen₁, ?_, fun i hi => ?_⟩
    · rw [hsum₂, hsum₁, List.length_cons]; omega
    rw [hget₂ i (hlen₁ ▸ hi), hget₁ i hi, List.map_cons, Nat.add_assoc]
    congr 1
    by_cases hxi : x.1 = i
    · subst hxi; simp [hnodup.1]
    · simp only [hxi, if_false, Nat.zero_add, List.mem_cons, Ne.symm hxi, false_or]

section roundedUp

variable (n : Nat) (total : ℚ) (population : List (MixEntry α)) (r : Nat)

theorem mem_fracResiduals {x : Nat × ℚ} : x ∈ fracResiduals n total population ↔
    ∃ h : x.1 < population.length, x.2 = Int.fract (exact n total population[x.1]) := by
  simp only [fracResiduals, List.mem_map, Prod.exists, List.mem_zipIdx_iff_getElem?]
  constructor
  · rintro ⟨m, i, hm, rfl⟩
    obtain ⟨hi, rfl⟩ := List.getElem?_eq_some_iff.1 hm
    exact ⟨hi, Int.self_sub_floor _⟩
  · rintro ⟨hi, hx⟩
    refine ⟨population[x.1], x.1, List.getElem?_eq_getElem hi, ?_⟩
    rw [Int.self_sub_floor, ← hx]

theorem fracResiduals_fst :
    (fracResiduals n total population).map Prod.fst = List.range population.length := by
  rw [fracResiduals, List.map_map, List.range_eq_range']
  exact List.zipIdx_map_snd 0 population

theorem fracResiduals_snd : (fracResiduals n total population).map Prod.snd =
    (population.map (exact n total)).map Int.fract := by
  have hfst := List.zipIdx_map_fst 0 population
  conv_rhs => rw [← hfst]
  simp only [fracResiduals, List.map_map]
  exact List.map_congr_left fun x _ => Int.self_sub_floor _

/-- The entries rounded up: `r` different ones, none of them with an exact share, and none with
a smaller remainder than an entry that is not rounded up. -/
theorem roundedUp_spec
    (hr : r ≤ (population.map (exact n total)).countP fun q => decide (0 < Int.fract q)) :
    ((roundedUp n total population r).map Prod.fst).Nodup ∧
    (roundedUp n total population r).length = r ∧
    (∀ x ∈ roundedUp n total population r, ∃ h : x.1 < population.length,
      0 < Int.fract (exact n total population[x.1])) ∧
    ∀ x ∈ roundedUp n total population r, ∀ i (h : i < population.length),
      i ∉ (roundedUp n total population r).map Prod.fst →
        ∃ hx : x.1 < population.length,
          Int.fract (exact n total population[i]) ≤ Int.fract (exact n total population[x.1]) := by
  set sorted := (fracResiduals n total population).insertionSort fun a b => b.2 ≤ a.2 with hsorted
  have hperm : sorted.Perm (fracResiduals n total population) := List.perm_insertionSort _ _
  have hdesc : sorted.Pairwise fun a b => b.2 ≤ a.2 := by
    have : IsTrans (Nat × ℚ) fun a b => b.2 ≤ a.2 := ⟨fun _ _ _ hab hbc => hbc.trans hab⟩
    have : Std.Total (α := Nat × ℚ) fun a b => b.2 ≤ a.2 := ⟨fun a b => le_total b.2 a.2⟩
    exact List.pairwise_insertionSort _ _
  have hmem : ∀ {x}, x ∈ sorted → ∃ h : x.1 < population.length,
      x.2 = Int.fract (exact n total population[x.1]) := fun hx =>
    (mem_fracResiduals n total population).1 (hperm.mem_iff.1 hx)
  have hnodup : (sorted.map Prod.fst).Nodup := by
    rw [(hperm.map _).nodup_iff, fracResiduals_fst]
    exact List.nodup_range
  have hcount : sorted.countP (fun x => decide (0 < x.2)) =
      (population.map (exact n total)).countP fun q => decide (0 < Int.fract q) := by
    rw [hperm.countP_eq, show (fun x : Nat × ℚ => decide (0 < x.2)) =
      (fun y => decide (0 < y)) ∘ Prod.snd from rfl, ← List.countP_map, fracResiduals_snd,
      List.countP_map]
    rfl
  have htake : roundedUp n total population r = sorted.take r := rfl
  rw [htake]
  refine ⟨hnodup.sublist ((List.take_sublist r sorted).map _), ?_, fun x hx => ?_,
    fun x hx i hi hout => ?_⟩
  · have hle := List.countP_le_length (p := fun x : Nat × ℚ => decide (0 < x.2)) (l := sorted)
    rw [List.length_take]
    omega
  · obtain ⟨hlt, hres⟩ := hmem (List.mem_of_mem_take hx)
    exact ⟨hlt, hres ▸ pos_of_mem_take hdesc (hcount ▸ hr) x hx⟩
  · obtain ⟨hlt, hres⟩ := hmem (List.mem_of_mem_take hx)
    refine ⟨hlt, ?_⟩
    have hin : (i, Int.fract (exact n total population[i])) ∈ sorted :=
      hperm.mem_iff.2 ((mem_fracResiduals n total population).2 ⟨hi, rfl⟩)
    -- it stands past the first `r`, and those come before all others
    rw [← List.take_append_drop r sorted] at hin hdesc
    rcases List.mem_append.1 hin with hin | hin
    · exact absurd (List.mem_map_of_mem hin) hout
    · have hle := (List.pairwise_append.1 hdesc).2.2 x hx _ hin
      rwa [hres] at hle

end roundedUp

/-! ## The quota -/

section quota

variable {n : Nat} {population : List (MixEntry α)}

theorem sum_exact (n : Nat) (t : ℚ) (population : List (MixEntry α)) :
    (population.map (exact n t)).sum = total population / t * n := by
  induction population with
  | nil => simp [total]
  | cons m population ih =>
    rw [List.map_cons, List.sum_cons, ih]
    simp only [exact, total, List.map_cons, List.sum_cons]
    ring

/-- The shares add up to all vertices, so the whole parts leave no more than the remainders. -/
theorem remainder_le (hnonneg : ∀ m ∈ population, 0 ≤ m.fraction) (hpos : 0 < total population) :
    ((population.map fun m => ⌊exact n (total population) m⌋₊).sum ≤ n) ∧
    n - (population.map fun m => ⌊exact n (total population) m⌋₊).sum ≤
      (population.map (exact n (total population))).countP fun q => decide (0 < Int.fract q) := by
  set qs := population.map (exact n (total population)) with hqs
  have hfloors : (population.map fun m => ⌊exact n (total population) m⌋₊) =
      qs.map fun q => ⌊q⌋₊ := by rw [hqs, List.map_map]; rfl
  have hsum : qs.sum = n := by
    rw [hqs, sum_exact, div_self (ne_of_gt hpos), one_mul]
  have hsplit : (((qs.map fun q => ⌊q⌋₊).sum : Nat) : ℚ) + (qs.map Int.fract).sum = qs.sum := by
    refine sum_floor_add_sum_fract fun q hq => ?_
    obtain ⟨m, hm, rfl⟩ := List.mem_map.1 hq
    exact mul_nonneg (div_nonneg (hnonneg m hm) (le_of_lt hpos)) (Nat.cast_nonneg n)
  have hfract : 0 ≤ (qs.map Int.fract).sum := by
    refine List.sum_nonneg fun x hx => ?_
    obtain ⟨q, -, rfl⟩ := List.mem_map.1 hx
    exact Int.fract_nonneg q
  have hle := sum_fract_le qs
  rw [hfloors]
  have hassigned : (qs.map fun q => ⌊q⌋₊).sum ≤ n := by
    rw [← Nat.cast_le (α := ℚ)]
    linarith
  refine ⟨hassigned, ?_⟩
  rw [← Nat.cast_le (α := ℚ), Nat.cast_sub hassigned]
  linarith

/-- The counts of the entries, and the blocks that are shuffled. -/
theorem assignMix_counts (hnonneg : ∀ m ∈ population, 0 ≤ m.fraction)
    (hpos : 0 < total population) (shuffle : Shuffle α) : ∃ counts : List Nat,
    assignMix n population shuffle = some (shuffle.run
      ((population.zip counts).flatMap fun x => List.replicate x.2 x.1.algo)) ∧
    counts.length = population.length ∧ counts.sum = n ∧
    ∀ i (h : i < population.length), counts.getD i 0 =
      ⌊exact n (total population) population[i]⌋₊ +
        if i ∈ (roundedUp n (total population) population (n - (population.map fun m =>
          ⌊exact n (total population) m⌋₊).sum)).map Prod.fst then 1 else 0 := by
  obtain ⟨hassigned, hr⟩ := remainder_le (n := n) hnonneg hpos
  obtain ⟨hnodup, hlen, hin, -⟩ := roundedUp_spec n (total population) population _ hr
  set counts := population.map fun m => ⌊exact n (total population) m⌋₊ with hcounts
  have hlt : ∀ x ∈ roundedUp n (total population) population (n - counts.sum),
      x.1 < counts.length := fun x hx => by
    rw [hcounts, List.length_map]
    exact (hin x hx).1
  obtain ⟨counts', hrun, hlen', hsum', hget⟩ := addOne_run hlt hnodup
  refine ⟨counts', ?_, by rw [hlen', hcounts, List.length_map], by omega, fun i hi => ?_⟩
  · simp only [assignMix, if_neg (not_le.2 hpos), ← hcounts]
    by_cases hleft : counts.sum < n
    · rw [if_pos hleft, hrun]
      rfl
    · -- nothing is left to give
      have hsame : counts' = counts := by
        rw [show n - counts.sum = 0 by omega] at hrun
        exact (Option.some.inj hrun).symm
      rw [if_neg hleft, hsame]
      rfl
  · rw [hget i (by rwa [hcounts, List.length_map])]
    congr 1
    rw [hcounts, List.getD_eq_getElem _ _ (by rwa [List.length_map]), List.getElem_map]

/-- The blocks before the shuffle, by the entry each place belongs to. -/
theorem blocks_eq {counts : List Nat} (hlen : counts.length = population.length) :
    ((population.zip counts).flatMap fun x => List.replicate x.2 x.1.algo) =
      ((List.finRange population.length).flatMap fun i : Fin population.length =>
        List.replicate (counts.getD i 0) i).map fun i => population[i].algo := by
  have hzip : population.zip counts =
      (List.finRange population.length).map fun i : Fin population.length =>
        (population[i], counts.getD i 0) := by
    apply List.ext_getElem
    · simp [hlen]
    · intro i h₁ h₂
      have hi : i < counts.length := by simp at h₁; omega
      simp [List.getElem?_eq_getElem hi]
  rw [hzip, List.flatMap_map, List.map_flatMap]
  simp only [List.map_replicate]

theorem count_blocks (k : Nat) (c : Fin k → Nat) (i : Fin k) :
    ((List.finRange k).flatMap fun j => List.replicate (c j) j).count i = c i := by
  rw [List.count_flatMap, ← Fin.sum_univ_def]
  simp [List.count_replicate]

theorem length_blocks {counts : List Nat} (hlen : counts.length = population.length) :
    ((List.finRange population.length).flatMap fun i : Fin population.length =>
      List.replicate (counts.getD i 0) i).length = counts.sum := by
  have hcounts : counts = (List.finRange population.length).map
      fun i : Fin population.length => counts.getD i 0 := by
    apply List.ext_getElem
    · simp [hlen]
    · intro i h₁ _
      simp [List.getElem?_eq_getElem h₁]
  rw [List.length_flatMap]
  conv_rhs => rw [hcounts]
  simp only [List.length_replicate]

/-- A shuffle of a mapped list is the map of a shuffled list. -/
theorem exists_perm_map {β γ : Type} (f : β → γ) {l : List β} {l' : List γ}
    (h : l'.Perm (l.map f)) : ∃ l₀ : List β, l₀.Perm l ∧ l' = l₀.map f := by
  have hforall : List.Forall₂ (fun x y => x = f y) (l.map f) l :=
    List.forall₂_map_left_iff.2 (List.forall₂_same.2 fun _ _ => rfl)
  obtain ⟨l₀, hl₀, hperm⟩ := List.perm_comp_forall₂ h hforall
  refine ⟨l₀, hperm, ?_⟩
  rw [← List.forall₂_eq_eq_eq]
  exact List.forall₂_map_right_iff.2 hl₀

/-- Each vertex is assigned to an entry, and each entry gets its share rounded down or up;
an entry with a larger remainder is rounded up first. -/
theorem assignMix_quota (n : Nat) (population : List (MixEntry α)) (shuffle : Shuffle α)
    (hnonneg : ∀ m ∈ population, 0 ≤ m.fraction) (hpos : 0 < total population) :
    ∃ owners : List (Fin population.length),
      assignMix n population shuffle = some (owners.map fun i => population[i].algo) ∧
      owners.length = n ∧
      (∀ i, owners.count i = ⌊exact n (total population) population[i]⌋₊ ∨
        owners.count i = ⌈exact n (total population) population[i]⌉₊) ∧
      ∀ i j, Int.fract (exact n (total population) population[j]) <
          Int.fract (exact n (total population) population[i]) →
        ⌊exact n (total population) population[j]⌋₊ < owners.count j →
        ⌊exact n (total population) population[i]⌋₊ < owners.count i := by
  obtain ⟨-, hr⟩ := remainder_le (n := n) hnonneg hpos
  obtain ⟨-, -, hin, hfirst⟩ := roundedUp_spec n (total population) population _ hr
  obtain ⟨counts, hassign, hlen, hsum, hget⟩ := assignMix_counts (n := n) hnonneg hpos shuffle
  set top := roundedUp n (total population) population
    (n - (population.map fun m => ⌊exact n (total population) m⌋₊).sum)
  have hshuffled := shuffle.perm
    ((population.zip counts).flatMap fun x => List.replicate x.2 x.1.algo)
  rw [blocks_eq hlen] at hshuffled hassign
  obtain ⟨owners, hperm, howners⟩ := exists_perm_map _ hshuffled
  have hcount : ∀ i : Fin population.length, owners.count i =
      ⌊exact n (total population) population[i]⌋₊ + if i.1 ∈ top.map Prod.fst then 1 else 0 := by
    intro i
    rw [hperm.count_eq, count_blocks]
    exact hget i i.isLt
  refine ⟨owners, by rw [hassign, howners], ?_, fun i => ?_, fun i j hlt hup => ?_⟩
  · rw [hperm.length_eq, length_blocks hlen, hsum]
  · rw [hcount]
    split
    · next hi =>
      obtain ⟨i, hilt⟩ := i
      obtain ⟨x, hx, rfl⟩ := List.mem_map.1 hi
      obtain ⟨_, hfract⟩ := hin x hx
      have hq := div_nonneg (hnonneg _ (List.getElem_mem hilt)) (le_of_lt hpos)
      exact .inr (ceil_of_fract_pos (mul_nonneg hq (Nat.cast_nonneg n)) hfract).symm
    · exact .inl rfl
  · rw [hcount] at hup ⊢
    have hj : j.1 ∈ top.map Prod.fst := by
      by_contra hj
      simp [hj] at hup
    by_contra hi
    have hi' : i.1 ∉ top.map Prod.fst := fun h => hi (by simp [h])
    obtain ⟨j, hjlt⟩ := j
    obtain ⟨x, hx, rfl⟩ := List.mem_map.1 hj
    obtain ⟨_, hle⟩ := hfirst x hx i i.isLt hi'
    exact absurd hlt (not_lt.2 hle)

end quota

/-- Two entries for one vertex, whose order no shuffle changes. -/
def twoKinds : List (MixEntry Bool) := [⟨true, 2 / 3⟩, ⟨false, 1 / 3⟩]

example : assignMix 1 twoKinds ⟨id, fun _ => .refl _⟩ = some [true] := by decide +kernel

theorem assignMix_quota_sample : ∃ owners : List (Fin 2),
    assignMix 1 twoKinds ⟨id, fun _ => .refl _⟩ = some (owners.map fun i => twoKinds[i].algo) ∧
    owners.length = 1 := by
  obtain ⟨owners, hassign, hlen, -⟩ := assignMix_quota 1 twoKinds ⟨id, fun _ => .refl _⟩
    (by decide +kernel) (by decide +kernel)
  exact ⟨owners, hassign, hlen⟩

end Mix

end LnConv
