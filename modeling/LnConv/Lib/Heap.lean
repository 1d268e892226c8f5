import Mathlib.Logic.Equiv.Basic
import Mathlib.Order.Lattice.Nat

/-!
# Binary heaps

The heap algorithms over a container that compares and swaps the elements of two places. The
children of place `i` are `2 * i + 1` and `2 * i + 2`. `Ordered` is the heap order, and `Around`
is what is left of it when the element of one place has changed: from there `up`, `down` and
`fix` restore it.
-/

namespace LnConv.Heap

/-! ## The algorithms -/

/-- What a container offers. `push` appends, `pop` removes the last element; `none` is a panic. -/
structure Interface (H X : Type*) where
  len : H → Nat
  less : H → Nat → Nat → Bool
  swap : H → Nat → Nat → H
  push : H → X → H
  pop : H → Option (X × H)

namespace Interface

variable {H X : Type*} (I : Interface H X)

def up (h : H) (j : Nat) : H :=
  let i := (j - 1) / 2
  if i = j then h
  else if I.less h j i then up (I.swap h i j) i
  else h
termination_by j
decreasing_by omega

/-- The child that is swapped up, if any is: the right one only if it is the lesser. -/
def child (h : H) (i n : Nat) : Nat :=
  let j1 := 2 * i + 1
  let j2 := j1 + 1
  if j2 < n && I.less h j2 j1 then j2 else j1

/-- The loop of `down`, with the place that it ends at. -/
def downLoop (h : H) (i n : Nat) : H × Nat :=
  if 2 * i + 1 < n then
    let j := I.child h i n
    if I.less h j i then downLoop (I.swap h i j) j n else (h, i)
  else (h, i)
termination_by n - i
decreasing_by
  unfold child
  dsimp only
  split <;> omega

/-- Whether the element has moved comes second. -/
def down (h : H) (i0 n : Nat) : H × Bool :=
  let (h, i) := I.downLoop h i0 n
  (h, decide (i0 < i))

def heapPush (h : H) (x : X) : H :=
  let h := I.push h x
  I.up h (I.len h - 1)

/-- The swap of an empty container panics. -/
def heapPop (h : H) : Option (X × H) :=
  if I.len h = 0 then none
  else
    let n := I.len h - 1
    let h := I.swap h 0 n
    I.pop (I.down h 0 n).1

def fix (h : H) (i : Nat) : H :=
  let (h', moved) := I.down h i (I.len h)
  if moved then h' else I.up h' i

end Interface

/-! ## The heap order -/

section Order

variable {K : Type*} [LinearOrder K] {f : Nat → K} {n i j : Nat}

def parent (c : Nat) : Nat := (c - 1) / 2

theorem parent_lt {c : Nat} (h : 0 < c) : parent c < c := by
  unfold parent
  omega

theorem eq_of_parent_eq {c : Nat} (h : 0 < c) (hp : parent c = i) :
    c = 2 * i + 1 ∨ c = 2 * i + 2 := by
  unfold parent at hp
  omega

/-- No element of the first `n` is less than its parent. -/
def Ordered (f : Nat → K) (n : Nat) : Prop := ∀ c, 0 < c → c < n → f (parent c) ≤ f c

theorem Ordered.root_le (h : Ordered f n) {c : Nat} (hc : c < n) : f 0 ≤ f c := by
  induction c using Nat.strongRecOn with
  | _ c ih =>
    rcases Nat.eq_zero_or_pos c with rfl | hpos
    · exact le_rfl
    · have hlt := parent_lt hpos
      exact (ih _ hlt (hlt.trans hc)).trans (h c hpos hc)

/-- In order but for place `i`; and what is below `i` is in order with what is above it. -/
structure Around (f : Nat → K) (n i : Nat) : Prop where
  away : ∀ c, 0 < c → c < n → c ≠ i → parent c ≠ i → f (parent c) ≤ f c
  across : 0 < i → ∀ c, 0 < c → c < n → parent c = i → f (parent i) ≤ f c

def Below (f : Nat → K) (n i : Nat) : Prop := ∀ c, 0 < c → c < n → parent c = i → f i ≤ f c

def Above (f : Nat → K) (i : Nat) : Prop := 0 < i → f (parent i) ≤ f i

theorem Around.ordered (h : Around f n i) (hb : Below f n i) (ha : Above f i) : Ordered f n := by
  intro c hpos hc
  by_cases hi : c = i
  · subst hi
    exact ha hpos
  · by_cases hp : parent c = i
    · rw [hp]
      exact hb c hpos hc hp
    · exact h.away c hpos hc hi hp

/-- Another element in place `i`. -/
theorem Ordered.around {g : Nat → K} (h : Ordered f n) (hg : ∀ c < n, c ≠ i → g c = f c) :
    Around g n i := by
  constructor
  · intro c hpos hc hi hp
    rw [hg c hc hi, hg _ ((parent_lt hpos).trans hc) hp]
    exact h c hpos hc
  · intro hipos c hpos hc hp
    have hci : i < c := hp ▸ parent_lt hpos
    have hpi := parent_lt hipos
    rw [hg c hc hci.ne', hg _ (hpi.trans (hci.trans hc)) hpi.ne]
    exact (h i hipos (hci.trans hc)).trans (hp ▸ h c hpos hc)

/-- An element less than its parent is swapped with it. -/
theorem Around.up (h : Around f n i) (hpos : 0 < i) (hi : i < n)
    (hlt : f i < f (parent i)) :
    Around (fun c => f (Equiv.swap (parent i) i c)) n (parent i) ∧
      Below (fun c => f (Equiv.swap (parent i) i c)) n (parent i) := by
  have hpi := parent_lt hpos
  -- the old parent is in order with what was above it
  have habove : 0 < parent i → f (parent (parent i)) ≤ f (parent i) := fun hp =>
    h.away _ hp (hpi.trans hi) hpi.ne ((parent_lt hp).trans hpi).ne
  have hother : ∀ c, c ≠ parent i → c ≠ i → Equiv.swap (parent i) i c = c := fun _ =>
    Equiv.swap_apply_of_ne_of_ne
  refine ⟨⟨fun c hc hcn hcp hpp => ?_, fun hp c hc hcn hcp => ?_⟩, fun c hc hcn hcp => ?_⟩
  · have hci : c ≠ i := fun he => hpp (congrArg parent he)
    rw [hother c hcp hci]
    by_cases hpc : parent c = i
    · rw [hpc, Equiv.swap_apply_right]
      exact h.across hpos c hc hcn hpc
    · rw [hother _ hpp hpc]
      exact h.away c hc hcn hci hpc
  · have hgrand := parent_lt hp
    rw [hother _ hgrand.ne (hgrand.trans hpi).ne]
    by_cases hci : c = i
    · rw [hci, Equiv.swap_apply_right]
      exact habove hp
    · rw [hother c (hcp ▸ (parent_lt hc).ne') hci]
      exact (habove hp).trans (hcp ▸ h.away c hc hcn hci (by omega))
  · dsimp only
    rw [Equiv.swap_apply_left]
    by_cases hci : c = i
    · rw [hci, Equiv.swap_apply_right]
      exact hlt.le
    · rw [hother c (hcp ▸ (parent_lt hc).ne') hci]
      exact hlt.le.trans (hcp ▸ h.away c hc hcn hci (by omega))

/-- An element greater than its least child is swapped with it. -/
theorem Around.down (h : Around f n i) (hpos : 0 < j) (hj : j < n) (hp : parent j = i)
    (hlt : f j < f i) (hmin : ∀ c, 0 < c → c < n → parent c = i → f j ≤ f c) :
    Around (fun c => f (Equiv.swap i j c)) n j ∧ Above (fun c => f (Equiv.swap i j c)) j := by
  have hij : i < j := hp ▸ parent_lt hpos
  have hother : ∀ c, c ≠ i → c ≠ j → Equiv.swap i j c = c := fun _ =>
    Equiv.swap_apply_of_ne_of_ne
  refine ⟨⟨fun c hc hcn hcj hpj => ?_, fun _ c hc hcn hpj => ?_⟩, fun _ => ?_⟩
  · by_cases hci : c = i
    · subst hci
      rw [Equiv.swap_apply_left, hother _ (parent_lt hc).ne ((parent_lt hc).trans hij).ne]
      exact h.across hc j hpos hj hp
    · rw [hother c hci hcj]
      by_cases hpi : parent c = i
      · rw [hpi, Equiv.swap_apply_left]
        exact hmin c hc hcn hpi
      · rw [hother _ hpi hpj]
        exact h.away c hc hcn hci hpi
  · have hjc : j < c := hpj ▸ parent_lt hc
    rw [hp, Equiv.swap_apply_left, hother c (hij.trans hjc).ne' hjc.ne']
    exact hpj ▸ h.away c hc hcn (hij.trans hjc).ne' (hpj ▸ hij.ne')
  · dsimp only
    rw [hp, Equiv.swap_apply_left, Equiv.swap_apply_right]
    exact hlt.le

theorem swap_lt {c : Nat} (hi : i < n) (hj : j < n) (hc : c < n) : Equiv.swap i j c < n := by
  rw [Equiv.swap_apply_def]
  split
  · exact hj
  · split
    · exact hi
    · exact hc

end Order

/-! ## The algorithms keep the order -/

/-- The keys of the elements, by their places. -/
structure Lawful {H X K : Type*} [LinearOrder K] (I : Interface H X) (key : H → Nat → K)
    (keyOf : X → K) : Prop where
  less : ∀ h i j, i < I.len h → j < I.len h → (I.less h i j = true ↔ key h i < key h j)
  len_swap : ∀ h i j, I.len (I.swap h i j) = I.len h
  key_swap : ∀ h i j, i < I.len h → j < I.len h → ∀ c,
    key (I.swap h i j) c = key h (Equiv.swap i j c)
  len_push : ∀ h x, I.len (I.push h x) = I.len h + 1
  key_push : ∀ h x, ∀ c < I.len h, key (I.push h x) c = key h c
  pop : ∀ h, 0 < I.len h → ∃ x h', I.pop h = some (x, h') ∧ I.len h' + 1 = I.len h ∧
    keyOf x = key h (I.len h') ∧ ∀ c < I.len h', key h' c = key h c

namespace Interface

variable {H X K : Type*} [LinearOrder K] {I : Interface H X} {key : H → Nat → K} {keyOf : X → K}
  {h : H} {i j n : Nat} {P : H → Prop}

omit [LinearOrder K] in
theorem up_invariant (hP : ∀ h i j, P h → i < n → j < n → P (I.swap h i j)) (hp : P h)
    (hj : j < n) : P (I.up h j) := by
  induction h, j using Interface.up.induct (I := I) with
  | case1 h j i hij =>
    rw [up, if_pos hij]
    exact hp
  | case2 h j i hij hless ih =>
    have hi : i < n := by omega
    rw [up, if_neg hij, if_pos hless]
    exact ih (hP h i j hp hi hj) hi
  | case3 h j i hij hless =>
    rw [up, if_neg hij, if_neg hless]
    exact hp

theorem child_lt (hn : 2 * i + 1 < n) : I.child h i n < n := by
  unfold child
  dsimp only
  split
  · next hc => exact of_decide_eq_true ((Bool.and_eq_true _ _).mp hc).1
  · exact hn

theorem parent_child : 0 < I.child h i n ∧ parent (I.child h i n) = i := by
  unfold child parent
  dsimp only
  split <;> omega

theorem downLoop_invariant (hP : ∀ h i j, P h → i < n → j < n → P (I.swap h i j)) (hp : P h) :
    P (I.downLoop h i n).1 := by
  induction h, i using Interface.downLoop.induct (I := I) (n := n) with
  | case1 h i hn j hless ih =>
    rw [downLoop, if_pos hn, if_pos hless]
    exact ih (hP h i j hp (by omega) (child_lt hn))
  | case2 h i hn j hless =>
    rw [downLoop, if_pos hn, if_neg hless]
    exact hp
  | case3 h i hn =>
    rw [downLoop, if_neg hn]
    exact hp

end Interface

namespace Lawful

variable {H X K : Type*} [LinearOrder K] {I : Interface H X} {key : H → Nat → K} {keyOf : X → K}
  {h h' : H} {x : X} {i j n : Nat}

theorem key_swap_eq (hI : Lawful I key keyOf) (hi : i < I.len h) (hj : j < I.len h) :
    key (I.swap h i j) = fun c => key h (Equiv.swap i j c) :=
  funext (hI.key_swap h i j hi hj)

theorem up_ordered (hI : Lawful I key keyOf) (hn : n ≤ I.len h) (hj : j < n)
    (ha : Around (key h) n j) (hb : Below (key h) n j) : Ordered (key (I.up h j)) n := by
  induction h, j using Interface.up.induct (I := I) with
  | case1 h j i hij =>
    rw [Interface.up, if_pos hij]
    exact ha.ordered hb fun hpos => absurd hij (parent_lt hpos).ne
  | case2 h j i hij hless ih =>
    have hpos : 0 < j := by omega
    have hi : i < n := (parent_lt hpos).trans hj
    have hlt := (hI.less h j i (hj.trans_le hn) (hi.trans_le hn)).1 hless
    obtain ⟨ha', hb'⟩ := ha.up hpos hj hlt
    rw [Interface.up, if_neg hij, if_pos hless]
    refine ih ?_ hi ?_ ?_
    · rwa [hI.len_swap]
    · rwa [hI.key_swap_eq (hi.trans_le hn) (hj.trans_le hn)]
    · rwa [hI.key_swap_eq (hi.trans_le hn) (hj.trans_le hn)]
  | case3 h j i hij hless =>
    rw [Interface.up, if_neg hij, if_neg hless]
    refine ha.ordered hb fun hpos => not_lt.1 fun hlt => hless ?_
    exact (hI.less h j i (hj.trans_le hn) (((parent_lt hpos).trans hj).trans_le hn)).2 hlt

/-- No child is less than the one chosen. -/
theorem child_le (hI : Lawful I key keyOf) (hn : n ≤ I.len h) {c : Nat} (hpos : 0 < c)
    (hc : c < n) (hp : parent c = i) : key h (I.child h i n) ≤ key h c := by
  have hkids := eq_of_parent_eq hpos hp
  unfold Interface.child
  dsimp only
  split
  · next hright =>
    obtain ⟨hj, hless⟩ := (Bool.and_eq_true _ _).mp hright
    have hj : 2 * i + 1 + 1 < n := of_decide_eq_true hj
    have hlt := (hI.less h _ _ (hj.trans_le hn) (by omega)).1 hless
    rcases hkids with rfl | rfl
    · exact hlt.le
    · exact le_rfl
  · next hright =>
    rcases hkids with rfl | rfl
    · exact le_rfl
    · refine not_lt.1 fun hlt => hright ((Bool.and_eq_true _ _).mpr ⟨decide_eq_true hc, ?_⟩)
      exact (hI.less h _ _ (hc.trans_le hn) (by omega)).2 hlt

/-- Either no child is less, or the element moves down and leaves the order behind it. -/
theorem downLoop_ordered (hI : Lawful I key keyOf) (hn : n ≤ I.len h)
    (ha : Around (key h) n i) :
    (I.downLoop h i n = (h, i) ∧ Below (key h) n i) ∨
      (i < (I.downLoop h i n).2 ∧ Ordered (key (I.downLoop h i n).1) n) := by
  induction h, i using Interface.downLoop.induct (I := I) (n := n) with
  | case1 h i hlast j hless ih =>
    have hj : j < n := Interface.child_lt hlast
    obtain ⟨hpos, hp⟩ : 0 < j ∧ parent j = i := Interface.parent_child
    have hij : i < j := hp ▸ parent_lt hpos
    have hlt := (hI.less h j i (hj.trans_le hn) ((hij.trans hj).trans_le hn)).1 hless
    obtain ⟨ha', habove⟩ := ha.down hpos hj hp hlt fun c => hI.child_le hn
    have hkey := hI.key_swap_eq ((hij.trans hj).trans_le hn) (hj.trans_le hn)
    rw [← hkey] at ha' habove
    rw [Interface.downLoop, if_pos hlast, if_pos hless]
    right
    rcases ih (by rwa [hI.len_swap]) ha' with ⟨heq, hbelow⟩ | ⟨hmoved, hord⟩
    · rw [heq]
      exact ⟨hij, ha'.ordered hbelow habove⟩
    · exact ⟨hij.trans hmoved, hord⟩
  | case2 h i hlast j hless =>
    rw [Interface.downLoop, if_pos hlast, if_neg hless]
    refine .inl ⟨rfl, fun c hpos hc hp => le_trans (not_lt.1 fun hlt => hless ?_)
      (hI.child_le hn hpos hc hp)⟩
    exact (hI.less h j i ((Interface.child_lt hlast).trans_le hn) (by omega)).2 hlt
  | case3 h i hlast =>
    rw [Interface.downLoop, if_neg hlast]
    refine .inl ⟨rfl, fun c hpos hc hp => absurd hc ?_⟩
    rcases eq_of_parent_eq hpos hp with rfl | rfl <;> omega

theorem heapPush_ordered (hI : Lawful I key keyOf) (h₀ : Ordered (key h) (I.len h)) :
    Ordered (key (I.heapPush h x)) (I.len h + 1) := by
  have hlen := hI.len_push h x
  have haround : Around (key (I.push h x)) (I.len h + 1) (I.len h) := by
    constructor
    · intro c hpos hc hne _
      have hlt : c < I.len h := by omega
      rw [hI.key_push h x c hlt, hI.key_push h x _ ((parent_lt hpos).trans hlt)]
      exact h₀ c hpos hlt
    · intro _ c hpos hc hp
      have := parent_lt hpos
      omega
  have hbelow : Below (key (I.push h x)) (I.len h + 1) (I.len h) := by
    intro c hpos hc hp
    have := parent_lt hpos
    omega
  unfold Interface.heapPush
  dsimp only
  rw [hlen, Nat.add_sub_cancel]
  exact hI.up_ordered hlen.ge (Nat.lt_succ_self _) haround hbelow

/-- What is popped comes first. -/
theorem heapPop_ordered (hI : Lawful I key keyOf) (h₀ : Ordered (key h) (I.len h))
    (hpop : I.heapPop h = some (x, h')) : Ordered (key h') (I.len h') ∧
      keyOf x = key h 0 ∧ ∀ c < I.len h', keyOf x ≤ key h' c := by
  unfold Interface.heapPop Interface.down at hpop
  dsimp only at hpop
  split at hpop
  · cases hpop
  have hpos : 0 < I.len h := by omega
  generalize hn : I.len h - 1 = n at hpop
  have hlast : n < I.len h := by omega
  have hkey := hI.key_swap h 0 n hpos hlast
  have haround : Around (key (I.swap h 0 n)) n 0 := by
    refine Ordered.around (f := key h) (fun c hc hcn => h₀ c hc (hcn.trans hlast)) ?_
    intro c hcn hc
    rw [hkey, Equiv.swap_apply_of_ne_of_ne hc hcn.ne]
  have hord : Ordered (key (I.downLoop (I.swap h 0 n) 0 n).1) n := by
    rcases hI.downLoop_ordered (by rw [hI.len_swap]; exact hlast.le) haround with
      ⟨heq, hbelow⟩ | ⟨-, hord⟩
    · rw [heq]
      exact haround.ordered hbelow fun hc => absurd hc (lt_irrefl 0)
    · exact hord
  -- the least element waits at the end
  have hkept : I.len (I.downLoop (I.swap h 0 n) 0 n).1 = I.len h ∧
      key (I.downLoop (I.swap h 0 n) 0 n).1 n = key h 0 ∧
      ∀ c < I.len h, key h 0 ≤ key (I.downLoop (I.swap h 0 n) 0 n).1 c := by
    refine Interface.downLoop_invariant (P := fun g => I.len g = I.len h ∧ key g n = key h 0 ∧
      ∀ c < I.len h, key h 0 ≤ key g c) ?_ ⟨hI.len_swap .., ?_, fun c hc => ?_⟩
    · rintro g i j ⟨hlen, hmin, hle⟩ hi hj
      have hgi : i < I.len g := hlen ▸ hi.trans hlast
      have hgj : j < I.len g := hlen ▸ hj.trans hlast
      refine ⟨(hI.len_swap ..).trans hlen, ?_, fun c hc => ?_⟩
      · rw [hI.key_swap g i j hgi hgj, Equiv.swap_apply_of_ne_of_ne hi.ne' hj.ne', hmin]
      · rw [hI.key_swap g i j hgi hgj]
        exact hle _ (swap_lt (hlen ▸ hgi) (hlen ▸ hgj) hc)
    · rw [hkey, Equiv.swap_apply_right]
    · rw [hkey]
      exact h₀.root_le (swap_lt hpos hlast hc)
  obtain ⟨hlen, hmin, hle⟩ := hkept
  obtain ⟨y, g, hg, hsize, hy, hsame⟩ := hI.pop (I.downLoop (I.swap h 0 n) 0 n).1 (by omega)
  rw [hg] at hpop
  cases hpop
  obtain rfl : I.len h' = n := by omega
  refine ⟨fun c hc hcn => ?_, hy.trans hmin, fun c hc => ?_⟩
  · rw [hsame c hcn, hsame _ ((parent_lt hc).trans hcn)]
    exact hord c hc hcn
  · rw [hsame c hc, hy, hmin]
    exact hle c (hc.trans hlast)

theorem fix_ordered (hI : Lawful I key keyOf) (hi : i < I.len h)
    (ha : Around (key h) (I.len h) i) : Ordered (key (I.fix h i)) (I.len h) := by
  unfold Interface.fix Interface.down
  dsimp only
  rcases hI.downLoop_ordered le_rfl ha with ⟨heq, hbelow⟩ | ⟨hmoved, hord⟩
  · rw [heq, if_neg (by simp)]
    exact hI.up_ordered le_rfl hi ha hbelow
  · rw [if_pos (decide_eq_true hmoved)]
    exact hord

end Lawful

end LnConv.Heap
