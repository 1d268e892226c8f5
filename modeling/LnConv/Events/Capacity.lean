import LnConv.Lib.SwapRemove
import LnConv.State
import Mathlib.Data.List.Dedup
import Mathlib.Data.List.Sort
import Mathlib.Data.Nat.Bitwise

/-!
# Rate-limit slots

One tracker for each class of events: which (entity, window) slots are taken, and which
entities still have a free one. The generator is the list of its outcomes. `none` is a
panic, except inside a result, where it is the source's `None`.
-/

namespace LnConv

/-- A generator and how much of its output is used up. -/
structure Rng where
  outcome : Nat → Nat
  used : Nat

/-- `random_range(0..k)`; an empty range is a panic. -/
def Rng.randomRange (rng : Rng) (k : Nat) : Option (Nat × Rng) :=
  if k = 0 then none else some (rng.outcome rng.used % k, { rng with used := rng.used + 1 })

theorem Rng.randomRange_eq (rng : Rng) {k : Nat} (hk : 0 < k) :
    ∃ i < k, ∃ rng', rng.randomRange k = some (i, rng') :=
  ⟨_, Nat.mod_lt _ hk, _, if_neg (Nat.ne_of_gt hk)⟩

/-! ## The windows of an entity -/

structure WindowBits where
  words : List Nat
  numWindows : Nat
  count : Nat

namespace WindowBits

def new (numWindows : Nat) : WindowBits :=
  { words := List.replicate (max ((numWindows + 63) / 64) 1) 0, numWindows := numWindows, count := 0 }

def get (b : WindowBits) (i : Nat) : Option Bool :=
  (b.words[i / 64]?).map fun w => w &&& (1 <<< (i % 64)) != 0

def set (b : WindowBits) (i : Nat) : Option WindowBits :=
  (b.words[i / 64]?).map fun w =>
    let mask := 1 <<< (i % 64)
    if w &&& mask = 0 then
      { b with words := b.words.set (i / 64) (w ||| mask), count := b.count + 1 }
    else b

def isFull (b : WindowBits) : Bool := b.count ≥ b.numWindows

/-- The loop of `random_free`. -/
def freeWindows (b : WindowBits) : Option (List Nat) :=
  (List.range b.numWindows).foldlM
    (fun free i => (b.get i).map fun taken => if taken then free else free ++ [i]) []

def randomFree (b : WindowBits) (rng : Rng) : Option (Option Nat × Rng) :=
  if b.isFull then some (none, rng)
  else do
    let free ← b.freeWindows
    let (idx, rng) ← rng.randomRange free.length
    let window ← free[idx]?
    some (some window, rng)

/-- The bit of a window, in whatever word. -/
def bit (b : WindowBits) (i : Nat) : Bool := (b.words[i / 64]?).any fun w => w.testBit (i % 64)

/-- `count` counts the bits set, all of them bits of windows. -/
structure WellFormed (b : WindowBits) (numWindows : Nat) : Prop where
  width : b.numWindows = numWindows
  room : numWindows ≤ 64 * b.words.length
  count : b.count = (List.range numWindows).countP b.bit
  inside : ∀ i, b.bit i → i < numWindows

theorem and_shiftLeft_ne_zero (w i : Nat) : (w &&& (1 <<< i) != 0) = w.testBit i := by
  rw [Nat.one_shiftLeft, Nat.and_two_pow]
  cases w.testBit i <;> simp

@[simp] theorem bit_new (numWindows i : Nat) : (new numWindows).bit i = false := by
  simp only [bit, new, List.getElem?_replicate]
  split <;> simp

theorem wellFormed_new (numWindows : Nat) : (new numWindows).WellFormed numWindows where
  width := rfl
  room := by simp only [new, List.length_replicate]; omega
  count := (List.countP_eq_zero.2 fun i _ => by simp).symm
  inside i h := by simp at h

variable {b : WindowBits} {numWindows i : Nat}

theorem WellFormed.isFull_iff (h : b.WellFormed numWindows) :
    b.isFull = true ↔ ∀ i < numWindows, b.bit i := by
  rw [isFull, decide_eq_true_eq, h.width, h.count, ge_iff_le]
  have hle : (List.range numWindows).countP b.bit ≤ numWindows := by
    simpa using List.countP_le_length (p := b.bit) (l := List.range numWindows)
  have hall := List.countP_eq_length (p := b.bit) (l := List.range numWindows)
  rw [List.length_range] at hall
  constructor
  · intro hge i hi
    exact hall.1 (Nat.le_antisymm hle hge) i (List.mem_range.2 hi)
  · intro hb
    exact Nat.le_of_eq (hall.2 fun i hi => hb i (List.mem_range.1 hi)).symm

theorem WellFormed.get_eq (h : b.WellFormed numWindows) (hi : i < numWindows) :
    b.get i = some (b.bit i) := by
  have hlt : i / 64 < b.words.length := by have := h.room; omega
  simp only [get, bit, List.getElem?_eq_getElem hlt, Option.map_some, and_shiftLeft_ne_zero,
    Option.any_some]

/-- Taking a free window. -/
theorem WellFormed.set_eq (h : b.WellFormed numWindows) (hi : i < numWindows)
    (hfree : b.bit i = false) : ∃ b', b.set i = some b' ∧ b'.WellFormed numWindows ∧
      b'.count = b.count + 1 ∧ ∀ j, b'.bit j = (decide (j = i) || b.bit j) := by
  have hlt : i / 64 < b.words.length := by have := h.room; omega
  have hbit : b.words[i / 64].testBit (i % 64) = false := by
    simpa [bit, List.getElem?_eq_getElem hlt] using hfree
  have hzero : b.words[i / 64] &&& (1 <<< (i % 64)) = 0 := by
    have := and_shiftLeft_ne_zero b.words[i / 64] (i % 64)
    rw [hbit] at this
    simpa using this
  set b' : WindowBits := { b with
    words := b.words.set (i / 64) (b.words[i / 64] ||| (1 <<< (i % 64))), count := b.count + 1 }
    with hb'
  have hbits : ∀ j, b'.bit j = (decide (j = i) || b.bit j) := by
    intro j
    simp only [bit, hb']
    by_cases hw : j / 64 = i / 64
    · rw [hw, List.getElem?_set_self hlt, List.getElem?_eq_getElem hlt, Option.any_some,
        Option.any_some, Nat.testBit_or, Nat.one_shiftLeft, Nat.testBit_two_pow, Bool.or_comm]
      congr 1
      exact decide_eq_decide.2 (by omega)
    · have hne : j ≠ i := by rintro rfl; exact hw rfl
      rw [List.getElem?_set_ne (Ne.symm hw)]
      simp [hne]
  refine ⟨b', ?_, ⟨h.width, by simpa [hb'] using h.room, ?_, fun j hj => ?_⟩, rfl, hbits⟩
  · simp [set, List.getElem?_eq_getElem hlt, hzero, hb']
  · show b.count + 1 = _
    rw [h.count]
    have hsplit : ∀ m, i < m → (List.range m).countP b'.bit = (List.range m).countP b.bit + 1 := by
      intro m hm
      induction m with
      | zero => omega
      | succ m ih =>
        rw [List.range_succ, List.countP_append, List.countP_append, List.countP_singleton,
          List.countP_singleton, hbits m]
        rcases Nat.lt_or_ge i m with him | him
        · rw [ih him]
          have : m ≠ i := by omega
          simp [this]
          omega
        · have hmi : m = i := by omega
          subst hmi
          have hsame : (List.range m).countP b'.bit = (List.range m).countP b.bit :=
            List.countP_congr fun j hj => by
              have : j ≠ m := Nat.ne_of_lt (List.mem_range.1 hj)
              rw [hbits]
              simp [this]
          simp [hsame, hfree]
    rw [hsplit numWindows hi]
  · rw [hbits] at hj
    rcases Bool.or_eq_true_iff.1 hj with hj | hj
    · rw [of_decide_eq_true hj]; exact hi
    · exact h.inside j hj

theorem WellFormed.freeWindows_eq (h : b.WellFormed numWindows) :
    b.freeWindows = some ((List.range numWindows).filter fun i => !b.bit i) := by
  have hfold : ∀ (is free : List Nat), (∀ i ∈ is, i < numWindows) →
      is.foldlM (fun free i => (b.get i).map fun taken => if taken then free else free ++ [i]) free =
        some (free ++ is.filter fun i => !b.bit i) := by
    intro is
    induction is with
    | nil => intro free _; simp
    | cons i is ih =>
      intro free his
      rw [List.foldlM_cons, h.get_eq (his i (List.mem_cons_self ..))]
      simp only [Option.map_some, Option.bind_eq_bind, Option.bind_some]
      rw [ih _ fun j hj => his j (List.mem_cons_of_mem _ hj)]
      cases hb : b.bit i <;> simp [hb]
  rw [freeWindows, h.width, hfold _ _ fun i hi => List.mem_range.1 hi, List.nil_append]

theorem WellFormed.randomFree_eq (h : b.WellFormed numWindows) (hfull : b.isFull = false)
    (rng : Rng) : ∃ window rng', b.randomFree rng = some (some window, rng') ∧
      window < numWindows ∧ b.bit window = false := by
  set free := (List.range numWindows).filter fun i => !b.bit i with hfree
  have hmem : ∀ i, i ∈ free ↔ i < numWindows ∧ b.bit i = false := by simp [hfree]
  have hpos : 0 < free.length := by
    rw [List.length_pos_iff_exists_mem]
    by_contra hno
    rw [Bool.eq_false_iff] at hfull
    refine hfull (h.isFull_iff.2 fun i hi => ?_)
    by_contra hb
    exact hno ⟨i, (hmem i).2 ⟨hi, by simpa using hb⟩⟩
  obtain ⟨idx, hidx, rng', hr⟩ := Rng.randomRange_eq rng hpos
  have hw := (hmem _).1 (List.getElem_mem hidx)
  refine ⟨free[idx], rng', ?_, hw⟩
  simp [randomFree, hfull, h.freeWindows_eq, ← hfree, hr, List.getElem?_eq_getElem hidx]

end WindowBits

/-! ## The slots of a class -/

structure Capacity where
  used : IntMap WindowBits
  hasFree : List Nat
  hasFreePos : IntMap Nat
  numWindows : Nat

namespace Capacity

def new (entities : List Nat) (numWindows : Nat) : Capacity :=
  let entities := (entities.insertionSort (· ≤ ·)).dedup
  { used := entities.foldl (fun m e => m.insert e (.new numWindows)) ∅
    hasFree := if numWindows = 0 then [] else entities
    hasFreePos := if numWindows = 0 then ∅
      else entities.zipIdx.foldl (fun m x => m.insert x.1 x.2) ∅
    numWindows := numWindows }

/-- Takes a saturated entity out of `hasFree`. -/
def evict (c : Capacity) (entity : Nat) : Option Capacity :=
  match c.hasFreePos.lookup entity with
  | none => some c
  | some pos => do
    let hasFree ← swapRemove c.hasFree pos
    let hasFreePos := c.hasFreePos.erase entity
    some { c with
      hasFree := hasFree
      hasFreePos := match hasFree[pos]? with
        | some swappedIn => hasFreePos.insert swappedIn pos
        | none => hasFreePos }

/-- The window for an event: the preferred one, or a free one. -/
def chooseWindow (bits : WindowBits) (pref : Nat) (rng : Rng) :
    Option (Option (Nat × Bool) × Rng) := do
  let taken ← bits.get pref
  if taken then (bits.randomFree rng).map fun r => (r.1.map fun window => (window, true), r.2)
  else some (some (pref, false), rng)

def tryPlace (c : Capacity) (entity preferred : Nat) (rng : Rng) :
    Option (Option (Nat × Bool) × Capacity × Rng) :=
  match c.used.lookup entity with
  | none => some (none, c, rng)
  | some bits =>
    if bits.isFull then some (none, c, rng)
    else do
      let (choice, rng) ← chooseWindow bits (min preferred (c.numWindows - 1)) rng
      match choice with
      | none => some (none, c, rng)
      | some (window, deferred) => do
        let bits ← bits.set window
        let c := { c with used := c.used.insert entity bits }
        let c ← if bits.isFull then c.evict entity else some c
        some (some (window, deferred), c, rng)

def randomEntity (c : Capacity) (rng : Rng) : Option (Option Nat × Rng) :=
  if c.hasFree.isEmpty then some (none, rng)
  else do
    let (idx, rng) ← rng.randomRange c.hasFree.length
    let entity ← c.hasFree[idx]?
    some (some entity, rng)

/-- Whether the slot of an entity and a window is taken. -/
def taken (c : Capacity) (entity window : Nat) : Bool :=
  (c.used.lookup entity).any fun bits => bits.bit window

/-- `hasFree` lists the entities that are not full, and `hasFreePos` inverts it. -/
structure WellFormed (c : Capacity) (entities : List Nat) (numWindows : Nat) : Prop where
  width : c.numWindows = numWindows
  known : ∀ e, (c.used.lookup e).isSome ↔ e ∈ entities
  bits : ∀ e b, c.used.lookup e = some b → b.WellFormed numWindows
  mem_hasFree : ∀ e, e ∈ c.hasFree ↔ ∃ b, c.used.lookup e = some b ∧ b.isFull = false
  indexed : Indexed c.hasFree fun e => c.hasFreePos.lookup e

theorem lookup_foldl_insert {V : Type} (v : V) (es : List Nat) (m : IntMap V) (e : Nat) :
    (es.foldl (fun m e => m.insert e v) m).lookup e = if e ∈ es then some v else m.lookup e := by
  induction es generalizing m with
  | nil => simp
  | cons x es ih =>
    rw [List.foldl_cons, ih]
    by_cases hx : e = x
    · subst hx; simp
    · simp [hx]

theorem lookup_foldl_zipIdx {es : List Nat} (hes : es.Nodup) (k : Nat) (m : IntMap Nat)
    (hm : ∀ e ∈ es, m.lookup e = none) (e i : Nat) :
    ((es.zipIdx k).foldl (fun m x => m.insert x.1 x.2) m).lookup e = some i ↔
      (k ≤ i ∧ es[i - k]? = some e) ∨ m.lookup e = some i := by
  induction es generalizing k m with
  | nil => simp
  | cons x es ih =>
    obtain ⟨hx, hes⟩ := List.nodup_cons.1 hes
    rw [List.zipIdx_cons, List.foldl_cons, ih hes]
    · by_cases hex : e = x
      · subst hex
        have hnot : ∀ j : Nat, es[j]? ≠ some e := fun j hj => hx (List.mem_of_getElem? hj)
        simp only [AList.lookup_insert, Option.some.injEq, hnot, and_false, false_or,
          hm e (List.mem_cons_self ..), reduceCtorEq, or_false]
        constructor
        · rintro rfl; simp
        · rintro ⟨hk, hi⟩
          rcases Nat.eq_or_lt_of_le hk with h | h
          · exact h
          · obtain ⟨j, hj⟩ := Nat.exists_eq_add_of_lt h
            have : i - k = j + 1 := by omega
            rw [this, List.getElem?_cons_succ] at hi
            exact absurd hi (hnot j)
      · rw [AList.lookup_insert_ne hex]
        refine or_congr_left ⟨fun ⟨hk, hi⟩ => ⟨by omega, ?_⟩, fun ⟨hk, hi⟩ => ?_⟩
        · rwa [show i - k = (i - (k + 1)) + 1 by omega, List.getElem?_cons_succ]
        · have hik : i ≠ k := by
            rintro rfl
            simp only [Nat.sub_self, List.getElem?_cons_zero, Option.some.injEq] at hi
            exact hex hi.symm
          refine ⟨by omega, ?_⟩
          rwa [show i - k = (i - (k + 1)) + 1 by omega, List.getElem?_cons_succ] at hi
    · intro e he
      have : e ≠ x := by rintro rfl; exact hx he
      rw [AList.lookup_insert_ne this]
      exact hm e (List.mem_cons_of_mem _ he)

theorem wellFormed_new (entities : List Nat) (numWindows : Nat) :
    (new entities numWindows).WellFormed entities numWindows := by
  have hmem : ∀ e, e ∈ (entities.insertionSort (· ≤ ·)).dedup ↔ e ∈ entities := by simp
  have hnd : (entities.insertionSort (· ≤ ·)).dedup.Nodup := List.nodup_dedup _
  have hused : ∀ e, (new entities numWindows).used.lookup e =
      if e ∈ entities then some (.new numWindows) else none := fun e => by
    simp only [new, lookup_foldl_insert, hmem, AList.lookup_empty]
  refine ⟨rfl, fun e => ?_, fun e b hb => ?_, fun e => ?_, fun e i => ?_⟩
  · rw [hused]; split <;> simp_all
  · rw [hused] at hb
    split at hb
    · cases hb; exact WindowBits.wellFormed_new numWindows
    · cases hb
  · have hfull : (WindowBits.new numWindows).isFull = decide (numWindows = 0) := by
      simp [WindowBits.isFull, WindowBits.new]
    rw [hused]
    by_cases h0 : numWindows = 0
    · simp [new, h0, WindowBits.isFull, WindowBits.new]
    · simp only [new, h0, if_false, hmem]
      by_cases he : e ∈ entities <;> simp [he, hfull, h0]
  · by_cases h0 : numWindows = 0
    · simp [new, h0]
    · simp only [new, h0, if_false]
      rw [lookup_foldl_zipIdx hnd 0 ∅ (by simp)]
      simp

/-- `c'` is `c` with one slot more taken, a slot of `entities` that was free. -/
structure Takes (entities : List Nat) (numWindows : Nat) (c : Capacity) (entity window : Nat)
    (c' : Capacity) : Prop where
  wellFormed : c'.WellFormed entities numWindows
  mem : entity ∈ entities
  lt : window < numWindows
  free : c.taken entity window = false
  taken : ∀ e w, c'.taken e w = (decide (e = entity ∧ w = window) || c.taken e w)

variable {c : Capacity} {entities : List Nat} {numWindows e : Nat}

/-- Taking a listed entity out of `hasFree`. -/
theorem evict_eq (h : Indexed c.hasFree fun e => c.hasFreePos.lookup e) (he : e ∈ c.hasFree) :
    ∃ hasFree hasFreePos,
      c.evict e = some { c with hasFree := hasFree, hasFreePos := hasFreePos } ∧
      (∀ y, y ∈ hasFree ↔ y ∈ c.hasFree ∧ y ≠ e) ∧
      Indexed hasFree fun y => hasFreePos.lookup y := by
  obtain ⟨pos, hpos⟩ := Option.isSome_iff_exists.1 (h.mem_iff.1 he)
  obtain ⟨hasFree, hremove, hmem, hidx⟩ := h.swapRemove hpos
  simp only [evict, hpos, hremove, Option.bind_eq_bind, Option.bind_some]
  refine ⟨hasFree, _, rfl, hmem, fun y i => ?_⟩
  rw [← hidx y i]
  cases hin : hasFree[pos]? with
  | none =>
    by_cases hy : y = e
    · subst hy; simp
    · simp [hy, AList.lookup_erase_ne hy]
  | some swappedIn =>
    have hne : swappedIn ≠ e := ((hmem _).1 (List.mem_of_getElem? hin)).2
    by_cases hy : y = swappedIn
    · subst hy; simp [hne]
    · by_cases hye : y = e
      · subst hye; simp [AList.lookup_insert_ne hy]
      · simp [hye, AList.lookup_insert_ne hy, AList.lookup_erase_ne hye, Ne.symm hy]

theorem chooseWindow_eq {bits : WindowBits} (h : bits.WellFormed numWindows)
    (hfull : bits.isFull = false) {pref : Nat} (hpref : pref < numWindows) (rng : Rng) :
    ∃ window deferred rng', chooseWindow bits pref rng = some (some (window, deferred), rng') ∧
      window < numWindows ∧ bits.bit window = false := by
  rw [chooseWindow, h.get_eq hpref]
  cases hbit : bits.bit pref with
  | false => exact ⟨pref, false, rng, rfl, hpref, hbit⟩
  | true =>
    obtain ⟨window, rng', hr, hlt, hfree⟩ := h.randomFree_eq hfull rng
    refine ⟨window, true, rng', ?_, hlt, hfree⟩
    simp [hr]

namespace WellFormed

theorem mem_of_mem_hasFree (h : c.WellFormed entities numWindows) (he : e ∈ c.hasFree) :
    e ∈ entities := by
  obtain ⟨b, hb, -⟩ := (h.mem_hasFree e).1 he
  exact (h.known e).1 (by simp [hb])

theorem not_mem_hasFree (h : c.WellFormed entities numWindows) (he : e ∉ c.hasFree) {b : WindowBits}
    (hb : c.used.lookup e = some b) : b.isFull = true := by
  rw [h.mem_hasFree] at he
  by_contra hfull
  exact he ⟨b, hb, by simpa using hfull⟩

/-- An entity that is not listed takes nothing, and nothing is drawn for it. -/
theorem tryPlace_none (h : c.WellFormed entities numWindows) (he : e ∉ c.hasFree)
    (preferred : Nat) (rng : Rng) : c.tryPlace e preferred rng = some (none, c, rng) := by
  cases hb : c.used.lookup e with
  | none => simp [tryPlace, hb]
  | some b => simp [tryPlace, hb, h.not_mem_hasFree he hb]

/-- A listed entity takes the event, in a window that was free. -/
theorem tryPlace_some (h : c.WellFormed entities numWindows) (he : e ∈ c.hasFree)
    (preferred : Nat) (rng : Rng) : ∃ window deferred c' rng',
      c.tryPlace e preferred rng = some (some (window, deferred), c', rng') ∧
      c.Takes entities numWindows e window c' := by
  obtain ⟨b, hb, hfull⟩ := (h.mem_hasFree e).1 he
  have hwf := h.bits e b hb
  have hpos : 0 < numWindows := by
    rw [WindowBits.isFull, hwf.width] at hfull
    simp at hfull
    omega
  have hpref : min preferred (c.numWindows - 1) < numWindows := by rw [h.width]; omega
  obtain ⟨window, deferred, rng', hchoose, hlt, hfree⟩ := chooseWindow_eq hwf hfull hpref rng
  obtain ⟨b', hset, hwf', -, hbits⟩ := hwf.set_eq hlt hfree
  -- the slots taken depend on `used` only
  have htaken : ∀ e' w, ((c.used.insert e b').lookup e').any (fun bits => bits.bit w) =
      (decide (e' = e ∧ w = window) || c.taken e' w) := by
    intro e' w
    by_cases hee : e' = e
    · subst hee; simp [taken, hb, hbits]
    · simp [taken, AList.lookup_insert_ne hee, hee]
  have hknown : ∀ e', ((c.used.insert e b').lookup e').isSome ↔ e' ∈ entities := by
    intro e'
    by_cases hee : e' = e
    · subst hee; simp [← h.known, hb]
    · rw [AList.lookup_insert_ne hee, h.known]
  have hinside : ∀ e' b₁, (c.used.insert e b').lookup e' = some b₁ → b₁.WellFormed numWindows := by
    intro e' b₁ hb₁
    by_cases hee : e' = e
    · subst hee
      rw [AList.lookup_insert, Option.some.injEq] at hb₁
      exact hb₁ ▸ hwf'
    · rw [AList.lookup_insert_ne hee] at hb₁
      exact h.bits e' b₁ hb₁
  have hsome : c.taken e window = false := by simp [taken, hb, hfree]
  simp only [tryPlace, hb, hfull, Bool.false_eq_true, if_false, hchoose, hset,
    Option.bind_eq_bind, Option.bind_some]
  cases hfull' : b'.isFull with
  | false =>
    refine ⟨window, deferred, _, rng', rfl, ⟨h.width, hknown, hinside, fun e' => ?_, h.indexed⟩,
      h.mem_of_mem_hasFree he, hlt, hsome, htaken⟩
    by_cases hee : e' = e
    · subst hee; simp [he, hfull']
    · simp only [AList.lookup_insert_ne hee, h.mem_hasFree]
  | true =>
    obtain ⟨hasFree, hasFreePos, hevict, hmem, hidx⟩ :=
      evict_eq (c := { c with used := c.used.insert e b' }) h.indexed he
    rw [if_pos rfl, hevict]
    refine ⟨window, deferred, _, rng', rfl, ⟨h.width, hknown, hinside, fun e' => ?_, hidx⟩,
      h.mem_of_mem_hasFree he, hlt, hsome, htaken⟩
    rw [hmem]
    by_cases hee : e' = e
    · subst hee; simp [hfull']
    · simp only [AList.lookup_insert_ne hee, h.mem_hasFree, hee, ne_eq, not_false_eq_true, and_true]

/-- When no entity is listed every slot is taken. -/
theorem taken_of_hasFree_nil (h : c.WellFormed entities numWindows) (hnil : c.hasFree = [])
    {w : Nat} (he : e ∈ entities) (hw : w < numWindows) : c.taken e w = true := by
  obtain ⟨b, hb⟩ := Option.isSome_iff_exists.1 ((h.known e).2 he)
  have hfull := h.not_mem_hasFree (e := e) (by simp [hnil]) hb
  simp [taken, hb, (h.bits e b hb).isFull_iff.1 hfull w hw]

end WellFormed

theorem taken_new (entities : List Nat) (numWindows e w : Nat) :
    (new entities numWindows).taken e w = false := by
  simp only [taken, new, lookup_foldl_insert, AList.lookup_empty]
  split <;> simp

theorem randomEntity_none (hnil : c.hasFree = []) (rng : Rng) :
    c.randomEntity rng = some (none, rng) := by
  simp [randomEntity, hnil]

theorem randomEntity_some (hne : c.hasFree ≠ []) (rng : Rng) :
    ∃ e rng', c.randomEntity rng = some (some e, rng') ∧ e ∈ c.hasFree := by
  obtain ⟨idx, hidx, rng', hr⟩ :=
    Rng.randomRange_eq rng (List.length_pos_iff.2 hne)
  refine ⟨c.hasFree[idx], rng', ?_, List.getElem_mem hidx⟩
  simp [randomEntity, hne, hr, List.getElem?_eq_getElem hidx]

theorem chooseWindow_cases {bits : WindowBits} {pref window : Nat} {deferred : Bool} {rng rng' : Rng}
    (h : chooseWindow bits pref rng = some (some (window, deferred), rng')) :
    deferred = bits.bit pref ∧ (deferred = false → window = pref) := by
  obtain ⟨taken, hget, h⟩ := Option.bind_eq_some_iff.1 h
  have hbit : bits.bit pref = taken := by
    obtain ⟨w, hw, rfl⟩ := Option.map_eq_some_iff.1 hget
    rw [WindowBits.bit, hw, WindowBits.and_shiftLeft_ne_zero, Option.any_some]
  rw [hbit]
  cases taken with
  | false => cases h; exact ⟨rfl, fun _ => rfl⟩
  | true =>
    obtain ⟨r, -, hr⟩ := Option.map_eq_some_iff.1 h
    obtain ⟨x, -, hx⟩ := Option.map_eq_some_iff.1 (congrArg Prod.fst hr)
    cases hx
    exact ⟨rfl, fun h => by cases h⟩

/-- An event is deferred if the window it would have is taken; otherwise it has that window. -/
theorem tryPlace_window {preferred window : Nat} {deferred : Bool} {c' : Capacity} {rng rng' : Rng}
    (h : c.tryPlace e preferred rng = some (some (window, deferred), c', rng')) :
    deferred = c.taken e (min preferred (c.numWindows - 1)) ∧
      (deferred = false → window = min preferred (c.numWindows - 1)) := by
  unfold tryPlace at h
  split at h
  · cases h
  rename_i bits hbits
  split at h
  · cases h
  obtain ⟨⟨choice, rng₁⟩, hchoose, h⟩ := Option.bind_eq_some_iff.1 h
  cases choice with
  | none => cases h
  | some x =>
    obtain ⟨bits', -, h⟩ := Option.bind_eq_some_iff.1 h
    have hchosen : x = (window, deferred) := by
      dsimp only at h
      split at h
      · obtain ⟨c₁, -, h⟩ := Option.bind_eq_some_iff.1 h
        cases h; rfl
      · cases h; rfl
    subst hchosen
    simpa [taken, hbits] using chooseWindow_cases hchoose

/-! ## Any sequence of calls -/

inductive Call
  | tryPlace (entity preferred : Nat)
  | randomEntity

/-- A call, with the generator it is given. -/
def call (c : Capacity) : Call × Rng → Option Capacity
  | (.tryPlace entity preferred, rng) => (c.tryPlace entity preferred rng).map fun r => r.2.1
  | (.randomEntity, rng) => (c.randomEntity rng).map fun _ => c

theorem WellFormed.mem_hasFree_iff (h : c.WellFormed entities numWindows) :
    e ∈ c.hasFree ↔ e ∈ entities ∧ ∀ b, c.used.lookup e = some b → b.isFull = false := by
  rw [h.mem_hasFree, ← h.known]
  constructor
  · rintro ⟨b, hb, hfull⟩
    refine ⟨by simp [hb], fun b' hb' => ?_⟩
    rw [hb, Option.some.injEq] at hb'
    exact hb' ▸ hfull
  · rintro ⟨hknown, hfull⟩
    obtain ⟨b, hb⟩ := Option.isSome_iff_exists.1 hknown
    exact ⟨b, hb, hfull b hb⟩

theorem WellFormed.call (h : c.WellFormed entities numWindows) (x : Call × Rng) :
    ∃ c', c.call x = some c' ∧ c'.WellFormed entities numWindows := by
  obtain ⟨op, rng⟩ := x
  cases op with
  | tryPlace entity preferred =>
    by_cases he : entity ∈ c.hasFree
    · obtain ⟨window, deferred, c', rng', hplace, htakes⟩ := h.tryPlace_some he preferred rng
      exact ⟨c', by simp [Capacity.call, hplace], htakes.wellFormed⟩
    · exact ⟨c, by simp [Capacity.call, h.tryPlace_none he], h⟩
  | randomEntity =>
    by_cases hnil : c.hasFree = []
    · exact ⟨c, by simp [Capacity.call, randomEntity_none hnil], h⟩
    · obtain ⟨e, rng', hpick, -⟩ := randomEntity_some hnil rng
      exact ⟨c, by simp [Capacity.call, hpick], h⟩

theorem wellFormed_run (entities : List Nat) (numWindows : Nat) (calls : List (Call × Rng)) :
    ∃ c, calls.foldlM Capacity.call (new entities numWindows) = some c ∧
      c.WellFormed entities numWindows := by
  induction calls using List.reverseRecOn with
  | nil => exact ⟨_, rfl, wellFormed_new entities numWindows⟩
  | append_singleton calls x ih =>
    obtain ⟨c, hrun, hc⟩ := ih
    obtain ⟨c', hcall, hc'⟩ := hc.call x
    exact ⟨c', by simp [List.foldlM_append, hrun, hcall], hc'⟩

/-- What a placement does: it takes one free window of an entity that has one, and nothing of
any other. -/
def PlacesExactly (c : Capacity) (entities : List Nat) (numWindows : Nat) : Prop :=
  ∀ entity preferred rng, ∃ choice c' rng',
    c.tryPlace entity preferred rng = some (choice, c', rng') ∧
    (choice.isSome ↔
      entity ∈ entities ∧ ∀ b, c.used.lookup entity = some b → b.isFull = false) ∧
    (choice = none → c' = c) ∧
    ∀ window deferred, choice = some (window, deferred) →
      window < numWindows ∧ c.taken entity window = false ∧
      ∀ e w, c'.taken e w = (decide (e = entity ∧ w = window) || c.taken e w)

theorem WellFormed.placesExactly (h : c.WellFormed entities numWindows) :
    c.PlacesExactly entities numWindows := by
  intro entity preferred rng
  rw [← h.mem_hasFree_iff]
  by_cases he : entity ∈ c.hasFree
  · obtain ⟨window, deferred, c', rng', hplace, htakes⟩ := h.tryPlace_some he preferred rng
    refine ⟨_, c', rng', hplace, by simp [he], by simp, fun w d heq => ?_⟩
    cases heq
    exact ⟨htakes.lt, htakes.free, htakes.taken⟩
  · exact ⟨none, c, rng, h.tryPlace_none he preferred rng, by simp [he], fun _ => rfl, by simp⟩

/-- Whatever is called, in whatever order: nothing panics, `hasFree` lists the known entities
that are not full, once each and at the index `hasFreePos` gives, a count is the number of bits
set, and the next placement takes one free window if its entity has one. -/
theorem bookkeeping_exact (entities : List Nat) (numWindows : Nat) (calls : List (Call × Rng)) :
    ∃ c, calls.foldlM Capacity.call (new entities numWindows) = some c ∧
      c.hasFree.Nodup ∧
      (∀ e i, c.hasFreePos.lookup e = some i ↔ c.hasFree[i]? = some e) ∧
      (∀ e, (c.used.lookup e).isSome ↔ e ∈ entities) ∧
      (∀ e, e ∈ c.hasFree ↔ ∃ b, c.used.lookup e = some b ∧ b.isFull = false) ∧
      (∀ e b, c.used.lookup e = some b → b.numWindows = numWindows ∧
        b.count = (List.range numWindows).countP b.bit ∧ ∀ i, b.bit i → i < numWindows) ∧
      c.PlacesExactly entities numWindows := by
  obtain ⟨c, hrun, hc⟩ := wellFormed_run entities numWindows calls
  refine ⟨c, hrun, hc.indexed.nodup, hc.indexed, hc.known, hc.mem_hasFree, fun e b hb => ?_,
    hc.placesExactly⟩
  have hbits := hc.bits e b hb
  exact ⟨hbits.width, hbits.count, hbits.inside⟩

end Capacity

end LnConv
