import LnConv.Lib.Heap
import LnConv.Netsim.Network

/-!
# The event queue

The queue of the source is a heap by time in a slice, and each event knows its place in it. So
the event popped is one of the next, and an event in the queue is found by its index.
-/

namespace LnConv.Netsim

/-- An event as the queue keeps it. Outside of the queue its index is -1. -/
structure QueuedEvent (n : Nat) (M Q : Type) extends Event n M Q where
  index : Int

def QueuedEvent.setIndex {n : Nat} {M Q : Type} (e : QueuedEvent n M Q) (i : Int) :
    QueuedEvent n M Q := { e with index := i }

abbrev EventQueue (n : Nat) (M Q : Type) := Array (QueuedEvent n M Q)

namespace EventQueue

variable {n : Nat} {M Q : Type}

def less (eq : EventQueue n M Q) (i j : Nat) : Bool :=
  match eq[i]?, eq[j]? with
  | some a, some b => decide (a.time < b.time)
  | _, _ => false

def swap (eq : EventQueue n M Q) (i j : Nat) : EventQueue n M Q :=
  ((eq.swapIfInBounds i j).modify i (·.setIndex i)).modify j (·.setIndex j)

def push (eq : EventQueue n M Q) (e : QueuedEvent n M Q) : EventQueue n M Q :=
  Array.push eq (e.setIndex eq.size)

def pop (eq : EventQueue n M Q) : Option (QueuedEvent n M Q × EventQueue n M Q) :=
  eq.back?.map fun e => (e.setIndex (-1), Array.pop eq)

/-- The methods that `container/heap` calls. A place outside of the slice panics; the heap never
names one. -/
def interface : Heap.Interface (EventQueue n M Q) (QueuedEvent n M Q) :=
  ⟨Array.size, less, swap, push, pop⟩

/-- A new event has the index 0 until it is in the queue. -/
def heapPush (eq : EventQueue n M Q) (e : Event n M Q) : EventQueue n M Q :=
  interface.heapPush eq ⟨e, 0⟩

def heapPop (eq : EventQueue n M Q) : Option (QueuedEvent n M Q × EventQueue n M Q) :=
  interface.heapPop eq

/-- The event at place `i` changes, and the heap is fixed at its index; `none` if there is no
such event. -/
def update (eq : EventQueue n M Q) (i : Nat) (data : EventData n M Q) (time : Nat) :
    Option (EventQueue n M Q) :=
  eq[i]?.map fun e => interface.fix (eq.modify i fun e => { e with data := data, time := time })
    e.index.toNat

/-- What is in the queue. -/
def events (eq : EventQueue n M Q) : List (Event n M Q) := eq.toList.map (·.toEvent)

/-! ## Places -/

section Places

variable {eq : EventQueue n M Q} {i j : Nat}

def key (eq : EventQueue n M Q) (c : Nat) : Nat := (eq[c]?.map (·.time)).getD 0

/-- Every event knows its place. -/
def Indexed (eq : EventQueue n M Q) : Prop :=
  ∀ (c : Nat) (e : QueuedEvent n M Q), eq[c]? = some e → e.index = c

@[simp] theorem events_length (eq : EventQueue n M Q) : eq.events.length = eq.size := by
  rw [events, List.length_map, Array.length_toList]

theorem getElem?_events (eq : EventQueue n M Q) (c : Nat) :
    eq.events[c]? = eq[c]?.map (·.toEvent) := by
  rw [events, List.getElem?_map, Array.getElem?_toList]

theorem key_eq (eq : EventQueue n M Q) (c : Nat) : eq.key c = (eq.events[c]?.map (·.time)).getD 0 := by
  rw [getElem?_events, Option.map_map]
  rfl

@[simp] theorem size_swap (eq : EventQueue n M Q) (i j : Nat) : (eq.swap i j).size = eq.size := by
  rw [swap, Array.size_modify, Array.size_modify, Array.size_swapIfInBounds]

theorem getElem?_swapIfInBounds (hi : i < eq.size) (hj : j < eq.size) (c : Nat) :
    (eq.swapIfInBounds i j)[c]? = eq[Equiv.swap i j c]? := by
  rw [Array.swapIfInBounds_def, dif_pos hi, dif_pos hj, Array.getElem?_swap]
  by_cases hcj : j = c
  · subst hcj
    rw [if_pos rfl, Equiv.swap_apply_right, Array.getElem?_eq_getElem hi]
  by_cases hci : i = c
  · subst hci
    rw [if_neg hcj, if_pos rfl, Equiv.swap_apply_left, Array.getElem?_eq_getElem hj]
  rw [if_neg hcj, if_neg hci, Equiv.swap_apply_of_ne_of_ne (Ne.symm hci) (Ne.symm hcj)]

theorem events_modify (eq : EventQueue n M Q) (i : Nat) (k : Int) :
    events (eq.modify i (·.setIndex k)) = eq.events := by
  refine List.ext_getElem? fun c => ?_
  rw [getElem?_events, getElem?_events, Array.getElem?_modify]
  split
  · rw [Option.map_map]
    rfl
  · rfl

theorem getElem?_events_swap (hi : i < eq.size) (hj : j < eq.size) (c : Nat) :
    (eq.swap i j).events[c]? = eq.events[Equiv.swap i j c]? := by
  rw [swap, events_modify, events_modify, getElem?_events, getElem?_events,
    getElem?_swapIfInBounds hi hj]

theorem swap_perm (hi : i < eq.size) (hj : j < eq.size) : (eq.swap i j).events.Perm eq.events := by
  rw [swap, events_modify, events_modify, Array.swapIfInBounds_def, dif_pos hi, dif_pos hj]
  exact (Array.swap_perm hi hj).toList.map _

theorem Indexed.swap (h : eq.Indexed) (hi : i < eq.size) (hj : j < eq.size) :
    (eq.swap i j).Indexed := by
  intro c e he
  rw [EventQueue.swap, Array.getElem?_modify] at he
  split at he
  · next hcj =>
    obtain ⟨a, -, rfl⟩ := Option.map_eq_some_iff.1 he
    exact congrArg Nat.cast hcj
  · next hcj =>
    rw [Array.getElem?_modify] at he
    split at he
    · next hci =>
      obtain ⟨a, -, rfl⟩ := Option.map_eq_some_iff.1 he
      exact congrArg Nat.cast hci
    · next hci =>
      rw [getElem?_swapIfInBounds hi hj,
        Equiv.swap_apply_of_ne_of_ne (Ne.symm hci) (Ne.symm hcj)] at he
      exact h c e he

theorem Indexed.push (h : eq.Indexed) (e : QueuedEvent n M Q) : (eq.push e).Indexed := by
  intro c x hx
  rw [EventQueue.push, Array.getElem?_push] at hx
  split at hx
  · next hc =>
    cases hx
    exact congrArg Nat.cast hc.symm
  · exact h c x hx

theorem lawful : Heap.Lawful (interface : Heap.Interface (EventQueue n M Q) _) key (·.time) where
  less eq i j hi hj := by
    unfold interface less key
    dsimp only
    rw [Array.getElem?_eq_getElem hi, Array.getElem?_eq_getElem hj]
    exact decide_eq_true_iff
  len_swap eq i j := size_swap eq i j
  key_swap eq i j hi hj c := by
    rw [key_eq, key_eq]
    exact congrArg (fun e => (Option.map (·.time) e).getD 0) (getElem?_events_swap hi hj c)
  len_push eq e := Array.size_push _
  key_push eq e c hc := by
    change c < eq.size at hc
    change key (eq.push e) c = key eq c
    rw [key, push, Array.getElem?_push, if_neg hc.ne, key]
  pop eq hpos := by
    change 0 < eq.size at hpos
    have hlast : eq.size - 1 < eq.size := by omega
    refine ⟨(eq[eq.size - 1]).setIndex (-1), Array.pop eq, ?_, ?_, ?_, fun c hc => ?_⟩
    · change pop eq = _
      rw [pop, Array.back?_eq_getElem?, Array.getElem?_eq_getElem hlast, Option.map_some]
    · change (Array.pop eq).size + 1 = eq.size
      rw [Array.size_pop]
      omega
    · change _ = key eq (Array.pop eq).size
      rw [Array.size_pop, key, Array.getElem?_eq_getElem hlast]
      rfl
    · change c < (Array.pop eq).size at hc
      rw [Array.size_pop] at hc
      unfold key
      rw [Array.getElem?_pop, if_pos hc]

end Places

/-! ## The heap -/

section Heap

variable {eq eq' : EventQueue n M Q} {e : QueuedEvent n M Q} {i : Nat}

/-- In heap order by time, and every event knows its place. -/
structure Wf (eq : EventQueue n M Q) : Prop where
  ordered : Heap.Ordered eq.key eq.size
  indexed : eq.Indexed

theorem wf_empty : Wf (#[] : EventQueue n M Q) :=
  ⟨fun _ _ h => absurd h (Nat.not_lt_zero _), fun c e h => by simp at h⟩

/-- The same events, and every event knows its new place. -/
structure Reorders (eq eq' : EventQueue n M Q) : Prop where
  perm : eq'.events.Perm eq.events
  indexed : eq'.Indexed

namespace Reorders

theorem size_eq (h : Reorders eq eq') : eq'.size = eq.size := by
  rw [← events_length, ← events_length]
  exact h.perm.length_eq

theorem swap (h : Reorders eq eq') {j : Nat} (hi : i < eq.size) (hj : j < eq.size) :
    Reorders eq (eq'.swap i j) := by
  rw [← h.size_eq] at hi hj
  exact ⟨(swap_perm hi hj).trans h.perm, h.indexed.swap hi hj⟩

theorem up (h : Reorders eq eq') (hi : i < eq.size) : Reorders eq (interface.up eq' i) :=
  Heap.Interface.up_invariant (fun _ _ _ h hi hj => h.swap hi hj) h hi

theorem downLoop (h : Reorders eq eq') {m : Nat} (hm : m ≤ eq.size) :
    Reorders eq (interface.downLoop eq' i m).1 :=
  Heap.Interface.downLoop_invariant (fun _ _ _ h hi hj => h.swap (hi.trans_le hm) (hj.trans_le hm)) h

end Reorders

theorem heapPush_reorders (h : eq.Indexed) (e : Event n M Q) :
    Reorders (eq.push ⟨e, 0⟩) (eq.heapPush e) := by
  have hsize : (eq.push ⟨e, 0⟩).size = eq.size + 1 := Array.size_push _
  unfold heapPush Heap.Interface.heapPush
  refine Reorders.up ⟨.rfl, h.push _⟩ ?_
  change (eq.push ⟨e, 0⟩).size - 1 < (eq.push ⟨e, 0⟩).size
  omega

theorem heapPush_perm (h : eq.Indexed) (e : Event n M Q) :
    (eq.heapPush e).events.Perm (e :: eq.events) := by
  have hpush : (eq.push ⟨e, 0⟩).events = eq.events ++ [e] := by
    rw [push, events, Array.toList_push, List.map_append]
    rfl
  rw [← List.singleton_append]
  exact (hpush ▸ (heapPush_reorders h e).perm).trans List.perm_append_comm

theorem Wf.heapPush (h : eq.Wf) (e : Event n M Q) : (eq.heapPush e).Wf := by
  have hre := heapPush_reorders h.indexed e
  refine ⟨?_, hre.indexed⟩
  have hsize : (eq.heapPush e).size = eq.size + 1 := hre.size_eq.trans (Array.size_push _)
  rw [hsize]
  exact lawful.heapPush_ordered h.ordered

/-- The heap with its root at the end, from where it is removed. -/
theorem heapPop_eq (h : eq.Indexed) (hpos : 0 < eq.size) :
    ∃ d, Reorders eq d ∧ eq.heapPop = d.pop := by
  have hlast : eq.size - 1 < eq.size := by omega
  have hre : Reorders eq (eq.swap 0 (eq.size - 1)) := Reorders.swap ⟨.rfl, h⟩ hpos hlast
  refine ⟨(interface.down (eq.swap 0 (eq.size - 1)) 0 (eq.size - 1)).1, hre.downLoop hlast.le, ?_⟩
  unfold heapPop Heap.Interface.heapPop
  exact if_neg hpos.ne'

theorem pop_eq_some (h : eq.pop = some (e, eq')) : eq' = Array.pop eq ∧ e.index = -1 ∧
    eq.events = eq'.events ++ [e.toEvent] := by
  obtain ⟨x, hx, h⟩ := Option.map_eq_some_iff.1 h
  cases h
  refine ⟨rfl, rfl, ?_⟩
  have hlist : eq.toList = eq.toList.dropLast ++ [x] := by
    refine (List.dropLast_append_getLast? x ?_).symm
    rwa [Array.getLast?_toList]
  rw [events, hlist, List.map_append, events, Array.toList_pop]
  rfl

theorem heapPop_eq_none_iff (h : eq.Indexed) : eq.heapPop = none ↔ eq.size = 0 := by
  constructor
  · intro hnone
    by_contra hne
    obtain ⟨d, hre, heq⟩ := heapPop_eq h (Nat.pos_of_ne_zero hne)
    have hsize : d.size = 0 := by
      rw [heq, pop, Option.map_eq_none_iff] at hnone
      exact Array.back?_eq_none_iff.1 hnone ▸ rfl
    exact hne (hre.size_eq.symm.trans hsize)
  · intro hzero
    unfold heapPop Heap.Interface.heapPop
    exact if_pos hzero

theorem key_eq_time (eq : EventQueue n M Q) {c : Nat} (hc : c < eq.events.length) :
    eq.key c = eq.events[c].time := by
  rw [key_eq, List.getElem?_eq_getElem hc]
  rfl

/-- A least event leaves the queue. -/
structure Pops (eq : EventQueue n M Q) (e : QueuedEvent n M Q) (eq' : EventQueue n M Q) : Prop where
  wf : eq'.Wf
  perm : eq.events.Perm (e.toEvent :: eq'.events)
  index : e.index = -1
  least : ∀ e' ∈ eq'.events, e.time ≤ e'.time

theorem Wf.pops (h : eq.Wf) (hp : eq.heapPop = some (e, eq')) : eq.Pops e eq' := by
  obtain ⟨hord, -, hleast⟩ := lawful.heapPop_ordered h.ordered hp
  have hpos : 0 < eq.size := by
    refine Nat.pos_of_ne_zero fun hzero => ?_
    rw [(heapPop_eq_none_iff h.indexed).2 hzero] at hp
    cases hp
  obtain ⟨d, hre, heq⟩ := heapPop_eq h.indexed hpos
  obtain ⟨rfl, hindex, hevents⟩ := pop_eq_some (heq ▸ hp)
  refine ⟨⟨hord, fun c y hy => ?_⟩, ?_, hindex, fun e' he' => ?_⟩
  · rw [Array.getElem?_pop] at hy
    split at hy
    · exact hre.indexed c y hy
    · cases hy
  · refine hre.perm.symm.trans ?_
    rw [hevents]
    exact List.perm_append_comm
  · obtain ⟨c, hc, rfl⟩ := List.mem_iff_getElem.1 he'
    rw [← key_eq_time _ hc]
    rw [events_length] at hc
    exact hleast c hc

theorem update_spec (h : eq.Wf) {data : EventData n M Q} {time : Nat}
    (hu : eq.update i data time = some eq') :
    eq'.Wf ∧ eq'.events.Perm (eq.events.set i ⟨time, data⟩) := by
  obtain ⟨x, hx, rfl⟩ := Option.map_eq_some_iff.1 hu
  obtain ⟨hi, -⟩ := Array.getElem?_eq_some_iff.1 hx
  have hindex : x.index.toNat = i := by rw [h.indexed i x hx, Int.toNat_natCast]
  obtain ⟨d, hd⟩ : ∃ d : EventQueue n M Q,
      d = eq.modify i fun e => { e with data := data, time := time } := ⟨_, rfl⟩
  have hget : ∀ c : Nat, c ≠ i → d[c]? = eq[c]? := fun c hc => by
    rw [hd, Array.getElem?_modify, if_neg (Ne.symm hc)]
  have hsize : d.size = eq.size := by rw [hd, Array.size_modify]
  have hid : i < d.size := hsize.symm ▸ hi
  have hevents : d.events = eq.events.set i ⟨time, data⟩ := by
    refine List.ext_getElem? fun c => ?_
    by_cases hc : c = i
    · subst hc
      rw [getElem?_events, hd, Array.getElem?_modify, if_pos rfl, hx,
        List.getElem?_set_self (by rwa [events_length])]
      rfl
    · rw [getElem?_events, hget c hc, List.getElem?_set_ne (Ne.symm hc), getElem?_events]
  have hindexed : d.Indexed := by
    intro c y hy
    by_cases hc : c = i
    · subst hc
      rw [hd, Array.getElem?_modify, if_pos rfl, hx] at hy
      cases hy
      exact h.indexed c x hx
    · exact h.indexed c y (hget c hc ▸ hy)
  have haround : Heap.Around d.key d.size i := by
    rw [hsize]
    refine h.ordered.around fun c _ hc => ?_
    rw [key, key, hget c hc]
  rw [hindex, ← hd]
  have hre : Reorders d (interface.fix d i) := by
    have hdown : Reorders d (interface.downLoop d i d.size).1 :=
      Reorders.downLoop ⟨.rfl, hindexed⟩ le_rfl
    unfold Heap.Interface.fix
    dsimp only
    split
    · exact hdown
    · exact hdown.up hid
  refine ⟨⟨?_, hre.indexed⟩, hevents ▸ hre.perm⟩
  rw [hre.size_eq]
  exact lawful.fix_ordered hid haround

end Heap

/-! ## Any use of the queue -/

inductive Op (n : Nat) (M Q : Type) where
  | push (e : Event n M Q)
  | pop
  | update (i : Nat) (data : EventData n M Q) (time : Nat)

def step (eq : EventQueue n M Q) : Op n M Q → Option (EventQueue n M Q)
  | .push e => some (eq.heapPush e)
  | .pop => eq.heapPop.map Prod.snd
  | .update i data time => eq.update i data time

/-- As a priority queue does it: the event is added, a least one is removed, the one named is
replaced. -/
def Serves (eq : EventQueue n M Q) : Op n M Q → Prop
  | .push e => (eq.heapPush e).events.Perm (e :: eq.events)
  | .pop => ∀ e eq', eq.heapPop = some (e, eq') → eq.Pops e eq'
  | .update i data time => ∀ eq', eq.update i data time = some eq' →
    eq'.events.Perm (eq.events.set i ⟨time, data⟩)

theorem Wf.step {eq eq' : EventQueue n M Q} (h : eq.Wf) {op : Op n M Q}
    (hs : eq.step op = some eq') : eq'.Wf := by
  cases op with
  | push e =>
    cases hs
    exact h.heapPush e
  | pop =>
    obtain ⟨⟨e, q⟩, hp, rfl⟩ := Option.map_eq_some_iff.1 hs
    exact (h.pops hp).wf
  | update i data time => exact (update_spec h hs).1

theorem Wf.serves {eq : EventQueue n M Q} (h : eq.Wf) (op : Op n M Q) : eq.Serves op := by
  cases op with
  | push e => exact heapPush_perm h.indexed e
  | pop => exact fun e eq' hp => h.pops hp
  | update i data time => exact fun eq' hu => (update_spec h hu).2

/-- However it is used, the queue is a priority queue, and every event in it has its index. -/
theorem run_serves {eq : EventQueue n M Q} {ops : List (Op n M Q)}
    (h : run step #[] ops = some eq) : eq.Wf ∧ Steps step Serves #[] ops eq :=
  ⟨run_invariant h wf_empty fun _ _ _ hw hs => hw.step hs,
    steps_of_invariant h wf_empty (fun _ _ _ hw hs => hw.step hs) fun _ op hw => hw.serves op⟩

/-- An event is moved to an earlier time and overtakes two others. -/
def sampleOps : List (Op 2 Unit Unit) :=
  [.push ⟨5, .other ()⟩, .push ⟨3, .other ()⟩, .push ⟨8, .other ()⟩, .update 2 (.other ()) 1,
    .pop, .pop]

theorem run_serves_sample : ∃ eq, run step #[] sampleOps = some eq ∧ eq.events.map (·.time) = [5] ∧
    eq.Wf ∧ Steps step Serves #[] sampleOps eq := by
  have hrun : ((run step #[] sampleOps).any fun eq => eq.events.map (·.time) == [5]) = true := by
    decide +kernel
  obtain ⟨eq, heq, htimes⟩ := (Option.any_eq_true _ _).1 hrun
  exact ⟨eq, heq, beq_iff_eq.1 htimes, run_serves heq⟩

end EventQueue

end LnConv.Netsim
