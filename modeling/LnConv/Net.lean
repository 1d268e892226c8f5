import LnConv.Lib.Run
import LnConv.Node.Model
import Mathlib.Data.Fin.VecNotation
import Mathlib.Data.List.FinRange

/-!
# The simulated network

`step` is one move of the executor: it lets time pass, delivers a message in
flight or runs a scheduled event, each in any order. `tstep` keeps to simulated
time: an event runs at its own instant, and time passes only when nothing is due.
A handler that panics ends the run.
-/

namespace LnConv

/-! ## Networks -/

/-- The peer graph: who is wired to whom, in the order outputs are added. -/
structure Topology (V : Type) where
  nodes : List V
  id : V → NodeId
  idx : V → NodeIdx
  neighbors : V → List V
  nodup : nodes.Nodup
  mem_nodes : ∀ v, v ∈ nodes
  id_inj : ∀ u v, id u = id v → u = v
  idx_inj : ∀ u v, idx u = idx v → u = v
  symm : ∀ u v, v ∈ neighbors u → u ∈ neighbors v

/-- One model for each vertex, wired to its neighbours. -/
structure Network (V : Type) where
  topo : Topology V
  model : V → ModelCfg V
  runDuration : Nat
  peers_eq : ∀ v, (model v).base.peers = .wire topo.id (topo.neighbors v)
  id_eq : ∀ v, (model v).base.id = topo.id v
  idx_eq : ∀ v, (model v).base.idx = topo.idx v
  runDuration_eq : ∀ v, (model v).base.runDuration = runDuration

/-- The graph on `0..n` with the given neighbour lists. -/
def Topology.ofNeighbors (n : Nat) (neighbors : Fin n → List (Fin n))
    (symm : ∀ u v, v ∈ neighbors u → u ∈ neighbors v) : Topology (Fin n) where
  nodes := List.finRange n
  id v := v
  idx v := v
  neighbors := neighbors
  nodup := List.nodup_finRange n
  mem_nodes := List.mem_finRange
  id_inj _ _ h := Fin.val_inj.1 h
  idx_inj _ _ h := Fin.val_inj.1 h
  symm := symm

/-- The construction loop of the runner: `mk` picks the model of a vertex. -/
def Network.build {V : Type} (topo : Topology V) (runDuration flushInterval : Nat)
    (flushPhase : V → Nat) (mk : V → NodeCfg V → ModelCfg V)
    (mk_base : ∀ v c, (mk v c).base = c) : Network V where
  topo := topo
  model v := mk v
    { id := topo.id v, idx := topo.idx v, peers := .wire topo.id (topo.neighbors v)
      runDuration := runDuration, flushInterval := flushInterval, flushPhase := flushPhase v }
  runDuration := runDuration
  peers_eq v := by rw [mk_base]
  id_eq v := by rw [mk_base]
  idx_eq v := by rw [mk_base]
  runDuration_eq v := by rw [mk_base]

namespace Network

variable {V : Type} {w : Network V} {u v : V}

/-- `u` sends to `v`. -/
def edge (w : Network V) (u v : V) : Prop := v ∈ w.topo.neighbors u

theorem edge_iff : w.edge u v ↔ v ∈ (w.model u).base.peers.outputs := by
  rw [w.peers_eq, Peers.outputs_wire]; rfl

theorem edge_symm (h : w.edge u v) : w.edge v u := w.topo.symm u v h

/-- A node finds the output to a neighbour under the neighbour's id. -/
theorem lookup_peer (h : w.edge u v) : ∃ i,
    (w.model u).base.peers.peerIdToLocal.lookup (w.topo.id v) = some i ∧
      (w.model u).base.peers.outputs[i]? = some v := by
  rw [w.peers_eq]
  have hmem : w.topo.id v ∈ (Peers.wire w.topo.id (w.topo.neighbors u)).peerIds := by
    rw [Peers.peerIds_wire]
    exact List.mem_map_of_mem h
  obtain ⟨i, hi⟩ := Option.isSome_iff_exists.1 (Peers.known _ _ hmem)
  obtain ⟨v', ho, hid⟩ := Peers.output_of_local hi
  rw [w.topo.id_inj v' v hid] at ho
  exact ⟨i, hi, ho⟩

end Network

/-! ## States -/

structure Packet (V : Type) where
  src : V
  dst : V
  wire : WireMessage

structure Sched (V : Type) where
  time : Nat
  node : V
  ev : Ev
  period : Option Nat

/-- `counted` is the history of the tuples each node counted as first seen. -/
structure Net (V : Type) where
  now : Nat
  node : V → Node
  flight : List (Packet V)
  queue : List (Sched V)
  metrics : List MetricsEvent
  counted : V → List FirstSeenEntry

inductive Label where
  | advance (t : Nat)
  | deliver (i : Nat)
  | fire (i : Nat)

/-- The next firing of a periodic event. -/
def Sched.again {V : Type} (q : Sched V) : List (Sched V) :=
  match q.period with
  | some p => [{ q with time := q.time + p }]
  | none => []

theorem again_mem {V : Type} {q q' : Sched V} (h : q' ∈ q.again) : q'.node = q.node ∧ q'.ev = q.ev := by
  unfold Sched.again at h
  split at h
  · rw [List.mem_singleton] at h; subst h; exact ⟨rfl, rfl⟩
  · cases h

/-- The executor refuses an event without delay, and the `expect` on it panics. -/
def Effects.scheduleOk {V : Type} (e : Effects V) : Bool := e.schedules.all fun d => d.1 != 0

namespace Net

variable {V : Type} [DecidableEq V]

/-- A handler of `u` ran: its new state and its effects. -/
def commit (s : Net V) (u : V) (n : Node) (e : Effects V) : Net V where
  now := s.now
  node := Function.update s.node u n
  flight := s.flight ++ e.sends.map fun x => ⟨u, x.1, x.2⟩
  queue := s.queue ++ e.schedules.map fun x => ⟨s.now + x.1, u, x.2, none⟩
  metrics := s.metrics ++ e.events
  counted := Function.update s.counted u (s.counted u ++ e.firstSeen)

def commit? (s : Net V) (u : V) (r : Node × Effects V) : Option (Net V) :=
  if r.2.scheduleOk then some (s.commit u r.1 r.2) else none

def states (s : Net V) (v : V) : NodeState := (s.node v).state

end Net

section Step

variable {V : Type} [DecidableEq V] [MsgHash]

def step (w : Network V) (s : Net V) : Label → Option (Net V)
  | .advance t => if s.now ≤ t then some { s with now := t } else none
  | .deliver i => do
    let p ← s.flight[i]?
    let r ← (w.model p.dst).recv p.wire s.now (s.node p.dst)
    { s with flight := s.flight.eraseIdx i }.commit? p.dst r
  | .fire i => do
    let q ← s.queue[i]?
    let r ← (w.model q.node).fire s.states q.ev s.now (s.node q.node)
    { s with queue := s.queue.eraseIdx i ++ q.again }.commit? q.node r

/-- The simulation clock: nothing due is skipped and nothing runs before its time. -/
def tstep (w : Network V) (s : Net V) (l : Label) : Option (Net V) :=
  match l with
  | .advance t =>
    if s.flight.isEmpty && s.queue.all fun q => decide (t ≤ q.time) then step w s l else none
  | .deliver _ => step w s l
  | .fire i => do
    let q ← s.queue[i]?
    if q.time = s.now then step w s l else none

/-- The armed events of all models, then the originations. -/
def initialQueue (w : Network V) (events : List (Nat × V × Gossip)) : List (Sched V) :=
  (w.topo.nodes.flatMap fun v => (w.model v).armed.map fun a => ⟨a.1, v, a.2.1, a.2.2⟩) ++
    events.map fun x => ⟨if x.1 = 0 then 1 else x.1, x.2.1, .originate x.2.2, none⟩

/-- A zero delay or period is refused. -/
def init (w : Network V) (events : List (Nat × V × Gossip)) : Option (Net V) :=
  let queue := initialQueue w events
  if queue.all fun q => decide (q.time ≠ 0 ∧ q.period ≠ some 0) then
    some { now := 0, node := fun v => (w.model v).initial, flight := [], queue := queue,
           metrics := [], counted := fun _ => [] }
  else none

/-! ## What a step can do -/

inductive Moves (w : Network V) (s : Net V) : Label → Net V → Prop where
  | advance {t : Nat} : s.now ≤ t → Moves w s (.advance t) { s with now := t }
  | deliver {i : Nat} {p : Packet V} {n : Node} {e : Effects V} : s.flight[i]? = some p →
      (w.model p.dst).recv p.wire s.now (s.node p.dst) = some (n, e) → e.scheduleOk = true →
      Moves w s (.deliver i) ({ s with flight := s.flight.eraseIdx i }.commit p.dst n e)
  | fire {i : Nat} {q : Sched V} {n : Node} {e : Effects V} : s.queue[i]? = some q →
      (w.model q.node).fire s.states q.ev s.now (s.node q.node) = some (n, e) →
      e.scheduleOk = true →
      Moves w s (.fire i) ({ s with queue := s.queue.eraseIdx i ++ q.again }.commit q.node n e)

theorem moves_of_step {w : Network V} {s s' : Net V} {l : Label} (h : step w s l = some s') :
    Moves w s l s' := by
  cases l with
  | advance t =>
    simp only [step] at h
    split at h
    · next hle => cases h; exact .advance hle
    · cases h
  | deliver i =>
    simp only [step, Option.bind_eq_bind, Option.bind_eq_some_iff, Net.commit?] at h
    obtain ⟨p, hp, ⟨n, e⟩, hr, h⟩ := h
    split at h
    · next hok => cases h; exact .deliver hp hr hok
    · cases h
  | fire i =>
    simp only [step, Option.bind_eq_bind, Option.bind_eq_some_iff, Net.commit?] at h
    obtain ⟨q, hq, ⟨n, e⟩, hr, h⟩ := h
    split at h
    · next hok => cases h; exact .fire hq hr hok
    · cases h

theorem step_of_tstep {w : Network V} {s s' : Net V} {l : Label} (h : tstep w s l = some s') :
    step w s l = some s' := by
  cases l with
  | advance t => simp only [tstep] at h; split at h <;> [exact h; cases h]
  | deliver i => exact h
  | fire i =>
    simp only [tstep, Option.bind_eq_bind, Option.bind_eq_some_iff] at h
    obtain ⟨q, -, h⟩ := h
    split at h <;> [exact h; cases h]

omit [DecidableEq V] [MsgHash] in
theorem init_eq {w : Network V} {events : List (Nat × V × Gossip)} {s : Net V}
    (h : init w events = some s) :
    s = { now := 0, node := fun v => (w.model v).initial, flight := [],
          queue := initialQueue w events, metrics := [], counted := fun _ => [] } := by
  simp only [init] at h
  split at h
  · cases h; rfl
  · cases h

end Step

/-! ## Periodic events -/

/-- What fires again and again sends nothing that it carries. -/
def Net.Silent {V : Type} (s : Net V) : Prop := ∀ q ∈ s.queue, q.period ≠ none → q.ev.gossips = []

section Silent

variable {V : Type} {w : Network V} {s s' : Net V} {l : Label}

theorem gossips_of_armed {mc : ModelCfg V} {a : Nat × Ev × Option Nat} (h : a ∈ mc.armed) :
    a.2.1.gossips = [] := by
  cases mc with
  | sketch c =>
    unfold ModelCfg.armed SketchNode.armPerPeerTickers at h
    rcases List.mem_append.1 h with h | h
    · rcases List.mem_append.1 h with h | h
      · obtain ⟨i, hi, rfl⟩ := List.mem_mapIdx.1 h
        rfl
      · split at h
        · rw [List.mem_singleton.1 h]; rfl
        · cases h
    · rw [List.mem_singleton.1 h]; rfl
  | _ =>
    simp only [ModelCfg.armed, FloodingNode.armFlush, ClnNode.armTicks, LndNode.armTicks] at h
    split at h <;> simp at h <;> rcases h with rfl | rfl | rfl <;> rfl

/-- At the start nothing is queued that sends what it carries. -/
theorem gossips_of_initialQueue {events : List (Nat × V × Gossip)} {q : Sched V}
    (h : q ∈ initialQueue w events) : q.ev.gossips = [] := by
  rcases List.mem_append.1 h with h | h
  · obtain ⟨v, -, h⟩ := List.mem_flatMap.1 h
    obtain ⟨a, ha, rfl⟩ := List.mem_map.1 h
    exact gossips_of_armed ha
  · obtain ⟨x, -, rfl⟩ := List.mem_map.1 h
    rfl

theorem Net.Silent.init {events : List (Nat × V × Gossip)} (h : init w events = some s) :
    s.Silent := by
  intro q hq _
  rw [init_eq h] at hq
  exact gossips_of_initialQueue hq

theorem Net.Silent.again (h : s.Silent) {q q' : Sched V} (hq : q ∈ s.queue) (hq' : q' ∈ q.again) :
    q'.ev.gossips = [] := by
  rw [(again_mem hq').2]
  refine h q hq fun hnone => ?_
  simp [Sched.again, hnone] at hq'

/-- What handlers schedule fires once. -/
theorem Net.Silent.step [DecidableEq V] [MsgHash] (h : s.Silent) (hs : LnConv.step w s l = some s') :
    s'.Silent := by
  have hnew : ∀ {t : Nat} {u : V} {e : Effects V} {q : Sched V},
      q ∈ (e.schedules.map fun x => (⟨t + x.1, u, x.2, none⟩ : Sched V)) → q.period = none := by
    intro t u e q hq
    obtain ⟨x, -, rfl⟩ := List.mem_map.1 hq
    rfl
  cases moves_of_step hs with
  | advance _ => exact h
  | deliver _ _ _ =>
    intro q hq hne
    rcases List.mem_append.1 hq with hq | hq
    · exact h q hq hne
    · exact absurd (hnew hq) hne
  | fire hq' _ _ =>
    intro q hq hne
    rcases List.mem_append.1 hq with hq | hq
    · rcases List.mem_append.1 hq with hq | hq
      · exact h q (List.mem_of_mem_eraseIdx hq) hne
      · exact h.again (List.mem_of_getElem? hq') hq
    · exact absurd (hnew hq) hne

end Silent

/-! ## Small networks -/

section Samples

variable {V : Type} (c : NodeCfg V)

/-- A sketch node with one capacity for all kinds, ticking every second. -/
def plainSketch (cap : Nat) : SketchCfg V :=
  { c with
    stagger := 10 ^ 9
    perPeerOffsets := List.replicate c.peers.outputs.length (10 ^ 8)
    capChanUpdates := cap
    capNodeAnns := cap
    capChanAnns := cap
    floodOnOriginate := false
    fullReconciliation := true
    reservoirCap := 8
    rngs := fun _ _ => .zero
    offsets_length := by simp }

def plainCln : ClnCfg V := { c with stagger := 10 ^ 9, firstTick := 10 ^ 8 }

end Samples

/-- A sketch node next to a Cln node. -/
def mixedPair : Network (Fin 2) :=
  .build (.ofNeighbors 2 (fun v => [1 - v]) (by decide)) (10 * 10 ^ 9) 0 (fun _ => 0)
    (fun v c => if v = 0 then .sketch (plainSketch c 16) else .cln (plainCln c))
    (fun v c => by split <;> rfl)

/-- Two sketch nodes. -/
def sketchPair (cap : Nat) : Network (Fin 2) :=
  .build (.ofNeighbors 2 (fun v => [1 - v]) (by decide)) (10 * 10 ^ 9) 0 (fun _ => 0)
    (fun _ c => .sketch (plainSketch c cap)) (fun _ _ => rfl)

/-- Flooding nodes that forward after 100 ms and flush at the end only. -/
def floodNet {V : Type} (topo : Topology V) (runDuration : Nat) : Network V :=
  .build topo runDuration 0 (fun _ => 0) (fun _ c => .flooding { c with forwardDelay := 10 ^ 8 })
    (fun _ _ => rfl)

def floodPair (runDuration : Nat) : Network (Fin 2) :=
  floodNet (.ofNeighbors 2 (fun v => [1 - v]) (by decide)) runDuration

/-- Three flooding nodes in a line. -/
def floodLine (runDuration : Nat) : Network (Fin 3) :=
  floodNet (.ofNeighbors 3 ![[1], [0, 2], [1]] (by decide)) runDuration

/-- An update of channel 7, as an event source emits it. -/
def sampleUpdate : Gossip := ⟨0, none, .channelUpdate, 130, some 7, 0, 0⟩

end LnConv
