import LnConv.Absorb
import LnConv.Metrics

/-!
# What every node kind shares

`NodeCfg` is the part of a node model fixed at construction, `Node` the part its
handlers change. A handler takes a `Node` to the next one and the `Effects` it
asks of the executor; `none` is a panic. `V` is the type of mailboxes: an output
is the mailbox it is connected to.
-/

namespace LnConv

/-! ## Peers -/

/-- The three containers `push_peer` keeps in lock-step. -/
structure Peers (V : Type) where
  outputs : List V
  peerIds : List NodeId
  peerIdToLocal : IntMap Nat
  aligned : peerIds.length = outputs.length
  local_of : ∀ p i, peerIdToLocal.lookup p = some i → peerIds[i]? = some p
  known : ∀ p ∈ peerIds, (peerIdToLocal.lookup p).isSome

namespace Peers

variable {V : Type}

def empty : Peers V := ⟨[], [], ∅, rfl, by simp, by simp⟩

def pushPeer (p : Peers V) (peerId : NodeId) (out : V) : Peers V where
  outputs := p.outputs ++ [out]
  peerIds := p.peerIds ++ [peerId]
  peerIdToLocal := p.peerIdToLocal.insert peerId p.outputs.length
  aligned := by simp [p.aligned]
  local_of := by
    intro q i h
    by_cases e : q = peerId
    · subst e
      rw [AList.lookup_insert, Option.some.injEq] at h
      simp [← h, ← p.aligned]
    · rw [AList.lookup_insert_ne e] at h
      have hi := p.local_of q i h
      rw [List.getElem?_append_left (List.getElem?_eq_some_iff.1 hi).1, hi]
  known := by
    intro q hq
    by_cases e : q = peerId
    · subst e; simp
    · rw [AList.lookup_insert_ne e]
      exact p.known q (by simpa [e] using hq)

/-- The outputs a node gets when `add_peer` runs over its neighbours. -/
def wire (id : V → NodeId) (neighbors : List V) : Peers V :=
  neighbors.foldl (fun p v => p.pushPeer (id v) v) empty

theorem foldl_pushPeer (id : V → NodeId) (vs : List V) (p : Peers V) :
    (vs.foldl (fun p v => p.pushPeer (id v) v) p).outputs = p.outputs ++ vs ∧
      (vs.foldl (fun p v => p.pushPeer (id v) v) p).peerIds = p.peerIds ++ vs.map id := by
  induction vs generalizing p with
  | nil => simp
  | cons v vs ih =>
    rw [List.foldl_cons, (ih _).1, (ih _).2]
    simp [pushPeer]

@[simp] theorem outputs_wire (id : V → NodeId) (vs : List V) : (wire id vs).outputs = vs := by
  rw [wire, (foldl_pushPeer id vs empty).1]; rfl

@[simp] theorem peerIds_wire (id : V → NodeId) (vs : List V) :
    (wire id vs).peerIds = vs.map id := by
  rw [wire, (foldl_pushPeer id vs empty).2]; rfl

/-- The local index found for an id is that of an output with this id. -/
theorem output_of_local {id : V → NodeId} {vs : List V} {p : NodeId} {i : Nat}
    (h : (wire id vs).peerIdToLocal.lookup p = some i) :
    ∃ v, (wire id vs).outputs[i]? = some v ∧ id v = p := by
  have hi := (wire id vs).local_of p i h
  rw [peerIds_wire, List.getElem?_map, Option.map_eq_some_iff] at hi
  simpa using hi

end Peers

/-! ## Nodes and effects -/

structure NodeCfg (V : Type) where
  id : NodeId
  idx : NodeIdx
  peers : Peers V
  runDuration : Nat
  flushInterval : Nat
  flushPhase : Nat

/-- `pending` is used by Cln and Lnd nodes, `nextSketchId` by Sketch nodes. -/
structure Node where
  state : NodeState
  metricsLocal : PerNodeMetrics := {}
  pending : List Gossip := []
  nextSketchId : Nat := 0

/-- The schedulable handlers, with their arguments, and the `originate` input. -/
inductive Ev where
  | originate (msg : Gossip)
  | doSend (msg : Gossip)
  | tick
  | sendBatch (batch : GossipBatch)
  | tickForPeer (peerLocal : Nat)
  | handleSketch (sketch : Sketch)
  | handleInventory (inv : InventoryMsg)
  | flushSummary

/-- The gossips an event still has to send. -/
def Ev.gossips : Ev → List Gossip
  | .doSend g => [g]
  | .sendBatch b => b.gossips
  | _ => []

/-- Events that handlers schedule; tickers and originations are armed at the start. -/
def Ev.spawned : Ev → Bool
  | .doSend _ | .sendBatch _ | .handleSketch _ | .handleInventory _ | .flushSummary => true
  | .originate _ | .tick | .tickForPeer _ => false

@[simp] theorem Ev.gossips_doSend (g : Gossip) : (Ev.doSend g).gossips = [g] := rfl

@[simp] theorem Ev.gossips_sendBatch (b : GossipBatch) : (Ev.sendBatch b).gossips = b.gossips := rfl

@[simp] theorem Ev.gossips_flushSummary : Ev.flushSummary.gossips = [] := rfl

/-- What a handler asks of the executor: messages to mailboxes, events after a
delay in ns, metrics events, and the tuples it counted as first seen. -/
structure Effects (V : Type) where
  sends : List (V × WireMessage) := []
  schedules : List (Nat × Ev) := []
  events : List MetricsEvent := []
  firstSeen : List FirstSeenEntry := []

namespace Effects

variable {V : Type}

instance : Append (Effects V) where
  append e f := ⟨e.sends ++ f.sends, e.schedules ++ f.schedules, e.events ++ f.events,
    e.firstSeen ++ f.firstSeen⟩

@[simp] theorem sends_append (e f : Effects V) : (e ++ f).sends = e.sends ++ f.sends := rfl

@[simp] theorem schedules_append (e f : Effects V) :
    (e ++ f).schedules = e.schedules ++ f.schedules := rfl

@[simp] theorem events_append (e f : Effects V) : (e ++ f).events = e.events ++ f.events := rfl

@[simp] theorem firstSeen_append (e f : Effects V) :
    (e ++ f).firstSeen = e.firstSeen ++ f.firstSeen := rfl

/-- The gossips of the events scheduled. -/
def scheduled (e : Effects V) : List Gossip := e.schedules.flatMap fun s => s.2.gossips

@[simp] theorem scheduled_append (e f : Effects V) :
    (e ++ f).scheduled = e.scheduled ++ f.scheduled := by simp [scheduled]

/-- The gossips sent to one mailbox. -/
def sentTo [DecidableEq V] (e : Effects V) (v : V) : List Gossip :=
  (e.sends.filter fun x => x.1 = v).flatMap fun x => x.2.gossips

theorem mem_sentTo [DecidableEq V] {e : Effects V} {v : V} {g : Gossip} :
    g ∈ e.sentTo v ↔ ∃ wire, (v, wire) ∈ e.sends ∧ g ∈ wire.gossips := by
  simp only [sentTo, List.mem_flatMap, List.mem_filter, decide_eq_true_eq, Prod.exists]
  constructor
  · rintro ⟨u, wire, ⟨h, rfl⟩, hg⟩; exact ⟨wire, h, hg⟩
  · rintro ⟨wire, h, hg⟩; exact ⟨v, wire, ⟨h, rfl⟩, hg⟩

end Effects

abbrev Handler (V : Type) := Node → Option (Node × Effects V)

/-- One handler after the other. -/
def Handler.seq {V : Type} (f g : Handler V) : Handler V := fun n => do
  let (n₁, e₁) ← f n
  let (n₂, e₂) ← g n₁
  some (n₂, e₁ ++ e₂)

theorem Handler.seq_eq_some {V : Type} {f g : Handler V} {n n' : Node} {e : Effects V}
    (h : f.seq g n = some (n', e)) : ∃ n₁ e₁ e₂, f n = some (n₁, e₁) ∧ g n₁ = some (n', e₂) ∧
      e = e₁ ++ e₂ := by
  simp only [seq, Option.bind_eq_bind, Option.bind_eq_some_iff] at h
  obtain ⟨⟨n₁, e₁⟩, hf, ⟨n₂, e₂⟩, hg, h⟩ := h
  cases h
  exact ⟨n₁, e₁, e₂, hf, hg, rfl⟩

theorem Handler.seq_of_eq {V : Type} {f g : Handler V} {n n₁ n₂ : Node} {e₁ e₂ : Effects V}
    (hf : f n = some (n₁, e₁)) (hg : g n₁ = some (n₂, e₂)) : f.seq g n = some (n₂, e₁ ++ e₂) := by
  simp [seq, hf, hg]

/-- A handler that never panics. -/
def Handler.Total {V : Type} (f : Handler V) : Prop := ∀ n, ∃ r, f n = some r

theorem Handler.Total.seq {V : Type} {f g : Handler V} (hf : f.Total) (hg : g.Total) :
    (f.seq g).Total := by
  intro n
  obtain ⟨⟨n₁, e₁⟩, h₁⟩ := hf n
  obtain ⟨⟨n₂, e₂⟩, h₂⟩ := hg n₁
  exact ⟨(n₂, e₁ ++ e₂), by simp [Handler.seq, h₁, h₂]⟩

/-- One copy of the message for each output. -/
def NodeCfg.broadcast {V : Type} (c : NodeCfg V) (wire : WireMessage) : List (V × WireMessage) :=
  c.peers.outputs.map fun v => (v, wire)

theorem mem_broadcast {V : Type} {c : NodeCfg V} {v : V} {wire wire' : WireMessage} :
    (v, wire) ∈ c.broadcast wire' ↔ v ∈ c.peers.outputs ∧ wire = wire' := by
  simp only [NodeCfg.broadcast, List.mem_map, Prod.mk.injEq]
  constructor
  · rintro ⟨u, h, rfl, rfl⟩; exact ⟨h, rfl⟩
  · rintro ⟨h, rfl⟩; exact ⟨v, h, rfl, rfl⟩

def stampSeen (gs : List Gossip) (now : Nat) : List FirstSeenEntry :=
  gs.map fun g => ⟨g, nsSinceEpoch now⟩

namespace Node

def view (n : Node) : View := n.state.view

/-- Dedup, duplicate counters and first-seen buffer of one absorb call; the list
is what was fresh. -/
def absorbKind (n : Node) (kind : GossipKind) (gs : List Gossip) (now : Nat) :
    Option (Node × List Gossip) :=
  if gs.isEmpty then some (n, [])
  else do
    let r ← absorbLoop (put kind) n.state gs
    let m := { n.metricsLocal with
      duplicates := n.metricsLocal.duplicates + r.dups.length
      duplicatesBytes := n.metricsLocal.duplicatesBytes + sizeSum r.dups
      firstSeenPending := n.metricsLocal.firstSeenPending ++ stampSeen r.fresh now }
    some ({ n with state := r.state, metricsLocal := m }, r.fresh)

def maybeForceFlush (n : Node) : List (Nat × Ev) :=
  if n.metricsLocal.firstSeenPending.length ≥ FIRST_SEEN_FORCE_FLUSH then [(1, .flushSummary)]
  else []

@[simp] theorem gossips_maybeForceFlush (n : Node) :
    (n.maybeForceFlush.flatMap fun s => s.2.gossips) = [] := by
  unfold maybeForceFlush
  split <;> rfl

theorem spawned_maybeForceFlush (n : Node) : ∀ x ∈ n.maybeForceFlush, x.2.spawned = true := by
  unfold maybeForceFlush
  split <;> simp [Ev.spawned]

/-- What `flush_summary` drains on every node kind. -/
def drain {V : Type} (c : NodeCfg V) (n : Node) (now : Nat) : Node × List MetricsEvent :=
  let m := { n.metricsLocal with firstSeenPending := [], overflowEvents := [] }
  ({ n with metricsLocal := m },
    sendFirstSeenBatch c.idx n.metricsLocal.firstSeenPending ++
      [.nodeCountersDelta c.idx (nsSinceEpoch now) m.snapshotCounters n.metricsLocal.overflowEvents])

/-- The common opening of every `originate`: no message means no broadcast. -/
def stampOriginated [MsgHash] {V : Type} (c : NodeCfg V) (n : Node) (msg : Gossip) (now : Nat) :
    Option (Node × Option Gossip) := do
  let (state, msg, isNew) ← originateStamp n.state c.id msg now
  if isNew then
    let m := { n.metricsLocal with
      firstSeenPending := n.metricsLocal.firstSeenPending ++ stampSeen [msg] now }
    some ({ n with state := state, metricsLocal := m }, some msg)
  else some ({ n with state := state }, none)

def addBytesInGossip (n : Node) (bytes : Nat) : Node :=
  { n with metricsLocal :=
    { n.metricsLocal with bytesInGossip := n.metricsLocal.bytesInGossip + bytes } }

def addBytesOutGossip (n : Node) (bytes : Nat) : Node :=
  { n with metricsLocal :=
    { n.metricsLocal with bytesOutGossip := n.metricsLocal.bytesOutGossip + bytes } }

end Node

/-- What the opening of an `originate` does. -/
theorem stampOriginated_spec [MsgHash] {V : Type} {c : NodeCfg V} {n n' : Node} {msg : Gossip}
    {now : Nat} {r : Option Gossip} (h : n.stampOriginated c msg now = some (n', r)) :
    ∃ m b, StampSpec n.state c.id msg now n'.state m b ∧ n'.pending = n.pending ∧
      n'.nextSketchId = n.nextSketchId ∧ (b = true ∧ r = some m ∧ n'.metricsLocal =
        { n.metricsLocal with
          firstSeenPending := n.metricsLocal.firstSeenPending ++ stampSeen [m] now } ∨
      b = false ∧ r = none ∧ n'.metricsLocal = n.metricsLocal) := by
  simp only [Node.stampOriginated, Option.bind_eq_bind, Option.bind_eq_some_iff] at h
  obtain ⟨⟨st, m, b⟩, hst, h⟩ := h
  have sp := originateStamp_spec hst
  cases b with
  | true => cases h; exact ⟨m, true, sp, rfl, rfl, .inl ⟨rfl, rfl, rfl⟩⟩
  | false => cases h; exact ⟨m, false, sp, rfl, rfl, .inr ⟨rfl, rfl, rfl⟩⟩

/-! ## What absorbing does -/

/-- A node that absorbs `gs`: its state joins them in, every one is counted once
as fresh or duplicate, the fresh ones are recorded, and the `queued` ones
are put on the pending queue. -/
structure AbsorbsAs {V : Type} (gs : List Gossip) (now : Nat) (n n' : Node) (e : Effects V)
    (fresh dups queued : List Gossip) : Prop where
  view : n'.view = n.view ⊔ joinOf gs
  learnt : n'.view ≤ n.view ⊔ joinOf fresh
  counted : (fresh ++ dups).Perm gs
  fresh_nil : fresh = [] ↔ joinOf gs ≤ n.view
  metrics : n'.metricsLocal = { n.metricsLocal with
    duplicates := n.metricsLocal.duplicates + dups.length
    duplicatesBytes := n.metricsLocal.duplicatesBytes + sizeSum dups
    firstSeenPending := n.metricsLocal.firstSeenPending ++ stampSeen fresh now }
  nextSketchId : n'.nextSketchId = n.nextSketchId
  pending : n'.pending = n.pending ++ queued
  sends : e.sends = []
  events : e.events = []
  firstSeen : e.firstSeen = stampSeen fresh now

/-- Where the fresh gossips wait to be sent on. -/
inductive Forward where
  | queue
  | schedule
  | nowhere

def Forward.queued : Forward → List Gossip → List Gossip
  | queue, fresh => fresh
  | _, _ => []

def Forward.scheduled : Forward → List Gossip → List Gossip
  | schedule, fresh => fresh
  | _, _ => []

@[simp] theorem Forward.queued_nil (f : Forward) : f.queued [] = [] := by cases f <;> rfl

@[simp] theorem Forward.scheduled_nil (f : Forward) : f.scheduled [] = [] := by cases f <;> rfl

theorem Forward.queued_append (f : Forward) (gs hs : List Gossip) :
    f.queued (gs ++ hs) = f.queued gs ++ f.queued hs := by cases f <;> rfl

theorem Forward.scheduled_append (f : Forward) (gs hs : List Gossip) :
    f.scheduled (gs ++ hs) = f.scheduled gs ++ f.scheduled hs := by cases f <;> rfl

/-- What every absorb function and every gossip branch of a `recv` does. -/
def Absorbs {V : Type} (f : Forward) (gs : List Gossip) (now : Nat) (n n' : Node)
    (e : Effects V) : Prop :=
  ∃ fresh dups, AbsorbsAs gs now n n' e fresh dups (f.queued fresh) ∧
    e.scheduled = f.scheduled fresh ∧ ∀ x ∈ e.schedules, x.2.spawned = true

theorem stampSeen_append (gs hs : List Gossip) (now : Nat) :
    stampSeen (gs ++ hs) now = stampSeen gs now ++ stampSeen hs now := List.map_append

theorem Absorbs.nil {V : Type} (f : Forward) (now : Nat) (n : Node) {schedules : List (Nat × Ev)}
    (h : (schedules.flatMap fun s => s.2.gossips) = []) (hs : ∀ x ∈ schedules, x.2.spawned = true) :
    Absorbs f [] now n n ({ schedules := schedules } : Effects V) :=
  ⟨[], [], ⟨by simp, by simp, .refl _, by simp, by simp [stampSeen], rfl, by simp, rfl, rfl, rfl⟩,
    h.trans f.scheduled_nil.symm, hs⟩

/-- Absorbing in two steps absorbs the concatenation. -/
theorem Absorbs.append {V : Type} {f : Forward} {gs hs : List Gossip} {now : Nat}
    {n n' n'' : Node} {e e' : Effects V} (h : Absorbs f gs now n n' e)
    (h' : Absorbs f hs now n' n'' e') : Absorbs f (gs ++ hs) now n n'' (e ++ e') := by
  obtain ⟨fr, du, a, s, sp⟩ := h
  obtain ⟨fr', du', a', s', sp'⟩ := h'
  refine ⟨fr ++ fr', du ++ du', ?_, by rw [Effects.scheduled_append, s, s', f.scheduled_append],
    fun x hx => (List.mem_append.1 hx).elim (sp x) (sp' x)⟩
  refine ⟨?_, ?_, ?_, ?_, ?_, a'.nextSketchId.trans a.nextSketchId, ?_, by simp [a.sends, a'.sends],
    by simp [a.events, a'.events], by simp [a.firstSeen, a'.firstSeen, stampSeen_append]⟩
  · rw [a'.view, a.view, joinOf_append, sup_assoc]
  · calc n''.view ≤ n'.view ⊔ joinOf fr' := a'.learnt
      _ ≤ (n.view ⊔ joinOf fr) ⊔ joinOf fr' := sup_le_sup_right a.learnt _
      _ = n.view ⊔ joinOf (fr ++ fr') := by rw [joinOf_append, sup_assoc]
  · calc (fr ++ fr' ++ (du ++ du')).Perm (fr ++ du ++ (fr' ++ du')) := by
          simp only [List.append_assoc]
          exact (List.perm_append_comm_assoc _ _ _).append_left fr
      _ |>.Perm (gs ++ hs) := a.counted.append a'.counted
  · rw [List.append_eq_nil_iff, joinOf_append, sup_le_iff, a.fresh_nil, a'.fresh_nil]
    apply and_congr_right
    intro hle
    rw [a.view, sup_eq_left.2 hle]
  · rw [a'.metrics, a.metrics]
    simp [stampSeen_append, Nat.add_assoc]
  · rw [a'.pending, a.pending, f.queued_append, List.append_assoc]

theorem Absorbs.perm {V : Type} {f : Forward} {gs hs : List Gossip} {now : Nat} {n n' : Node}
    {e : Effects V} (h : Absorbs f gs now n n' e) (hp : gs.Perm hs) : Absorbs f hs now n n' e := by
  obtain ⟨fr, du, a, s⟩ := h
  have hj : joinOf gs = joinOf hs := joinOf_congr fun _ => hp.mem_iff
  exact ⟨fr, du, { a with
    view := by rw [a.view, hj]
    counted := a.counted.trans hp
    fresh_nil := by rw [a.fresh_nil, hj] }, s⟩

theorem absorbKind_spec {V : Type} {n n' : Node} {kind : GossipKind} {gs fresh : List Gossip}
    {now : Nat} {e : Effects V} (hg : ∀ g ∈ gs, g.kind = kind)
    (h : n.absorbKind kind gs now = some (n', fresh)) (hs : e.sends = []) (he : e.events = [])
    (hf : e.firstSeen = stampSeen fresh now) : ∃ dups, AbsorbsAs gs now n n' e fresh dups [] := by
  unfold Node.absorbKind at h
  split at h
  · next hnil =>
    cases h
    rw [List.isEmpty_iff.1 hnil]
    exact ⟨[], by simp, by simp, .refl _, by simp, by simp [stampSeen], rfl, by simp, hs, he, hf⟩
  · simp only [Option.bind_eq_bind, Option.bind_eq_some_iff] at h
    obtain ⟨r, hr, h⟩ := h
    cases h
    have sp := absorbLoop_spec hg hr
    exact ⟨r.dups, sp.view, sp.learnt, sp.counted, sp.fresh_nil, rfl, rfl, by simp, hs, he, hf⟩

/-- Putting gossips on the pending queue afterwards. -/
theorem AbsorbsAs.queue {V : Type} {gs fresh dups : List Gossip} {now : Nat} {n n' : Node}
    {e : Effects V} (h : AbsorbsAs gs now n n' e fresh dups []) (queued : List Gossip) :
    AbsorbsAs gs now n { n' with pending := n'.pending ++ queued } e fresh dups queued :=
  { h with pending := by simp [h.pending] }

theorem absorbKind_isSome {n : Node} {kind : GossipKind} {gs : List Gossip} (now : Nat)
    (hg : ∀ g ∈ gs, g.kind = kind ∧ g.key?.isSome) : ∃ r, n.absorbKind kind gs now = some r := by
  unfold Node.absorbKind
  split
  · exact ⟨_, rfl⟩
  · obtain ⟨r, hr⟩ := absorbLoop_isSome (s := n.state) hg
    exact ⟨_, by simp only [hr, Option.bind_eq_bind, Option.bind_some]; rfl⟩

end LnConv
