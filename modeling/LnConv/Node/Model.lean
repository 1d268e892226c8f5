import LnConv.Node.Cln
import LnConv.Node.Flooding
import LnConv.Node.Lnd
import LnConv.Node.Sketch

/-!
# Node models of any kind

`ModelCfg` is the sum of the four kinds; `recv` and `fire` dispatch on it.
-/

namespace LnConv

inductive ModelCfg (V : Type) where
  | flooding (c : FloodingCfg V)
  | cln (c : ClnCfg V)
  | lnd (c : LndCfg V)
  | sketch (c : SketchCfg V)

namespace ModelCfg

variable {V : Type}

def base : ModelCfg V → NodeCfg V
  | flooding c => c.toNodeCfg
  | cln c => c.toNodeCfg
  | lnd c => c.toNodeCfg
  | sketch c => c.toNodeCfg

def isSketch : ModelCfg V → Bool
  | sketch _ => true
  | _ => false

theorem sketch_of_isSketch {mc : ModelCfg V} (h : mc.isSketch = true) : ∃ c, mc = .sketch c := by
  cases mc with
  | sketch c => exact ⟨c, rfl⟩
  | _ => cases h

/-- Only sketch nodes sample their rounds. -/
def initial (c : ModelCfg V) : Node :=
  { state := .new c.base.idx
    metricsLocal := match c with
      | sketch c => .withSketchReservoirs c.reservoirCap c.rngs
      | _ => {} }

/-- The events a model arms in its init: delay, event, period. -/
def armed : ModelCfg V → List (Nat × Ev × Option Nat)
  | flooding c => FloodingNode.armFlush c
  | cln c => ClnNode.armTicks c
  | lnd c => LndNode.armTicks c
  | sketch c => SketchNode.armPerPeerTickers c

def recv (wire : WireMessage) (now : Nat) : ModelCfg V → Handler V
  | flooding c => FloodingNode.recv c wire now
  | cln _ => ClnNode.recv wire now
  | lnd _ => LndNode.recv wire now
  | sketch _ => SketchNode.recv wire now

/-- The handler of an event; no model handles another kind's events. -/
def fire [MsgHash] (peerState : V → NodeState) (ev : Ev) (now : Nat) : ModelCfg V → Handler V
  | flooding c => match ev with
    | .originate msg => FloodingNode.originate c msg now
    | .doSend msg => FloodingNode.doSend c msg
    | .flushSummary => FloodingNode.flushSummary c now
    | _ => fun _ => none
  | cln c => match ev with
    | .originate msg => ClnNode.originate c msg now
    | .tick => ClnNode.tick c
    | .flushSummary => ClnNode.flushSummary c now
    | _ => fun _ => none
  | lnd c => match ev with
    | .originate msg => LndNode.originate c msg now
    | .tick => LndNode.tick c
    | .sendBatch b => LndNode.sendBatch c b
    | .flushSummary => LndNode.flushSummary c now
    | _ => fun _ => none
  | sketch c => match ev with
    | .originate msg => SketchNode.originate c msg now
    | .tickForPeer i => SketchNode.tickForPeer c i
    | .handleSketch s => SketchNode.handleSketch c peerState s now
    | .handleInventory i => SketchNode.handleInventory c i
    | .flushSummary => SketchNode.flushSummary c now
    | _ => fun _ => none

/-- Where a kind keeps what it still has to forward. -/
def forward : ModelCfg V → Forward
  | flooding _ => .schedule
  | cln _ | lnd _ => .queue
  | sketch _ => .nowhere

/-- The inbound counters: only sketch nodes tell the traffic classes apart. -/
def countIn (wire : WireMessage) : ModelCfg V → Node → Node
  | sketch _ => SketchNode.countIn wire
  | _ => fun n => n.addBytesInGossip wire.wireSize

/-- Receiving absorbs the gossips of the message, whatever the kind. -/
theorem recv_absorbs {mc : ModelCfg V} {wire : WireMessage} {now : Nat} {n n' : Node}
    {e : Effects V} (h : mc.recv wire now n = some (n', e)) :
    Absorbs mc.forward wire.gossips now (mc.countIn wire n) n' e := by
  cases mc with
  | flooding c => exact FloodingNode.recv_absorbs h
  | cln c => exact recvPending_absorbs h
  | lnd c => exact recvPending_absorbs h
  | sketch c => exact SketchNode.recv_absorbs h

theorem recv_total (mc : ModelCfg V) {wire : WireMessage} (now : Nat)
    (h : ∀ g ∈ wire.gossips, g.key?.isSome) : (mc.recv wire now).Total := by
  cases mc with
  | flooding c => exact FloodingNode.recv_total h
  | cln c => exact recvPending_total h
  | lnd c => exact recvPending_total h
  | sketch c => exact SketchNode.recv_total h

/-- Counting leaves everything else alone. -/
theorem countIn_frame (mc : ModelCfg V) (wire : WireMessage) (n : Node) :
    (mc.countIn wire n).state = n.state ∧ (mc.countIn wire n).pending = n.pending ∧
      (mc.countIn wire n).metricsLocal.duplicates = n.metricsLocal.duplicates ∧
      (mc.countIn wire n).metricsLocal.firstSeenPending = n.metricsLocal.firstSeenPending := by
  cases mc <;> cases wire <;> exact ⟨rfl, rfl, rfl, rfl⟩

/-- Handlers arm no tickers. -/
theorem fire_spawned [MsgHash] {mc : ModelCfg V} {peerState : V → NodeState} {ev : Ev} {now : Nat}
    {n n' : Node} {e : Effects V} (h : mc.fire peerState ev now n = some (n', e)) :
    ∀ x ∈ e.schedules, x.2.spawned = true := by
  have hnil : e.schedules = [] → ∀ x ∈ e.schedules, x.2.spawned = true := by
    rintro hn x hx; simp [hn] at hx
  cases mc with
  | flooding c =>
    cases ev with
    | originate msg =>
      simp only [fire, FloodingNode.originate, Option.bind_eq_bind, Option.bind_eq_some_iff] at h
      obtain ⟨⟨n₀, r⟩, -, h⟩ := h
      cases r <;> cases h <;> exact hnil rfl
    | _ => cases h <;> exact hnil rfl
  | cln c =>
    cases ev with
    | originate msg =>
      simp only [fire, ClnNode.originate, Option.bind_eq_bind, Option.bind_eq_some_iff] at h
      obtain ⟨⟨n₀, r⟩, -, h⟩ := h
      cases r <;> cases h <;> exact hnil rfl
    | tick =>
      simp only [fire, ClnNode.tick] at h
      split at h <;> cases h <;> exact hnil rfl
    | _ => cases h <;> exact hnil rfl
  | lnd c =>
    cases ev with
    | originate msg =>
      simp only [fire, LndNode.originate, Option.bind_eq_bind, Option.bind_eq_some_iff] at h
      obtain ⟨⟨n₀, r⟩, -, h⟩ := h
      cases r <;> cases h <;> exact hnil rfl
    | tick =>
      simp only [fire, LndNode.tick] at h
      split at h
      · cases h; exact hnil rfl
      simp only [Option.bind_eq_bind, Option.bind_eq_some_iff] at h
      obtain ⟨sub, -, h⟩ := h
      split at h <;> cases h
      · exact hnil rfl
      · intro x hx
        obtain ⟨i, hi, rfl⟩ := List.mem_mapIdx.1 hx
        rfl
    | _ => cases h <;> exact hnil rfl
  | sketch c =>
    cases ev with
    | originate msg =>
      simp only [fire, SketchNode.originate, Option.bind_eq_bind, Option.bind_eq_some_iff] at h
      obtain ⟨⟨n₀, r⟩, -, h⟩ := h
      cases r with
      | none => cases h; exact hnil rfl
      | some m => dsimp only at h; split at h <;> cases h <;> exact hnil rfl
    | handleSketch sk =>
      simp only [fire, SketchNode.handleSketch] at h
      split at h
      · cases h; exact hnil rfl
      simp only [Option.bind_eq_bind, Option.bind_eq_some_iff] at h
      obtain ⟨out, -, h⟩ := h
      split at h <;> cases h <;> exact hnil rfl
    | handleInventory i =>
      simp only [fire, SketchNode.handleInventory] at h
      split at h
      · cases h; exact hnil rfl
      simp only [Option.bind_eq_bind, Option.bind_eq_some_iff] at h
      obtain ⟨out, -, h⟩ := h
      cases h; exact hnil rfl
    | flushSummary =>
      simp only [fire, SketchNode.flushSummary] at h
      split at h <;> cases h <;> exact hnil rfl
    | _ => cases h <;> exact hnil rfl

end ModelCfg

end LnConv
