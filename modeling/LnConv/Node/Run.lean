import LnConv.Lib.Run
import LnConv.Node.Model
import Mathlib.Data.Multiset.AddSub
import Mathlib.Tactic.Abel

/-!
# Runs of one node

A node with the events it has scheduled. Messages reach it at any time, its tickers and its event
source fire at any time, and so does what it has scheduled. `issued` is what a handler
broadcasts, whether or not the node has peers.
-/

namespace LnConv

variable {V : Type}

/-! ## Batches -/

/-- The part of a batch for a kind. -/
def GossipBatch.ofKind (b : GossipBatch) : GossipKind → List Gossip
  | .channelUpdate => b.chanUpdates
  | .nodeAnnouncement => b.nodeAnns
  | .channelAnnouncement => b.chanAnns

theorem GossipBatch.ofKind_push (b : GossipBatch) (g : Gossip) (kind : GossipKind) :
    (b.push g).ofKind kind = b.ofKind kind ++ [g].filter (·.kind = kind) := by
  unfold push
  split
  all_goals
    next hk => cases kind <;> simp [ofKind, hk]

theorem GossipBatch.ofKind_foldl_push (gs : List Gossip) (b : GossipBatch) (kind : GossipKind) :
    (gs.foldl push b).ofKind kind = b.ofKind kind ++ gs.filter (·.kind = kind) := by
  induction gs generalizing b with
  | nil => simp
  | cons g gs ih =>
    rw [List.foldl_cons, ih, ofKind_push, List.append_assoc, ← List.filter_append]
    rfl

/-- Each kind of a mixed list keeps its order. -/
theorem GossipBatch.ofKind_fromMixed (gs : List Gossip) (kind : GossipKind) :
    (fromMixed gs).ofKind kind = gs.filter (·.kind = kind) := by
  unfold fromMixed
  rw [ofKind_foldl_push]
  cases kind <;> rfl

theorem GossipBatch.push_perm (b : GossipBatch) (g : Gossip) :
    (b.push g).gossips.Perm (g :: b.gossips) := by
  have h : ∀ l r : List Gossip, (l ++ [g] ++ r).Perm (g :: (l ++ r)) := by
    intro l r
    rw [List.append_assoc]
    exact List.perm_middle
  unfold push gossips
  split
  · simpa only [List.append_assoc] using h b.chanUpdates (b.nodeAnns ++ b.chanAnns)
  · simpa only [List.append_assoc] using h (b.chanUpdates ++ b.nodeAnns) b.chanAnns
  · simpa only [List.append_assoc, List.append_nil] using
      h (b.chanUpdates ++ (b.nodeAnns ++ b.chanAnns)) []

theorem GossipBatch.foldl_push_perm (gs : List Gossip) (b : GossipBatch) :
    (gs.foldl push b).gossips.Perm (b.gossips ++ gs) := by
  induction gs generalizing b with
  | nil => simp
  | cons g gs ih =>
    calc ((g :: gs).foldl push b).gossips
      _ |>.Perm ((b.push g).gossips ++ gs) := ih _
      _ |>.Perm (g :: b.gossips ++ gs) := (b.push_perm g).append_right gs
      _ |>.Perm (b.gossips ++ g :: gs) := List.perm_middle.symm

theorem GossipBatch.fromMixed_perm (gs : List Gossip) : (fromMixed gs).gossips.Perm gs :=
  foldl_push_perm gs empty

/-! ## What is broadcast -/

/-- The batches that a tick cuts, none if it panics. -/
def LndNode.cut (c : LndCfg V) (pending : List Gossip) : List GossipBatch :=
  match calculateSubBatchSize c.stagger c.trickle c.minBatchSize pending.length with
  | none => []
  | some sub => (chunks sub pending).map GossipBatch.fromMixed

@[simp] theorem LndNode.cut_nil (c : LndCfg V) : cut c [] = [] := by
  unfold cut
  split <;> rfl

section Issued

variable [MsgHash]

/-- The message that an `originate` stamps for broadcast. -/
def Node.originated (c : NodeCfg V) (n : Node) (msg : Gossip) (now : Nat) : List Gossip :=
  ((n.stampOriginated c msg now).bind (·.2)).toList

/-- The messages that the handler of an event sends to every peer. -/
def ModelCfg.issued (ev : Ev) (now : Nat) (n : Node) : ModelCfg V → List WireMessage
  | flooding c => match ev with
    | .originate msg => (n.originated c.toNodeCfg msg now).map .single
    | .doSend msg => [.single msg]
    | _ => []
  | cln c => match ev with
    | .originate msg => (n.originated c.toNodeCfg msg now).map .single
    | .tick => if n.pending.isEmpty then [] else [.batch (.fromMixed n.pending)]
    | _ => []
  | lnd c => match ev with
    | .tick => ((LndNode.cut c n.pending).take 1).map .batch
    | .sendBatch b => [.batch b]
    | _ => []
  | sketch c => match ev with
    | .originate msg =>
      if c.floodOnOriginate && !c.peers.outputs.isEmpty then
        (n.originated c.toNodeCfg msg now).map .single
      else []
    | _ => []

end Issued

/-! ## The node and its executor -/

/-- What has happened, beside the node: the last four fields are history. -/
structure NodeRun (V : Type) where
  node : Node
  scheduled : List Ev := []
  sent : List (V × WireMessage) := []
  broadcast : List WireMessage := []
  /-- Gossips that `originate` recorded as first seen. -/
  originated : List Gossip := []
  /-- Gossips that `recv` recorded as first seen. -/
  received : List Gossip := []

/-- Events of the tickers and of the event source. -/
def Ev.external : Ev → Bool
  | .originate _ | .tick | .tickForPeer _ | .flushSummary => true
  | .doSend _ | .sendBatch _ | .handleSketch _ | .handleInventory _ => false

/-- A message arrives, an external event fires, or one that was scheduled does. -/
inductive NodeOp (V : Type) where
  | recv (wire : WireMessage) (now : Nat)
  | fire (ev : Ev) (peerState : V → NodeState) (now : Nat)
  | due (i : Nat) (peerState : V → NodeState) (now : Nat)

namespace NodeRun

def recorded (e : Effects V) : List Gossip := e.firstSeen.map (·.gossip)

def commitRecv (s : NodeRun V) (n : Node) (e : Effects V) : NodeRun V :=
  { s with
    node := n
    scheduled := s.scheduled ++ e.schedules.map (·.2)
    sent := s.sent ++ e.sends
    received := s.received ++ recorded e }

def commitFire (s : NodeRun V) (n : Node) (e : Effects V) (issued : List WireMessage) : NodeRun V :=
  { s with
    node := n
    scheduled := s.scheduled ++ e.schedules.map (·.2)
    sent := s.sent ++ e.sends
    broadcast := s.broadcast ++ issued
    originated := s.originated ++ recorded e }

def step [MsgHash] (mc : ModelCfg V) (s : NodeRun V) : NodeOp V → Option (NodeRun V)
  | .recv wire now => do
    let (n, e) ← mc.recv wire now s.node
    some (s.commitRecv n e)
  | .fire ev peerState now =>
    if ev.external then do
      let (n, e) ← mc.fire peerState ev now s.node
      some (s.commitFire n e (mc.issued ev now s.node))
    else none
  | .due i peerState now => do
    let ev ← s.scheduled[i]?
    let (n, e) ← mc.fire peerState ev now s.node
    some ({ s with scheduled := s.scheduled.eraseIdx i }.commitFire n e (mc.issued ev now s.node))

/-- The event whose handler an operation runs. -/
def event (s : NodeRun V) : NodeOp V → Option Ev
  | .recv _ _ => none
  | .fire ev _ _ => some ev
  | .due i _ _ => s.scheduled[i]?

/-- The gossips that wait in the queue, that scheduled events will send, and that are broadcast. -/
def held (s : NodeRun V) : Multiset Gossip :=
  s.node.pending + (s.scheduled.flatMap Ev.gossips : List Gossip) +
    (s.broadcast.flatMap WireMessage.gossips : List Gossip)

/-- The gossips recorded as first seen. -/
def accepted (s : NodeRun V) : Multiset Gossip := s.originated + (s.received : Multiset Gossip)

end NodeRun

/-! ## What flows through a handler -/

/-- A handler that loses and doubles nothing: what was queued, the gossips `inp` of its event and
what it records are queued, scheduled or issued; what is issued goes to every peer. -/
structure Flows (c : NodeCfg V) (inp : List Gossip) (out : List WireMessage) (n n' : Node)
    (e : Effects V) : Prop where
  held : (n'.pending ++ e.scheduled ++ out.flatMap WireMessage.gossips).Perm
    (n.pending ++ inp ++ NodeRun.recorded e)
  sends : e.sends = out.flatMap c.broadcast
  bytes : n'.metricsLocal.bytesOutGossip = n.metricsLocal.bytesOutGossip +
    c.peers.outputs.length * sizeSum (out.flatMap WireMessage.gossips)

section Flows

variable {c : NodeCfg V} {n n' n₀ : Node} {e : Effects V} {now : Nat}

theorem recorded_stampSeen {gs : List Gossip} (h : e.firstSeen = stampSeen gs now) :
    NodeRun.recorded e = gs := by
  unfold NodeRun.recorded stampSeen at *
  rw [h, List.map_map]
  exact List.map_id gs

/-- A handler that changes neither the queue nor the traffic. -/
theorem Flows.of_same {events : List MetricsEvent} (hp : n'.pending = n.pending)
    (hb : n'.metricsLocal.bytesOutGossip = n.metricsLocal.bytesOutGossip) :
    Flows c [] [] n n' { events := events } where
  held := by
    rw [hp]
    simp [Effects.scheduled, NodeRun.recorded]
  sends := rfl
  bytes := by rw [hb]; rfl

theorem Absorbs.flows {f : Forward} {gs : List Gossip} (h : Absorbs f gs now n₀ n' e)
    (hf : f ≠ .nowhere) (hp : n₀.pending = n.pending)
    (hb : n₀.metricsLocal.bytesOutGossip = n.metricsLocal.bytesOutGossip) : Flows c [] [] n n' e := by
  obtain ⟨fresh, dups, a, s, -⟩ := h
  refine ⟨?_, a.sends, ?_⟩
  · rw [recorded_stampSeen a.firstSeen, a.pending, s, hp]
    cases f with
    | queue => simp [Forward.queued, Forward.scheduled]
    | schedule => simp [Forward.queued, Forward.scheduled]
    | nowhere => exact absurd rfl hf
  · rw [a.metrics]
    exact hb

theorem recv_flows {mc : ModelCfg V} {wire : WireMessage} (hmc : mc.isSketch = false)
    (h : mc.recv wire now n = some (n', e)) : Flows mc.base [] [] n n' e := by
  obtain ⟨-, hp, -⟩ := mc.countIn_frame wire n
  refine (ModelCfg.recv_absorbs h).flows ?_ hp ?_
  · cases mc <;> simp_all [ModelCfg.forward, ModelCfg.isSketch]
  · cases mc <;> cases wire <;> rfl

/-- One message to every peer. -/
theorem Flows.broadcast {inp : List Gossip} {wire : WireMessage}
    (hp : (n'.pending ++ e.scheduled ++ wire.gossips).Perm (n.pending ++ inp ++ NodeRun.recorded e))
    (hs : e.sends = c.broadcast wire)
    (hb : n'.metricsLocal.bytesOutGossip = n.metricsLocal.bytesOutGossip +
      sizeSum wire.gossips * c.peers.outputs.length) : Flows c inp [wire] n n' e where
  held := by rwa [List.flatMap_singleton]
  sends := by rw [hs, List.flatMap_singleton]
  bytes := by rw [hb, List.flatMap_singleton, Nat.mul_comm]

theorem sizeSum_singleton (g : Gossip) : sizeSum [g] = g.sizeBytes := by simp

theorem ClnNode.tick_flows {c : ClnCfg V} (h : ClnNode.tick c n = some (n', e)) :
    Flows c.toNodeCfg [] (if n.pending.isEmpty then [] else [.batch (.fromMixed n.pending)])
      n n' e := by
  simp only [tick] at h
  split at h
  · next hnil =>
    cases h
    rw [if_pos hnil]
    exact Flows.of_same (by rfl) (by rfl)
  · next hne =>
    cases h
    rw [if_neg hne]
    refine Flows.broadcast ?_ rfl ?_
    · simpa [WireMessage.gossips, Effects.scheduled, NodeRun.recorded, Node.addBytesOutGossip] using
        GossipBatch.fromMixed_perm n.pending
    · show _ = _ + sizeSum (GossipBatch.fromMixed n.pending).gossips * _
      rw [← GossipBatch.wireSize_gossips, GossipBatch.wireSize_fromMixed]
      rfl

theorem LndNode.sendBatch_flows {c : LndCfg V} {batch : GossipBatch}
    (h : LndNode.sendBatch c batch n = some (n', e)) :
    Flows c.toNodeCfg batch.gossips [.batch batch] n n' e := by
  cases h
  refine Flows.broadcast ?_ rfl ?_
  · simp [WireMessage.gossips, Effects.scheduled, NodeRun.recorded, Node.addBytesOutGossip]
  · show _ = _ + sizeSum batch.gossips * _
    rw [← GossipBatch.wireSize_gossips]
    rfl

/-- A tick sends the first batch it cuts and schedules the others, one trickle apart. -/
theorem LndNode.tick_cut {c : LndCfg V} (h : LndNode.tick c n = some (n', e)) :
    n.pending = [] ∧ n' = n ∧ e = {} ∨ n.pending ≠ [] ∧ ∃ sub first rest,
      calculateSubBatchSize c.stagger c.trickle c.minBatchSize n.pending.length = some sub ∧
      0 < sub ∧ cut c n.pending = first :: rest ∧
      n' = ({ n with pending := [] } : Node).addBytesOutGossip
        (first.wireSize * c.peers.outputs.length) ∧
      e = { sends := c.broadcast (.batch first)
            schedules := rest.mapIdx fun i b => (c.trickle * ((i + 1) % 2 ^ 32), .sendBatch b) } := by
  simp only [tick] at h
  split at h
  · next hnil =>
    cases h
    exact .inl ⟨List.isEmpty_iff.1 hnil, rfl, rfl⟩
  next hne =>
  have hne : n.pending ≠ [] := fun hn => hne (List.isEmpty_iff.2 hn)
  obtain ⟨sub, hsub, h⟩ := Option.bind_eq_some_iff.1 h
  have hpos : 0 < sub :=
    calculateSubBatchSize_pos c.minBatchSize_pos (List.length_pos_iff.2 hne) hsub
  have hcut : cut c n.pending = (chunks sub n.pending).map GossipBatch.fromMixed := by
    unfold cut
    rw [hsub]
  have hflat := flatten_chunks n.pending hpos
  refine .inr ⟨hne, sub, ?_⟩
  cases hch : chunks sub n.pending with
  | nil =>
    rw [hch] at hflat
    exact absurd hflat.symm hne
  | cons first rest =>
    rw [hch] at h hcut
    cases h
    exact ⟨_, _, hsub, hpos, hcut, rfl, rfl⟩

/-- The batches of a tick are the queue, cut. -/
theorem LndNode.flatMap_cut {c : LndCfg V} {pending : List Gossip} {sub : Nat} (hpos : 0 < sub)
    (hsub : calculateSubBatchSize c.stagger c.trickle c.minBatchSize pending.length = some sub) :
    ((cut c pending).flatMap GossipBatch.gossips).Perm pending := by
  have hperm : ∀ l : List (List Gossip),
      ((l.map GossipBatch.fromMixed).flatMap GossipBatch.gossips).Perm l.flatten := by
    intro l
    induction l with
    | nil => exact .refl _
    | cons chunk l ih =>
      rw [List.map_cons, List.flatMap_cons, List.flatten_cons]
      exact (GossipBatch.fromMixed_perm chunk).append ih
  unfold cut
  rw [hsub]
  apply (hperm _).trans
  rw [flatten_chunks _ hpos]

/-- The events of a tick, without their delays. -/
theorem events_mapIdx (f : Nat → Nat) (rest : List GossipBatch) :
    (rest.mapIdx fun i b => (f i, Ev.sendBatch b)).map (·.2) = rest.map .sendBatch := by
  induction rest generalizing f with
  | nil => rfl
  | cons b rest ih => rw [List.mapIdx_cons, List.map_cons, List.map_cons, ih fun i => f (i + 1)]

theorem LndNode.tick_flows {c : LndCfg V} (h : LndNode.tick c n = some (n', e)) :
    Flows c.toNodeCfg [] (((cut c n.pending).take 1).map .batch) n n' e := by
  rcases tick_cut h with ⟨hnil, rfl, rfl⟩ | ⟨hne, sub, first, rest, hsub, hpos, hcut, rfl, rfl⟩
  · rw [hnil, cut_nil]
    exact Flows.of_same (by rfl) (by rfl)
  · have hflat := flatMap_cut hpos hsub
    rw [hcut, List.flatMap_cons] at hflat
    rw [hcut]
    refine Flows.broadcast ?_ rfl ?_
    · have hsched : ((rest.mapIdx fun i b => (c.trickle * ((i + 1) % 2 ^ 32), Ev.sendBatch b)).flatMap
          fun s => s.2.gossips) = rest.flatMap GossipBatch.gossips := by
        rw [← List.flatMap_map _ Ev.gossips, events_mapIdx, List.flatMap_map]
        rfl
      show ([] ++ _ ++ first.gossips).Perm (n.pending ++ [] ++ [])
      unfold Effects.scheduled
      rw [hsched, List.append_nil, List.append_nil, List.nil_append]
      exact List.perm_append_comm.trans hflat
    · show _ = _ + sizeSum first.gossips * _
      rw [← GossipBatch.wireSize_gossips]
      rfl

variable [MsgHash]

/-- The opening of an `originate` moves no gossip. -/
theorem stampOriginated_still {msg : Gossip} {r : Option Gossip}
    (h : n.stampOriginated c msg now = some (n₀, r)) : n₀.pending = n.pending ∧
      n₀.metricsLocal.bytesOutGossip = n.metricsLocal.bytesOutGossip ∧
      n.originated c msg now = r.toList := by
  obtain ⟨m, b, -, hp, -, hm⟩ := stampOriginated_spec h
  refine ⟨hp, ?_, by unfold Node.originated; rw [h]; rfl⟩
  rcases hm with ⟨-, -, hm⟩ | ⟨-, -, hm⟩
  · rw [hm]
  · rw [hm]

/-- An origination that is broadcast at once. -/
theorem Flows.originate {msg m : Gossip} (h : n.stampOriginated c msg now = some (n₀, some m))
    (he : e = { sends := c.broadcast (.single m), firstSeen := stampSeen [m] now }) :
    Flows c [] ((n.originated c msg now).map .single) n
      (n₀.addBytesOutGossip (m.sizeBytes * c.peers.outputs.length)) e := by
  obtain ⟨hp, hb, ho⟩ := stampOriginated_still h
  have hrec : NodeRun.recorded e = [m] := recorded_stampSeen (by rw [he])
  rw [ho]
  refine Flows.broadcast ?_ (by rw [he]) ?_
  · rw [hrec, he, List.append_nil]
    show (n₀.pending ++ [] ++ [m]).Perm _
    rw [hp, List.append_nil]
  · show n₀.metricsLocal.bytesOutGossip + _ = _
    rw [hb, WireMessage.gossips, sizeSum_singleton]

theorem Flows.not_originated {msg : Gossip} (h : n.stampOriginated c msg now = some (n₀, none)) :
    Flows c [] ((n.originated c msg now).map .single) n n₀ {} := by
  obtain ⟨hp, hb, ho⟩ := stampOriginated_still h
  rw [ho]
  exact Flows.of_same hp hb

theorem fire_flows {mc : ModelCfg V} {peerState : V → NodeState} {ev : Ev}
    (hmc : mc.isSketch = false) (h : mc.fire peerState ev now n = some (n', e)) :
    Flows mc.base ev.gossips (mc.issued ev now n) n n' e := by
  cases mc with
  | flooding c =>
    cases ev with
    | originate msg =>
      obtain ⟨⟨n₀, r⟩, hst, h⟩ := Option.bind_eq_some_iff.1 h
      cases r with
      | none => cases h; exact .not_originated hst
      | some m => cases h; exact .originate hst rfl
    | doSend msg =>
      cases h
      refine Flows.broadcast ?_ rfl ?_
      · simp [WireMessage.gossips, Effects.scheduled, NodeRun.recorded, Node.addBytesOutGossip]
      · rw [WireMessage.gossips, sizeSum_singleton]
        rfl
    | flushSummary => cases h; exact Flows.of_same (by rfl) (by rfl)
    | _ => cases h
  | cln c =>
    cases ev with
    | originate msg =>
      obtain ⟨⟨n₀, r⟩, hst, h⟩ := Option.bind_eq_some_iff.1 h
      cases r with
      | none => cases h; exact .not_originated hst
      | some m => cases h; exact .originate hst rfl
    | tick => exact ClnNode.tick_flows h
    | flushSummary => cases h; exact Flows.of_same (by rfl) (by rfl)
    | _ => cases h
  | lnd c =>
    cases ev with
    | originate msg =>
      obtain ⟨⟨n₀, r⟩, hst, h⟩ := Option.bind_eq_some_iff.1 h
      obtain ⟨hp, hb, -⟩ := stampOriginated_still hst
      cases r with
      | none => cases h; exact Flows.of_same hp hb
      | some m =>
        cases h
        refine ⟨?_, rfl, hb⟩
        rw [(recorded_stampSeen rfl : NodeRun.recorded _ = [m])]
        show (m :: n₀.pending ++ [] ++ []).Perm (n.pending ++ [] ++ [m])
        rw [hp, List.append_nil, List.append_nil, List.append_nil]
        exact (List.perm_append_singleton m n.pending).symm
    | tick => exact LndNode.tick_flows h
    | sendBatch b => exact LndNode.sendBatch_flows h
    | flushSummary => cases h; exact Flows.of_same (by rfl) (by rfl)
    | _ => cases h
  | sketch c => cases hmc

end Flows

/-! ## What flows through a run -/

namespace NodeRun

variable [MsgHash] {mc : ModelCfg V} {s s' : NodeRun V}

/-- Every gossip recorded as first seen is queued, scheduled or broadcast, once; what is broadcast
went to every peer once, and is counted for every peer. -/
structure Conserved (mc : ModelCfg V) (s : NodeRun V) : Prop where
  held : s.held = s.accepted
  sent : s.sent = s.broadcast.flatMap fun wire => mc.base.peers.outputs.map fun v => (v, wire)
  bytes : s.node.metricsLocal.bytesOutGossip =
    mc.base.peers.outputs.length * sizeSum (s.broadcast.flatMap WireMessage.gossips)

omit [MsgHash] in
theorem Conserved.start {n : Node} (hp : n.pending = []) (hb : n.metricsLocal.bytesOutGossip = 0) :
    Conserved mc { node := n } where
  held := by
    unfold NodeRun.held accepted
    rw [hp]
    rfl
  sent := rfl
  bytes := hb

omit [MsgHash] in
/-- A handler that flows conserves; `rest` are the scheduled events without the one that is due. -/
theorem Conserved.commit {inp : List Gossip} {out : List WireMessage} {rest : List Ev}
    {e : Effects V} (h : Conserved mc s) (hf : Flows mc.base inp out s.node s'.node e)
    (hrest : (s.scheduled.flatMap Ev.gossips : Multiset Gossip) =
      (inp : Multiset Gossip) + (rest.flatMap Ev.gossips : List Gossip))
    (hacc : s'.accepted = s.accepted + (recorded e : Multiset Gossip))
    (hsched : s'.scheduled = rest ++ e.schedules.map (·.2)) (hsent : s'.sent = s.sent ++ e.sends)
    (hbroad : s'.broadcast = s.broadcast ++ out) : Conserved mc s' := by
  refine ⟨?_, ?_, ?_⟩
  · have hheld := h.held
    have hflow := Multiset.coe_eq_coe.2 hf.held
    have he : (e.schedules.map (·.2)).flatMap Ev.gossips = e.scheduled := by
      unfold Effects.scheduled
      rw [List.flatMap_map]
    simp only [← Multiset.coe_add] at hflow
    unfold NodeRun.held at hheld ⊢
    rw [hacc, ← hheld, hsched, hbroad, List.flatMap_append, List.flatMap_append, he, hrest,
      ← Multiset.coe_add, ← Multiset.coe_add]
    calc _ = (s'.node.pending + e.scheduled + out.flatMap WireMessage.gossips : Multiset Gossip) +
          (rest.flatMap Ev.gossips : List Gossip) +
          (s.broadcast.flatMap WireMessage.gossips : List Gossip) := by abel
      _ = _ := by rw [hflow]; abel
  · rw [hsent, hbroad, h.sent, hf.sends, List.flatMap_append]
    rfl
  · rw [hbroad, hf.bytes, h.bytes, List.flatMap_append, sizeSum_append, Nat.mul_add]

theorem Conserved.step {op : NodeOp V} (h : Conserved mc s) (hmc : mc.isSketch = false)
    (hs : s.step mc op = some s') : Conserved mc s' := by
  cases op with
  | recv wire now =>
    obtain ⟨⟨n, e⟩, hr, hs⟩ := Option.bind_eq_some_iff.1 hs
    cases hs
    refine h.commit (recv_flows hmc hr) (zero_add _).symm ?_ rfl rfl (List.append_nil _).symm
    show (s.originated + (s.received ++ recorded e : List Gossip) : Multiset Gossip) = _
    rw [← Multiset.coe_add, ← add_assoc]
    rfl
  | fire ev peerState now =>
    simp only [NodeRun.step] at hs
    split at hs
    · obtain ⟨⟨n, e⟩, hr, hs⟩ := Option.bind_eq_some_iff.1 hs
      cases hs
      next hext =>
      have hnil : ev.gossips = [] := by cases ev <;> first | rfl | cases hext
      have hf := fire_flows hmc hr
      rw [hnil] at hf
      refine h.commit hf (zero_add _).symm ?_ rfl rfl rfl
      show ((s.originated ++ recorded e : List Gossip) + s.received : Multiset Gossip) = _
      rw [← Multiset.coe_add, add_right_comm]
      rfl
    · cases hs
  | due i peerState now =>
    obtain ⟨ev, hev, hs⟩ := Option.bind_eq_some_iff.1 hs
    obtain ⟨⟨n, e⟩, hr, hs⟩ := Option.bind_eq_some_iff.1 hs
    cases hs
    obtain ⟨hi, rfl⟩ := List.getElem?_eq_some_iff.1 hev
    refine h.commit (fire_flows hmc hr) ?_ ?_ rfl rfl rfl
    · have hp := (List.getElem_cons_eraseIdx_perm hi).flatMap_right Ev.gossips
      rw [Multiset.coe_add]
      exact Multiset.coe_eq_coe.2 hp.symm
    · show ((s.originated ++ recorded e : List Gossip) + s.received : Multiset Gossip) = _
      rw [← Multiset.coe_add, add_right_comm]
      rfl

/-- Nothing is lost or doubled in a run of a node that forwards what it receives. -/
theorem conserved_run {ops : List (NodeOp V)} (hmc : mc.isSketch = false) (h : Conserved mc s)
    (hr : run (NodeRun.step mc) s ops = some s') : Conserved mc s' :=
  run_invariant hr h fun _ _ _ h hs => h.step hmc hs

end NodeRun

end LnConv
