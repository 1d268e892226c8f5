import LnConv.Lnsim.Ticks
import LnConv.Netsim.EventQueue

/-!
# The loop of the simulator

`Start` takes the events from a heap. What an event does to the rest of the simulation depends
neither on the events that wait nor on their order: it only pushes further events. So every run
of the loop is a run in which one of the next events fires; and none is dated before the clock.
-/

namespace LnConv.Lnsim

open Netsim

variable {n k : Nat}

abbrev Waiting (n k : Nat) := Event n (LightningMessage k) (Ticker n k)

namespace Sim

def withQueue (s : Sim n k) (q : List (Waiting n k)) : Sim n k :=
  { s with net := { s.net with eq := q } }

@[simp] theorem withQueue_eq (s : Sim n k) (q : List (Waiting n k)) : (s.withQueue q).net.eq = q := rfl

@[simp] theorem withQueue_self (s : Sim n k) : s.withQueue s.net.eq = s := rfl

/-! ## What an event pushes -/

/-- Two states at `now` that differ in what was in the queue before, `a` and `b`. What was pushed
since is the same, and not dated before `now`; a broadcast is at its message's time, `due`. -/
structure Alike (now : Nat) (due : Fin k → Nat) (a b : List (Waiting n k)) (s t : Sim n k) : Prop where
  time : s.time = now
  due : ∀ m, (s.messages m).broadcastTime = due m
  length : a.length = b.length
  queue : ∃ es, s.net.eq = a ++ es ∧ t = s.withQueue (b ++ es) ∧
    ∀ e ∈ es, now ≤ e.time ∧ broadcastOf e = none

variable {W : World n k} {now : Nat} {due : Fin k → Nat} {a b : List (Waiting n k)}
  {s t : Sim n k}

namespace Alike

theorem nodes (h : Alike now due a b s t) : t.nodes = s.nodes := by
  obtain ⟨es, -, rfl, -⟩ := h.queue
  rfl

theorem messages (h : Alike now due a b s t) : t.messages = s.messages := by
  obtain ⟨es, -, rfl, -⟩ := h.queue
  rfl

theorem time' (h : Alike now due a b s t) : t.time = now := by
  obtain ⟨es, -, rfl, -⟩ := h.queue
  exact h.time

theorem modify (h : Alike now due a b s t) (v : Fin n) (f : LightningNode n k → LightningNode n k) :
    Alike now due a b (s.modify v f) (t.modify v f) := by
  obtain ⟨es, heq, rfl, hes⟩ := h.queue
  exact ⟨h.time, h.due, h.length, es, heq, rfl, hes⟩

theorem length_eq (h : Alike now due a b s t) : t.net.eq.length = s.net.eq.length := by
  obtain ⟨es, heq, rfl, -⟩ := h.queue
  rw [withQueue_eq, heq, List.length_append, List.length_append, h.length]

/-- A change beside the nodes' places in the queue. -/
theorem congr (h : Alike now due a b s t) {f : Sim n k → Sim n k}
    (hf : ∀ s q, f (s.withQueue q) = (f s).withQueue q) (heq : (f s).net.eq = s.net.eq)
    (htime : (f s).time = s.time)
    (hdue : ∀ m, ((f s).messages m).broadcastTime = (s.messages m).broadcastTime) :
    Alike now due a b (f s) (f t) := by
  obtain ⟨es, hs, rfl, hes⟩ := h.queue
  exact ⟨htime.trans h.time, fun m => (hdue m).trans (h.due m), h.length, es, heq.trans hs,
    hf .., hes⟩

/-- The same event is pushed to both queues. -/
theorem push (h : Alike now due a b s t) {net : Network n (LightningMessage k) (Ticker n k)}
    (hnet : net.eq = s.net.eq) {e : Waiting n k} (htime : now ≤ e.time) (he : broadcastOf e = none) :
    Follows (fun net net' => Alike now due a b { s with net := net } { t with net := net' })
      (net.push e) (({ net with eq := t.net.eq } : Network ..).push e) := by
  obtain ⟨es, heq, rfl, hes⟩ := h.queue
  unfold Network.push
  rw [hnet, ← h.length_eq]
  split
  · refine .some ⟨h.time, h.due, h.length, es ++ [e], ?_, ?_, fun e' he' => ?_⟩
    · rw [heq, List.append_assoc]
    · rw [← List.append_assoc]
      rfl
    · rcases List.mem_append.1 he' with he' | he'
      · exact hes e' he'
      · rw [List.mem_singleton.1 he']
        exact ⟨htime, he⟩
  · exact .none

theorem newTicker (h : Alike now due a b s t) {interval : Nat} {q : Ticker n k}
    (hq : ∀ m, q ≠ .broadcast m) :
    Follows (Alike now due a b) (s.newTicker interval 0 q) (t.newTicker interval 0 q) := by
  have he : broadcastOf (⟨s.time + interval - 0, .other q⟩ : Waiting n k) = none := by
    cases q with
    | broadcast m => exact absurd rfl (hq m)
    | _ => rfl
  have hnow : now ≤ s.time + interval - 0 := by
    rw [h.time]
    omega
  obtain ⟨es, -, rfl, -⟩ := h.queue
  exact (h.push rfl hnow he).bind fun net net' hnet => .some hnet

theorem pushMessageEvent (h : Alike now due a b s t) (hW : W.ArrivesLater) {me : Packet n k}
    {time : Nat} (htime : now ≤ time) :
    Follows (fun net net' => Alike now due a b { s with net := net } { t with net := net' })
      (s.net.pushMessageEvent W.calcArrivalTime me time)
      (t.net.pushMessageEvent W.calcArrivalTime me time) := by
  obtain ⟨es, -, rfl, -⟩ := h.queue
  unfold Network.pushMessageEvent
  refine h.push ?_ (htime.trans (hW ..)) ?_ <;> rfl

theorem sendWithHops (h : Alike now due a b s t) (hW : W.ArrivesLater) {currTime time : Nat}
    (htime : now ≤ time) {src dst : Fin n} {m : LightningMessage k} {hops : Nat} :
    Follows (Alike now due a b) (s.sendWithHops W currTime time src dst m hops)
      (t.sendWithHops W currTime time src dst m hops) := by
  have hhist : ∀ net net', Alike now due a b { s with net := net } { t with net := net' } →
      Follows (Alike now due a b)
        (some { s with net := net, history := { s.history with
          sent := s.history.sent ++ [⟨m, src, dst, hops + 1⟩] } })
        (some { t with net := net', history := { t.history with
          sent := t.history.sent ++ [⟨m, src, dst, hops + 1⟩] } }) := by
    intro net net' hnet
    refine .some (hnet.congr (f := fun s => { s with history := { s.history with
      sent := s.history.sent ++ [⟨m, src, dst, hops + 1⟩] } }) ?_ rfl rfl fun _ => rfl)
    exact fun _ _ => rfl
  unfold Sim.sendWithHops Network.sendMessageWithHops
  split
  · exact .none
  split
  · exact (h.pushMessageEvent hW htime).bind hhist
  · obtain ⟨es, -, rfl, -⟩ := h.queue
    exact (h.push rfl htime rfl).bind hhist

theorem send (h : Alike now due a b s t) (hW : W.ArrivesLater) {currTime time : Nat}
    (htime : now ≤ time) {src dst : Fin n} {m : LightningMessage k} :
    Follows (Alike now due a b) (s.send W currTime time src dst m)
      (t.send W currTime time src dst m) := h.sendWithHops hW htime

/-! ## Ticks -/

theorem scheduleStaggerTick (h : Alike now due a b s t) {v : Fin n} {currTime : Nat} :
    Follows (Alike now due a b) (s.scheduleStaggerTick W v currTime)
      (t.scheduleStaggerTick W v currTime) := by
  unfold Sim.scheduleStaggerTick
  rw [h.nodes]
  dsimp only
  split
  · refine .bind_same fun nextTick => ?_
    exact (h.newTicker fun m hm => by cases hm).bind fun s t h => .some (h.modify v _)
  · exact .some h

theorem scheduleReconcilTick (h : Alike now due a b s t) {v peerID : Fin n} {currTime : Nat} :
    Follows (Alike now due a b) (s.scheduleReconcilTick W v currTime peerID)
      (t.scheduleReconcilTick W v currTime peerID) := by
  unfold Sim.scheduleReconcilTick
  rw [h.nodes]
  refine .bind_same fun ticker => ?_
  split
  · exact .some h
  · refine .bind_same fun nextTick => ?_
    exact (h.modify v _).newTicker fun m hm => by cases hm

theorem scheduleReconcilTicks (h : Alike now due a b s t) {v : Fin n} {currTime : Nat} :
    Follows (Alike now due a b) (s.scheduleReconcilTicks W v currTime)
      (t.scheduleReconcilTicks W v currTime) := by
  unfold Sim.scheduleReconcilTicks
  rw [h.nodes]
  refine (Follows.foldlM (fun s t id _ h => h.scheduleReconcilTick) h).bind fun s t h => ?_
  exact Follows.foldlM (fun s t p _ h => h.scheduleReconcilTick) h

/-- What is collected is the same, and the states are alike. -/
def Batch (now : Nat) (due : Fin k → Nat) (a b : List (Waiting n k)) (x y : Batching n k) : Prop :=
  Alike now due a b x.sim y.sim ∧ y = { x with sim := y.sim }

theorem flushBatch {x y : Batching n k} (h : Batch now due a b x y) (hW : W.ArrivesLater) {v p : Fin n}
    {entrySize : Nat} : Follows (Batch now due a b) (Sim.flushBatch W now v p entrySize x)
      (Sim.flushBatch W now v p entrySize y) := by
  obtain ⟨hsim, hy⟩ := h
  rw [hy]
  unfold Sim.flushBatch
  dsimp only
  split
  · exact (hsim.send hW (Nat.le_add_right ..)).bind fun s t hst => .some ⟨hst, rfl⟩
  split
  · exact (hsim.send hW (Nat.le_add_right ..)).bind fun s t hst => .some ⟨hst, rfl⟩
  · exact .some ⟨hsim, rfl⟩

theorem trickle {x y : Batching n k} (h : Batch now due a b x y) (hW : W.ArrivesLater) {v p : Fin n}
    {batchSize : Int} : Follows (Batch now due a b) (Sim.trickle W now v p batchSize x)
      (Sim.trickle W now v p batchSize y) := by
  have hcurr : y.currBatch = x.currBatch := by rw [h.2]
  unfold Sim.trickle
  rw [hcurr]
  split
  · refine (flushBatch h hW).bind fun x y hxy => .some ⟨hxy.1, ?_⟩
    rw [hxy.2]
  · exact .some h

theorem staggerMessage {x y : Batching n k} (h : Batch now due a b x y) (hW : W.ArrivesLater)
    {v p : Fin n} {interval : Nat} {batchSize : Int} {m : Fin k} :
    Follows (Batch now due a b) (Sim.staggerMessage W now v p interval batchSize x m)
      (Sim.staggerMessage W now v p interval batchSize y m) := by
  unfold Sim.staggerMessage
  rw [h.1.nodes]
  dsimp only
  refine .bind_same fun ms => ?_
  split
  · exact .none
  split
  · exact .none
  refine (trickle h hW).bind fun x y ⟨hsim, hy⟩ => ?_
  rw [hy]
  dsimp only
  rw [hsim.messages]
  split
  · exact .some ⟨hsim, rfl⟩
  split
  · exact .some ⟨hsim, rfl⟩
  split
  · exact .some ⟨hsim, rfl⟩
  · exact (hsim.sendWithHops hW (Nat.le_add_right ..)).bind fun s t hst => .some ⟨hst, rfl⟩

theorem staggerPeer (h : Alike now due a b s t) (hW : W.ArrivesLater) {v p : Fin n} {interval : Nat}
    {batchSize : Int} {bqKeys : List (Fin k)} :
    Follows (Alike now due a b) (s.staggerPeer W now v interval batchSize bqKeys p)
      (t.staggerPeer W now v interval batchSize bqKeys p) := by
  unfold Sim.staggerPeer
  split
  · exact .none
  · have hstart : Batch now due a b ⟨0, 0, [], [], s⟩ ⟨0, 0, [], [], t⟩ := ⟨h, rfl⟩
    have hloop : Follows (Batch now due a b)
        (bqKeys.foldlM (Sim.staggerMessage W now v p interval batchSize) ⟨0, 0, [], [], s⟩)
        (bqKeys.foldlM (Sim.staggerMessage W now v p interval batchSize) ⟨0, 0, [], [], t⟩) :=
      Follows.foldlM (fun x y m _ hxy => staggerMessage hxy hW) hstart
    refine hloop.bind fun x y hxy => ?_
    exact (flushBatch hxy hW).bind fun x y hxy => .some hxy.1

theorem staggerTick (h : Alike now due a b s t) (hW : W.ArrivesLater) {v : Fin n} {interval : Nat} :
    Follows (Alike now due a b) (s.staggerTick W now v interval) (t.staggerTick W now v interval) := by
  unfold Sim.staggerTick
  rw [h.nodes]
  split
  · exact .none
  refine .bind_same fun batchSize => ?_
  split
  · exact .some (h.modify v _)
  · exact (Follows.foldlM (fun s t p _ h => h.staggerPeer hW) h).bind fun s t h => .some (h.modify v _)

theorem reconcileTick (h : Alike now due a b s t) (hW : W.ArrivesLater) {v peerID : Fin n} :
    Follows (Alike now due a b) (s.reconcileTick W now v peerID) (t.reconcileTick W now v peerID) := by
  unfold Sim.reconcileTick
  rw [h.nodes]
  refine .bind_same fun ticker => ?_
  have h := h.modify v fun ln =>
    { ln with gossipTickers := Function.update ln.gossipTickers peerID (some ⟨now, false⟩) }
  dsimp only
  rw [h.nodes]
  exact .bind_same fun set => h.send hW le_rfl

/-! ## Messages received -/

theorem deleteMessage (h : Alike now due a b s t) (m : Fin k) :
    Alike now due a b (s.deleteMessage m) (t.deleteMessage m) :=
  h.congr (f := (·.deleteMessage m)) (fun _ _ => rfl) rfl rfl fun _ => rfl

theorem firstSeen (h : Alike now due a b s t) (time : Nat) (m : Fin k) (v : Fin n) (hops : Nat) :
    Alike now due a b (s.firstSeen time m v hops) (t.firstSeen time m v hops) := by
  refine h.congr (f := (·.firstSeen time m v hops)) (fun _ _ => rfl) rfl rfl fun m' => ?_
  unfold Sim.firstSeen
  by_cases hm : m' = m
  · subst hm
    simp
  · simp [hm]

theorem handleUpdate (h : Alike now due a b s t) {time : Nat} {m : Fin k} {v sender : Fin n}
    {hops : Nat} : Follows (Alike now due a b) (s.handleUpdate W time m v sender hops)
      (t.handleUpdate W time m v sender hops) := by
  have hc := h.modify v (·.countSeen m)
  have hf := hc.firstSeen time m v hops
  unfold Sim.handleUpdate
  rw [h.messages, h.nodes]
  dsimp only
  split
  · exact .some h
  split
  · exact .some (hc.modify v _)
  split
  · exact .some hc
  rw [hf.messages]
  split
  · exact .some (hf.deleteMessage m)
  rw [hf.nodes]
  split
  · exact .some (hf.modify v _)
  split
  · exact ((hf.modify v _).modify v _).scheduleReconcilTicks
  · exact ((hf.modify v _).modify v _).scheduleStaggerTick

theorem handleUpdates (h : Alike now due a b s t) {time : Nat} {ms : List (Fin k)} {v sender : Fin n}
    {hops : Nat} : Follows (Alike now due a b)
      (ms.foldlM (fun s m => s.handleUpdate W time m v sender hops) s)
      (ms.foldlM (fun s m => s.handleUpdate W time m v sender hops) t) :=
  Follows.foldlM (fun _ _ _ _ h => h.handleUpdate) h

theorem sendQuery (h : Alike now due a b s t) (hW : W.ArrivesLater) {invs : List (ChannelInv k)}
    {v dst : Fin n} : Follows (Alike now due a b) (s.sendQuery W invs now v dst)
      (t.sendQuery W invs now v dst) := by
  unfold Sim.sendQuery
  rw [h.messages, h.nodes]
  dsimp only
  split
  · exact .some h
  · exact (h.modify v _).send hW le_rfl

theorem receiveQuery (h : Alike now due a b s t) (hW : W.ArrivesLater) {v sender : Fin n}
    {invs : List (ChannelInv k)} : Follows (Alike now due a b) (s.receiveQuery W now v sender invs)
      (t.receiveQuery W now v sender invs) := by
  have hanswer : Sim.answerInv W t v sender = Sim.answerInv W s v sender := by
    funext batch inv
    unfold Sim.answerInv Sim.answerFor
    rw [h.nodes]
  unfold Sim.receiveQuery
  rw [hanswer]
  split
  · exact .none
  refine .bind_same fun batch => ?_
  split
  · exact .some h
  · exact h.send hW le_rfl

theorem clearOnSuccess (h : Alike now due a b s t) {v peerID : Fin n} {success : Bool} :
    Follows (Alike now due a b) (s.clearOnSuccess v peerID success)
      (t.clearOnSuccess v peerID success) := by
  unfold Sim.clearOnSuccess Sim.clearSet
  rw [h.nodes]
  split
  · exact .bind_same fun set => .some (h.modify v _)
  · exact .some h

theorem handleSketch (h : Alike now due a b s t) (hW : W.ArrivesLater) {v sender : Fin n} :
    Follows (Alike now due a b) (s.handleSketch W now v sender) (t.handleSketch W now v sender) := by
  unfold Sim.handleSketch
  rw [h.nodes, h.messages]
  refine .bind_same fun lnSet => .bind_same fun senderSet => ?_
  refine (h.sendQuery hW).bind fun s t h => ?_
  rw [h.messages]
  exact (h.send hW (Nat.le_add_right ..)).bind fun s t h => .some (h.modify v _)

theorem receive (h : Alike now due a b s t) (hW : W.ArrivesLater) {me : Packet n k} :
    Follows (Alike now due a b) (s.receive W now me) (t.receive W now me) := by
  unfold Sim.receive
  dsimp only
  split
  · exact h.handleUpdate
  · exact h.receiveQuery hW
  · exact h.clearOnSuccess.bind fun s t h => h.handleUpdates
  · exact h.clearOnSuccess.bind fun s t h => h.sendQuery hW
  · exact h.handleSketch hW
  · unfold Sim.handleReconcilRequest
    rw [h.nodes]
    exact .bind_same fun lnSet => h.send hW le_rfl

/-! ## Broadcasts -/

theorem broadcastTo (h : Alike now due a b s t) (hW : W.ArrivesLater) {v : Fin n} {m : Fin k}
    {dests : Finset (Fin n)} (hdue : now ≤ due m) :
    Follows (Alike now due a b) (s.broadcastTo W v m dests) (t.broadcastTo W v m dests) := by
  unfold Sim.broadcastTo
  rw [h.messages]
  dsimp only
  have htime : now ≤ (s.messages m).broadcastTime := hdue.trans (h.due m).ge
  refine Follows.bind (Follows.foldlM (fun s₁ t₁ p _ h => ?_) h) fun s₁ t₁ h => ?_
  · rw [h.time, h.time']
    exact h.send hW htime
  · have hmark := h.modify v (·.markSeen m)
    have hseen := hmark.modify v fun ln => (ln.storeNew s₁.messages m).1
    rw [hmark.messages]
    exact .some (hseen.congr (f := fun s => { s with history := { s.history with
      origin := Function.update s.history.origin m (some v) } }) (fun _ _ => rfl) rfl rfl fun _ => rfl)

theorem modifyMessage (h : Alike now due a b s t) {m : Fin k} {f : Gossip n → Gossip n}
    (hf : ∀ g, (f g).broadcastTime = g.broadcastTime) :
    Alike now due a b (s.modifyMessage m f) (t.modifyMessage m f) := by
  refine h.congr (f := (·.modifyMessage m f)) (fun _ _ => rfl) rfl rfl fun m' => ?_
  unfold Sim.modifyMessage
  by_cases hm : m' = m
  · subst hm
    simp [hf]
  · simp [hm]

theorem broadcastChannelUpdate (h : Alike now due a b s t) (hW : W.ArrivesLater) {v : Fin n}
    {channel : Nat} {m : Fin k} (hdue : now ≤ due m) :
    Follows (Alike now due a b) (s.broadcastChannelUpdate W v channel m)
      (t.broadcastChannelUpdate W v channel m) := by
  unfold Sim.broadcastChannelUpdate
  refine .bind_same fun c => ?_
  have hm := h.modifyMessage (m := m) (f := fun g =>
    { g with channelID := c.1, type := .channelUpdate, lastUpdate := g.broadcastTime,
             origin := some v, direction := c.2 }) fun _ => rfl
  exact hm.broadcastTo hW hdue

theorem fireBroadcast (h : Alike now due a b s t) (hW : W.ArrivesLater) {l l' : Label n} {m : Fin k}
    (hdue : now ≤ due m) (hnode : l'.node = l.node) (hchannel : l'.channel = l.channel) :
    Follows (Alike now due a b) (s.fireBroadcast W l m) (t.fireBroadcast W l' m) := by
  unfold Sim.fireBroadcast
  rw [hnode, hchannel, h.messages]
  split
  · split
    · exact h.broadcastChannelUpdate hW hdue
    · exact .none
  · refine .bind_same fun v => ?_
    unfold Sim.broadcastMessage
    rw [h.messages, h.nodes]
    split
    · exact .some h
    · exact h.broadcastTo hW hdue

end Alike

/-- The same event fires, wherever it is in the queues. -/
theorem step_follows (hW : W.ArrivesLater) {l l' : Label n} {e : Waiting n k}
    (he : s.net.eq[l.event]? = some e) (he' : t.net.eq[l'.event]? = some e)
    (hnode : l'.node = l.node) (hchannel : l'.channel = l.channel)
    (hdue : ∀ m, broadcastOf e = some m → e.time ≤ due m)
    (h : Alike e.time due a b (s.pop l.event e) (t.pop l'.event e)) :
    Follows (Alike e.time due a b) (step W s l) (step W t l') := by
  unfold step
  rw [he, he']
  dsimp only [Option.bind_eq_bind, Option.bind_some]
  split
  · exact (h.pushMessageEvent hW le_rfl).bind fun net net' hnet => .some hnet
  · next me _ =>
    refine (h.congr (f := (·.arrive me)) (fun _ _ => rfl) rfl rfl fun _ => rfl).receive hW
  · exact h.staggerTick hW
  · exact h.reconcileTick hW
  · next m hd =>
    refine h.fireBroadcast hW (hdue m ?_) hnode hchannel
    unfold broadcastOf
    rw [hd]
  · exact .some h

/-! ## The first events -/

/-- Before the simulation starts. -/
structure Unstarted (W : World n k) (s : Sim n k) : Prop where
  time : s.time = 0
  messages : s.messages = W.source.message
  broadcasts : ∀ e ∈ s.net.eq, ∀ m, broadcastOf e = some m →
    e.time = (W.source.message m).broadcastTime

namespace Unstarted

variable {s' : Sim n k}

theorem newTicker (h : Unstarted W s) {interval offset : Nat} {q : Ticker n k}
    (hq : ∀ m, q = .broadcast m → interval = (W.source.message m).broadcastTime ∧ offset = 0)
    (hs : s.newTicker interval offset q = some s') : Unstarted W s' := by
  obtain ⟨net, hnet, hs⟩ := Option.bind_eq_some_iff.1 hs
  have heq := (Network.push_eq hnet).2.1
  cases hs
  refine ⟨h.time, h.messages, fun e he m hm => ?_⟩
  change e ∈ net.eq at he
  rw [heq] at he
  rcases List.mem_append.1 he with he | he
  · exact h.broadcasts e he m hm
  · rw [List.mem_singleton.1 he] at hm ⊢
    cases q with
    | broadcast m' =>
      cases hm
      obtain ⟨rfl, rfl⟩ := hq m rfl
      change s.time + _ - 0 = _
      rw [h.time, Nat.zero_add, Nat.sub_zero]
    | _ => cases hm

theorem modify (h : Unstarted W s) (v : Fin n) (f : LightningNode n k → LightningNode n k) :
    Unstarted W (s.modify v f) := ⟨h.time, h.messages, h.broadcasts⟩

theorem requestGossipFromNode (h : Unstarted W s) {v other : Fin n}
    (hs : s.requestGossipFromNode W v other = some s') : Unstarted W s' := by
  unfold Sim.requestGossipFromNode Sim.initReconcilTicker at hs
  dsimp only at hs
  split at hs
  · split at hs
    · cases hs
      exact ((h.modify other _).modify v _).modify other _
    · exact ((((h.modify other _).modify v _).modify other _).modify v _).newTicker
        (fun m hm => by cases hm) hs
  · cases hs
    exact h.modify other _

theorem initSyncers (h : Unstarted W s) (hs : s.initSyncers W = some s') : Unstarted W s' := by
  unfold Sim.initSyncers at hs
  split at hs
  · unfold Sim.spanningTree at hs
    split at hs
    · obtain ⟨b, hb, rfl⟩ := Option.map_eq_some_iff.1 hs
      have hkeep : ∀ node b p b', p ∈ W.peers node → Unstarted W b.sim →
          searchPeer W node b p = some b' → Unstarted W b'.sim := by
        intro node b p b' _ hb hp
        unfold searchPeer at hp
        split at hp
        · cases hp
          exact hb
        · obtain ⟨s₁, hs₁, hp⟩ := Option.bind_eq_some_iff.1 hp
          obtain ⟨s₂, hs₂, hs₁⟩ := Option.bind_eq_some_iff.1 hs₁
          cases hp
          exact (hb.requestGossipFromNode hs₂).requestGossipFromNode hs₁
      exact search_keeps (P := fun b => Unstarted W b.sim) (Q := fun _ b => Unstarted W b.sim)
        (fun _ _ _ _ h => h) hkeep (fun _ _ h => h) h hb
    · cases hs
  · exact foldlM_invariant (fun s c _ s' hs => hs.requestGossipFromNode) h hs

theorem makeBlackholes (h : Unstarted W s) (l : List (Fin n)) :
    Unstarted W (l.foldl makeBlackhole s) := by
  induction l generalizing s with
  | nil => exact h
  | cons v l ih => exact ih (h.modify v _)

theorem of_init (hs : Sim.init W = some s) : Unstarted W s := by
  obtain ⟨s₁, hs₁, hs⟩ := Option.bind_eq_some_iff.1 hs
  obtain ⟨s₂, hs₂, hs⟩ := Option.bind_eq_some_iff.1 hs
  have hnew : Unstarted W (new W) := ⟨rfl, rfl, fun e he => absurd he List.not_mem_nil⟩
  have h₁ : Unstarted W s₁ := by
    unfold initStaggerTickers at hs₁
    split at hs₁
    · exact foldlM_invariant (fun s v _ s' h hs => h.newTicker (fun m hm => by cases hm) hs) hnew hs₁
    · cases hs₁
      exact hnew
  obtain ⟨s₃, hs₃, hs⟩ := Option.bind_eq_some_iff.1 hs
  have h₃ : Unstarted W s₃ := by
    refine foldlM_invariant (fun s m _ s' h hs => h.newTicker (fun m' hm => ?_) hs)
      ((h₁.initSyncers hs₂).makeBlackholes W.blackholes) hs₃
    cases hm
    exact ⟨by rw [h.messages], rfl⟩
  exact injectPayments_invariant (P := Unstarted W)
    (fun _ _ _ _ _ h hs => h.newTicker (fun m hm => by cases hm) hs) h₃ hs

end Unstarted

end Sim

/-- The late line, with two payments. -/
def Sim.payingLine : World 4 1 :=
  { Sim.lateLine with paymentInterval := 1000, payments := [(0, 2), (1, 0)] }

/-! ## The loop -/

/-- The simulation of the source, with its queue in a heap; the queue of `sim` is not used. -/
structure Simulation (n k : Nat) where
  eq : EventQueue n (LightningMessage k) (Ticker n k)
  sim : Sim n k

namespace Simulation

variable (W : World n k)

/-- What is pushed before the simulation starts is pushed to the heap, in this order. -/
def init : Option (Simulation n k) :=
  (Sim.init W).map fun s => ⟨s.net.eq.foldl EventQueue.heapPush #[], s⟩

/-- One round of the loop of `Start`, with the picks that the event makes. An event dated before
the clock panics. What the event pushes is pushed to the heap, in this order. -/
def turn (s : Simulation n k) (pick : Fin n × Nat) : Option (Simulation n k) := do
  let (event, eq) ← s.eq.heapPop
  if event.time < s.sim.time then none
  else
    let sim ← (s.sim.withQueue (event.toEvent :: eq.events)).step W ⟨0, pick.1, pick.2⟩
    some ⟨(sim.net.eq.drop eq.size).foldl EventQueue.heapPush eq, sim⟩

/-- The loop is where `t` is, up to the order of the queue, and nothing is dated before the
clock. -/
structure Tracks (due : Fin k → Nat) (s : Simulation n k) (t : Sim n k) : Prop where
  wf : s.eq.Wf
  perm : s.eq.events.Perm t.net.eq
  rest : s.sim.withQueue t.net.eq = t
  future : ∀ e ∈ t.net.eq, t.time ≤ e.time
  times : ∀ m, (t.messages m).broadcastTime = due m
  broadcasts : ∀ e ∈ t.net.eq, ∀ m, Sim.broadcastOf e = some m → e.time = due m

variable {W} {due : Fin k → Nat} {s s' : Simulation n k} {t : Sim n k}

theorem heapPushes (es : List (Waiting n k)) {eq : EventQueue n (LightningMessage k) (Ticker n k)}
    (h : eq.Wf) : (es.foldl EventQueue.heapPush eq).Wf ∧
      (es.foldl EventQueue.heapPush eq).events.Perm (eq.events ++ es) := by
  induction es generalizing eq with
  | nil => exact ⟨h, by rw [List.append_nil]; exact .rfl⟩
  | cons e es ih =>
    obtain ⟨hwf, hperm⟩ := ih (h.heapPush e)
    refine ⟨hwf, hperm.trans ?_⟩
    have hone := (EventQueue.heapPush_perm h.indexed e).append_right es
    exact hone.trans List.perm_middle.symm

/-- No event popped is dated before the clock. -/
theorem Tracks.le_time (h : s.Tracks due t) {e : QueuedEvent n (LightningMessage k) (Ticker n k)}
    {eq : EventQueue n (LightningMessage k) (Ticker n k)} (hp : s.eq.heapPop = some (e, eq)) :
    s.sim.time ≤ e.time := by
  have hmem : e.toEvent ∈ t.net.eq :=
    (h.perm.symm.trans (h.wf.pops hp).perm).mem_iff.2 List.mem_cons_self
  have htime : t.time = s.sim.time := by rw [← h.rest]; rfl
  exact htime ▸ h.future _ hmem

/-- A round of the loop fires one of the next events. -/
theorem Tracks.turn (h : s.Tracks due t) (hW : W.ArrivesLater) {pick : Fin n × Nat}
    (hs : s.turn W pick = some s') : ∃ l t', (l.node, l.channel) = pick ∧ t.IsNext l ∧
      t.step W l = some t' ∧ s'.Tracks due t' := by
  obtain ⟨⟨e, eq⟩, hp, hs⟩ := Option.bind_eq_some_iff.1 hs
  dsimp only at hs
  split at hs
  · cases hs
  next hpast =>
  obtain ⟨sim, hsim, hs⟩ := Option.bind_eq_some_iff.1 hs
  cases hs
  have hpops := h.wf.pops hp
  obtain ⟨q, rfl⟩ : ∃ q, t = s.sim.withQueue q := ⟨_, h.rest.symm⟩
  have hperm : q.Perm (e.toEvent :: eq.events) := h.perm.symm.trans hpops.perm
  have hleast : ∀ e' ∈ q, e.time ≤ e'.time := by
    intro e' he'
    rcases List.mem_cons.1 (hperm.mem_iff.1 he') with rfl | he'
    · exact le_rfl
    · exact hpops.least e' he'
  obtain ⟨i, hi⟩ := List.mem_iff_getElem?.1 (hperm.mem_iff.2 List.mem_cons_self)
  have herase : (q.eraseIdx i).Perm eq.events := by
    obtain ⟨hlt, he⟩ := List.getElem?_eq_some_iff.1 hi
    exact ((he ▸ List.getElem_cons_eraseIdx_perm hlt).trans hperm).cons_inv
  have halike : Sim.Alike e.time due eq.events (q.eraseIdx i)
      ((s.sim.withQueue (e.toEvent :: eq.events)).pop 0 e.toEvent)
      ((s.sim.withQueue q).pop i e.toEvent) :=
    ⟨rfl, h.times, herase.length_eq.symm, [], (List.append_nil _).symm,
      by rw [List.append_nil]; rfl, fun _ he' => absurd he' List.not_mem_nil⟩
  have hmem : e.toEvent ∈ q := List.mem_of_getElem? hi
  have hfollows : Follows (Sim.Alike e.time due eq.events (q.eraseIdx i))
      ((s.sim.withQueue (e.toEvent :: eq.events)).step W ⟨0, pick.1, pick.2⟩)
      ((s.sim.withQueue q).step W ⟨i, pick.1, pick.2⟩) :=
    Sim.step_follows hW rfl hi rfl rfl (fun m hm => (h.broadcasts _ hmem m hm).le) halike
  obtain ⟨t', ht', halike'⟩ := hfollows sim hsim
  have htime' := halike'.time'
  obtain ⟨es, heq, rfl, hes⟩ := halike'.queue
  have hdrop : sim.net.eq.drop eq.size = es := by
    rw [heq, ← EventQueue.events_length, List.drop_left]
  obtain ⟨hwf, hpushed⟩ := heapPushes es hpops.wf
  rw [hdrop]
  refine ⟨⟨i, pick.1, pick.2⟩, _, rfl, ⟨e.toEvent, hi, h.future _ hmem, hleast⟩, ht', hwf,
    hpushed.trans (herase.symm.append_right es), rfl, fun e' he' => ?_, halike'.due,
    fun e' he' m hm => ?_⟩
  · rw [htime']
    rcases List.mem_append.1 he' with he' | he'
    · exact hleast e' (List.mem_of_mem_eraseIdx he')
    · exact (hes e' he').1
  · rcases List.mem_append.1 he' with he' | he'
    · exact h.broadcasts e' (List.mem_of_mem_eraseIdx he') m hm
    · rw [(hes e' he').2] at hm
      cases hm

theorem Tracks.turns (h : s.Tracks due t) (hW : W.ArrivesLater) {picks : List (Fin n × Nat)}
    (hs : run (Simulation.turn W) s picks = some s') :
    ∃ ls t', ls.map (fun l : Sim.Label n => (l.node, l.channel)) = picks ∧
      Steps (Sim.step W) Sim.IsNext t ls t' ∧ s'.Tracks due t' :=
  run_simulated (fun _ _ _ _ h hs => h.turn hW hs) h hs

theorem tracks_init (hs : init W = some s) : ∃ t, Sim.init W = some t ∧
    s.Tracks (fun m => (W.source.message m).broadcastTime) t := by
  obtain ⟨t, ht, rfl⟩ := Option.map_eq_some_iff.1 hs
  have hun := Sim.Unstarted.of_init ht
  obtain ⟨hwf, hperm⟩ := heapPushes t.net.eq EventQueue.wf_empty
  refine ⟨t, ht, hwf, hperm, rfl, fun e _ => ?_, fun m => by rw [hun.messages], hun.broadcasts⟩
  rw [hun.time]
  exact Nat.zero_le _

/-- However many rounds the loop has made, it made a run in which always one of the next events
fired. It is where this run is, up to the order of the queue; the heap is in order, every event
in it has its index, and none is dated before the clock, so that the loop does not panic for it. -/
theorem start_refines {s₀ : Simulation n k} {picks : List (Fin n × Nat)} (hW : W.ArrivesLater)
    (h₀ : init W = some s₀) (h : run (turn W) s₀ picks = some s) :
    ∃ t₀ ls t, Sim.init W = some t₀ ∧ Steps (Sim.step W) Sim.IsNext t₀ ls t ∧
      ls.map (fun l => (l.node, l.channel)) = picks ∧ s.sim.withQueue t.net.eq = t ∧
      s.eq.events.Perm t.net.eq ∧ s.eq.Wf ∧
      ∀ e eq, s.eq.heapPop = some (e, eq) → s.sim.time ≤ e.time := by
  obtain ⟨t₀, ht₀, htracks⟩ := tracks_init h₀
  obtain ⟨ls, t, hls, hsteps, htracks'⟩ := htracks.turns hW h
  exact ⟨t₀, ls, t, ht₀, hsteps, hls, htracks'.rest, htracks'.perm, htracks'.wf,
    fun e eq hp => htracks'.le_time hp⟩

/-- The update goes along the line, both payments are made, and nothing is left to do. -/
theorem turns_payingLine : ∃ s₀ s, init Sim.payingLine = some s₀ ∧
    run (turn Sim.payingLine) s₀ (List.replicate 12 (0, 0)) = some s ∧ s.eq.size = 0 := by
  have hrun : ((init Sim.payingLine).any fun s₀ =>
      (run (turn Sim.payingLine) s₀ (List.replicate 12 (0, 0))).any fun s => s.eq.size == 0) = true := by
    decide +kernel
  obtain ⟨s₀, h₀, hrun⟩ := (Option.any_eq_true _ _).1 hrun
  obtain ⟨s, hs, hsize⟩ := (Option.any_eq_true _ _).1 hrun
  exact ⟨s₀, s, h₀, hs, beq_iff_eq.1 hsize⟩

theorem start_refines_payingLine : ∃ s₀ s, init Sim.payingLine = some s₀ ∧
    run (turn Sim.payingLine) s₀ (List.replicate 12 (0, 0)) = some s ∧ s.eq.size = 0 ∧
    ∃ t₀ ls t, Sim.init Sim.payingLine = some t₀ ∧
      Steps (Sim.step Sim.payingLine) Sim.IsNext t₀ ls t ∧ s.sim.withQueue t.net.eq = t := by
  obtain ⟨s₀, s, h₀, hs, hsize⟩ := turns_payingLine
  obtain ⟨t₀, ls, t, ht₀, hsteps, -, hrest, -⟩ :=
    start_refines (fun _ _ time _ _ _ => Nat.le_add_right time 100) h₀ hs
  exact ⟨s₀, s, h₀, hs, hsize, t₀, ls, t, ht₀, hsteps, hrest⟩

end Simulation

end LnConv.Lnsim
