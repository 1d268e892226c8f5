import LnConv.Lnsim.Node

/-!
# The simulator

The nodes, the messages of the run and the event queue. A handler is a function of the state,
`none` is a panic. The random picks of a run are parameters of the world, or of the step that
makes them.
-/

namespace LnConv.Lnsim

open Netsim

structure GossipAlgorithm where
  staggerTimer : Nat
  minBatchSize : Int
  reconcilTimer : Nat
  trickleTimer : Nat
  shouldTrickle : Bool
  spanningTree : Bool
  sendInvs : Bool
  sendBatchUpdates : Bool

/-- A channel of the graph file; `AddChannel` panics on a channel of a node with itself. -/
structure GraphChannel (n : Nat) where
  node1 : Fin n
  node2 : Fin n
  ne : node1 ≠ node2

/-- What `ReadMessages` takes from a row of the message file. -/
structure Record (n : Nat) where
  broadcastTime : Nat
  type : GossipType
  direction : Fin 2
  channelID : Nat
  origin : Fin n
  lastUpdate : Nat
  isKeepalive : Bool

/-- The messages are generated with random times, or read from a file. -/
inductive Source (n k : Nat) where
  | generated (time : Fin k → Nat)
  | replay (record : Fin k → Record n)

namespace Source

variable {n k : Nat}

def isGenerated : Source n k → Bool
  | .generated _ => true
  | .replay _ => false

/-- A generated message becomes an update when it is broadcast. -/
def message : Source n k → Fin k → Gossip n
  | .generated time, m =>
    { seen := 1, dataSize := .ofNat updateSize, broadcastTime := time m,
      type := .channelAnnouncement, direction := 0, channelID := 0, origin := none,
      lastUpdate := 0, isKeepalive := false }
  | .replay record, m =>
    let r := record m
    { seen := 0, dataSize := 0, broadcastTime := r.broadcastTime, type := r.type,
      direction := r.direction, channelID := r.channelID, origin := some r.origin,
      lastUpdate := r.lastUpdate, isKeepalive := r.isKeepalive }

end Source

/-- What a run is given: the configuration, the files, and the random picks of `New`. -/
structure World (n k : Nat) where
  algo : GossipAlgorithm
  noKeepalives : Bool
  source : Source n k
  channels : List (GraphChannel n)
  /-- Further outbound connections, made outside of spanning-tree mode. -/
  connections : List (Fin n × Fin n)
  /-- A node, and a peer it requests gossip from outside of spanning-tree mode. -/
  syncers : List (Fin n × Fin n)
  blackholes : List (Fin n)
  /-- A `rand.Intn(StaggerTimer - 1)`, which panics on a shorter timer. -/
  tickOffset : Fin n → Nat
  tickOffset_lt : ∀ v, tickOffset v + 1 < algo.staggerTimer
  bandwidth : Fin n → Bandwidth
  calcArrivalTime : ArrivalTime
  /-- From the remote and the local set's size, computed in floating point. -/
  estimateCapacity : Nat → Nat → Nat
  paymentInterval : Nat
  /-- The source and the destination of each payment. -/
  payments : List (Fin n × Fin n)

namespace World

variable {n k : Nat} (W : World n k)

/-- A channel for each pair of two nodes. -/
def channelsOf (pairs : List (Fin n × Fin n)) : List (GraphChannel n) :=
  pairs.filterMap fun c => if h : c.1 ≠ c.2 then some ⟨c.1, c.2, h⟩ else none

/-- Nodes with no connections beside their channels, instant messages and no payments. -/
def plain (algo : GossipAlgorithm) (h : 1 < algo.staggerTimer) (source : Source n k)
    (channels : List (GraphChannel n)) (syncers : List (Fin n × Fin n)) : World n k where
  algo := algo
  noKeepalives := false
  source := source
  channels := channels
  connections := []
  syncers := syncers
  blackholes := []
  tickOffset _ := 0
  tickOffset_lt _ := h
  bandwidth _ := ⟨1000000, 1000000⟩
  calcArrivalTime := instant
  estimateCapacity remoteSetSize localSetSize :=
    max remoteSetSize localSetSize - min remoteSetSize localSetSize + 1
  paymentInterval := 0
  payments := []

def connectNodes (peers : Fin n → Finset (Fin n)) (c : Fin n × Fin n) : Fin n → Finset (Fin n) :=
  if c.2 ∈ peers c.1 ∨ c.1 ∈ peers c.2 then peers
  else
    let peers := Function.update peers c.1 (insert c.2 (peers c.1))
    Function.update peers c.2 (insert c.1 (peers c.2))

def peers : Fin n → Finset (Fin n) :=
  let extra := if W.algo.spanningTree then [] else W.connections
  (W.channels.map (fun c => (c.node1, c.node2)) ++ extra).foldl connectNodes fun _ => ∅

/-- The channels of a node, with their ids and the node's direction. -/
def nodeChannels (v : Fin n) : List (Nat × Fin 2) :=
  W.channels.zipIdx.filterMap fun c =>
    if v = c.1.node1 then some (c.2, 0) else if v = c.1.node2 then some (c.2, 1) else none

end World

structure PaymentEvent (n : Nat) where
  src : Fin n
  dst : Fin n
  amount : UInt64
  deriving DecidableEq

/-- What waits in the queue beside the messages: a node's stagger tick, its reconcile tick for a
peer, the broadcast of a message, and a payment. -/
inductive Ticker (n k : Nat) where
  | stagger (v : Fin n) (interval : Nat)
  | reconcil (v peerID : Fin n)
  | broadcast (m : Fin k)
  | payment (pe : PaymentEvent n)
  deriving DecidableEq

structure SeenRow (n k : Nat) where
  timestamp : Nat
  nodeID : Fin n
  messageID : Fin k
  hops : Nat

/-- A message on its way between two nodes. -/
abbrev Packet (n k : Nat) := MessageEvent n (LightningMessage k)

/-- What has happened; no code reads it. -/
structure History (n k : Nat) where
  sent : List (Packet n k)
  received : List (Packet n k)
  /-- The node that broadcast a message. -/
  origin : Fin k → Option (Fin n)
  deleted : Finset (Fin k)

structure Sim (n k : Nat) where
  net : Network n (LightningMessage k) (Ticker n k)
  time : Nat
  nodes : Fin n → LightningNode n k
  messages : Fin k → Gossip n
  seenLogger : List (SeenRow n k)
  history : History n k

/-- The first tick that is not before `currTime`, `none` if there is none. -/
def nextTickFrom (currTime tickInterval : Nat) : Nat → Nat → Option Nat
  | 0, nextTick => if nextTick < currTime then none else some nextTick
  | fuel + 1, nextTick =>
    if nextTick < currTime then nextTickFrom currTime tickInterval fuel (nextTick + tickInterval)
    else some nextTick

/-- With no interval the source loops for ever. -/
def getNextTick (currTime lastTick tickInterval : Nat) : Option Nat := do
  let nextTick ← nextTickFrom currTime tickInterval currTime (lastTick + tickInterval)
  if tickInterval < nextTick - currTime then none else some nextTick

/-- `none` is a division by zero. -/
def calculateSubBatchSize (totalDelay subBatchDelay : Nat) (minimumBatchSize : Int)
    (batchSize : Nat) : Option Int :=
  if totalDelay < subBatchDelay then some batchSize
  else if totalDelay = 0 then none
  else
    let subBatchSize : Int := ↑((batchSize * subBatchDelay + totalDelay - 1) / totalDelay)
    some (if subBatchSize < minimumBatchSize then minimumBatchSize else subBatchSize)

namespace Sim

variable {n k : Nat}

def modify (s : Sim n k) (v : Fin n) (f : LightningNode n k → LightningNode n k) : Sim n k :=
  { s with nodes := Function.update s.nodes v (f (s.nodes v)) }

@[simp] theorem modify_self (s : Sim n k) (v : Fin n) (f : LightningNode n k → LightningNode n k) :
    (s.modify v f).nodes v = f (s.nodes v) := Function.update_self v _ s.nodes

theorem modify_of_ne (s : Sim n k) {v w : Fin n} (f : LightningNode n k → LightningNode n k)
    (h : w ≠ v) : (s.modify v f).nodes w = s.nodes w := Function.update_of_ne h _ s.nodes

/-- What a change leaves alone is the same at every node. -/
theorem modify_congr {α : Type} {g : LightningNode n k → α} {s : Sim n k} {v : Fin n}
    {f : LightningNode n k → LightningNode n k} (hf : g (f (s.nodes v)) = g (s.nodes v)) (w : Fin n) :
    g ((s.modify v f).nodes w) = g (s.nodes w) := by
  by_cases hw : w = v
  · subst hw
    rw [modify_self, hf]
  · rw [modify_of_ne _ _ hw]

theorem modify_modify (s : Sim n k) (v : Fin n) (f g : LightningNode n k → LightningNode n k) :
    (s.modify v f).modify v g = s.modify v fun ln => g (f ln) := by
  unfold modify
  dsimp only
  rw [Function.update_self, Function.update_idem]

def modifyMessage (s : Sim n k) (m : Fin k) (f : Gossip n → Gossip n) : Sim n k :=
  { s with messages := Function.update s.messages m (f (s.messages m)) }

def newTicker (s : Sim n k) (interval offset : Nat) (q : Ticker n k) : Option (Sim n k) := do
  let net ← s.net.push ⟨s.time + interval - offset, .other q⟩
  some { s with net := net }

variable (W : World n k)

def sendWithHops (s : Sim n k) (currTime time : Nat) (src dst : Fin n) (m : LightningMessage k)
    (hops : Nat) : Option (Sim n k) := do
  let net ← s.net.sendMessageWithHops W.calcArrivalTime currTime time src dst m hops
  let history := { s.history with sent := s.history.sent ++ [⟨m, src, dst, hops + 1⟩] }
  some { s with net := net, history := history }

def send (s : Sim n k) (currTime time : Nat) (src dst : Fin n) (m : LightningMessage k) :
    Option (Sim n k) := s.sendWithHops W currTime time src dst m 0

/-! ## Stagger ticks -/

def scheduleStaggerTick (s : Sim n k) (v : Fin n) (currTime : Nat) : Option (Sim n k) :=
  let ln := s.nodes v
  if W.algo.reconcilTimer = 0 ∧ ln.willTick = false then do
    let firstTick := W.algo.staggerTimer - ln.tickOffset
    let timeSinceFirstTick := currTime - firstTick
    let timesTicked := timeSinceFirstTick / W.algo.staggerTimer + 1
    let lastTick := timesTicked * W.algo.staggerTimer - ln.tickOffset
    let nextTick ← getNextTick currTime lastTick W.algo.staggerTimer
    let interval := nextTick - currTime
    let s ← s.newTicker interval 0 (.stagger v interval)
    some (s.modify v fun ln => { ln with willTick := true })
  else some s

/-- The batch or the entries collected for one peer. -/
structure Batching (n k : Nat) where
  currBatch : Nat
  timeOffset : Nat
  batch : List (Fin k)
  invs : List (ChannelInv k)
  sim : Sim n k

/-- What is collected is sent. In the middle of a queue an entry counts `InvSize` bytes, at its
end 17. -/
def flushBatch (time : Nat) (v p : Fin n) (entrySize : Nat) (b : Batching n k) :
    Option (Batching n k) :=
  if W.algo.sendBatchUpdates ∧ b.batch ≠ [] then do
    let m := ⟨.channelUpdateBatch b.batch false false, .ofNat (updateSize * b.batch.length)⟩
    let s ← b.sim.send W time (time + b.timeOffset) v p m
    some { b with batch := [], sim := s }
  else if W.algo.sendInvs ∧ b.invs ≠ [] then do
    let m := ⟨.channelInvs b.invs false ∅, .ofNat (entrySize * b.invs.length)⟩
    let s ← b.sim.send W time (time + b.timeOffset) v p m
    some { b with invs := [], sim := s }
  else some b

/-- A full batch is sent, and what follows is sent later. -/
def trickle (time : Nat) (v p : Fin n) (batchSize : Int) (b : Batching n k) :
    Option (Batching n k) :=
  if W.algo.shouldTrickle ∧ (b.currBatch : Int) = batchSize then do
    let b ← flushBatch W time v p invSize b
    some { b with timeOffset := b.timeOffset + W.algo.trickleTimer, currBatch := 0 }
  else some b

/-- One message of the queue. It counts for the batch also when it is not for this peer. -/
def staggerMessage (time : Nat) (v p : Fin n) (interval : Nat) (batchSize : Int)
    (b : Batching n k) (m : Fin k) : Option (Batching n k) := do
  let ln := b.sim.nodes v
  let ms ← ln.bq m
  if (ln.metaData m).broadcast then none
  else if interval < time - ms.arrivalTime then none
  else
    let b ← trickle W time v p batchSize b
    let b := { b with currBatch := b.currBatch + 1 }
    let g := b.sim.messages m
    if p ∈ ms.senders then some b
    else if W.algo.sendBatchUpdates then some { b with batch := b.batch ++ [m] }
    else if W.algo.sendInvs then some { b with invs := b.invs ++ [g.inv m] }
    else do
      let s ← b.sim.sendWithHops W time (time + b.timeOffset) v p ⟨.gossip m, g.dataSize⟩ ms.hops
      some { b with sim := s }

def staggerPeer (time : Nat) (v : Fin n) (interval : Nat) (batchSize : Int) (bqKeys : List (Fin k))
    (s : Sim n k) (p : Fin n) : Option (Sim n k) :=
  if p = v then none
  else do
    let b ← bqKeys.foldlM (staggerMessage W time v p interval batchSize) ⟨0, 0, [], [], s⟩
    let b ← flushBatch W time v p 17 b
    some b.sim

def staggerTick (s : Sim n k) (time : Nat) (v : Fin n) (interval : Nat) : Option (Sim n k) :=
  if 0 < W.algo.reconcilTimer then none
  else do
    let ln := s.nodes v
    let bqKeys := (List.finRange k).filter fun m => (ln.bq m).isSome
    let batchSize ← calculateSubBatchSize interval W.algo.trickleTimer W.algo.minBatchSize
      bqKeys.length
    if bqKeys = [] then some (s.modify v fun ln => { ln with willTick := false })
    else do
      let s ← (sorted ln.gossipPeers).foldlM (staggerPeer W time v interval batchSize bqKeys) s
      some (s.modify v LightningNode.clearQueue)

/-! ## Reconcile ticks -/

def reconcileTick (s : Sim n k) (time : Nat) (v peerID : Fin n) : Option (Sim n k) := do
  let _ ← (s.nodes v).gossipTickers peerID
  let s := s.modify v fun ln =>
    { ln with gossipTickers := Function.update ln.gossipTickers peerID (some ⟨time, false⟩) }
  let set ← (s.nodes v).reconcilSets peerID
  s.send W time time v peerID ⟨.reconcilRequest set.card, 8⟩

def scheduleReconcilTick (s : Sim n k) (v : Fin n) (currTime : Nat) (peerID : Fin n) :
    Option (Sim n k) := do
  let ln := s.nodes v
  let t ← ln.gossipTickers peerID
  if t.willTick then some s
  else do
    let nextTick ← getNextTick currTime t.lastTicked (W.algo.reconcilTimer * ln.numTickers)
    let s := s.modify v fun ln =>
      { ln with
        gossipTickers := Function.update ln.gossipTickers peerID (some { t with willTick := true }) }
    s.newTicker (nextTick - currTime) 0 (.reconcil v peerID)

def scheduleReconcilTicks (s : Sim n k) (v : Fin n) (currTime : Nat) : Option (Sim n k) := do
  let ln := s.nodes v
  let ids := sorted (Finset.univ.filter fun p => (ln.gossipTickers p).isSome)
  let s ← ids.foldlM (fun s id => s.scheduleReconcilTick W v currTime id) s
  (sorted ln.gossipPeers).foldlM (fun s p => s.scheduleReconcilTick W p currTime v) s

/-! ## Messages received -/

def deleteMessage (s : Sim n k) (m : Fin k) : Sim n k :=
  { s with
    nodes := fun v => (s.nodes v).cleanup m
    history := { s.history with deleted := insert m s.history.deleted } }

/-- The first time that a node sees a message: a row is logged, and the message counts it. -/
def firstSeen (s : Sim n k) (time : Nat) (m : Fin k) (v : Fin n) (hops : Nat) : Sim n k :=
  let g := s.messages m
  { s with
    seenLogger := s.seenLogger ++ [⟨time - g.broadcastTime, v, m, hops⟩]
    messages := Function.update s.messages m { g with seen := g.seen + 1 } }

def handleUpdate (s : Sim n k) (time : Nat) (m : Fin k) (v sender : Fin n) (hops : Nat) :
    Option (Sim n k) :=
  if n ≤ (s.messages m).seen then some s
  else
    let isNew := (s.nodes v).isNewMessage m
    let s := s.modify v (·.countSeen m)
    if !isNew && W.algo.reconcilTimer == 0 then some (s.modify v (·.noteSender m sender hops))
    else if !isNew then some s
    else
      let s := s.firstSeen time m v hops
      if n ≤ (s.messages m).seen then some (s.deleteMessage m)
      else
        let (ln, replace, ok) := (s.nodes v).storeNew s.messages m
        let s := s.modify v fun _ => ln
        if !ok then some s
        else if 0 < W.algo.reconcilTimer then
          let s := s.modify v (·.addMessageToReconcilSets replace m sender)
          s.scheduleReconcilTicks W v time
        else
          let s := s.modify v (·.enqueue m ⟨{sender}, hops, time⟩)
          s.scheduleStaggerTick W v time

def sendQuery (s : Sim n k) (invs : List (ChannelInv k)) (time : Nat) (v dst : Fin n) :
    Option (Sim n k) :=
  let sendInvs := invs.filter ((s.nodes v).asks s.messages)
  if sendInvs = [] then some s
  else
    let s := s.modify v (·.request sendInvs)
    s.send W time time v dst ⟨.channelQuery sendInvs, .ofNat (invSize * sendInvs.length)⟩

/-- The message an entry of a query is answered with: the latest update of the channel, whatever
the entry names. -/
def answerFor (s : Sim n k) (v : Fin n) (inv : ChannelInv k) : Option (Fin k) :=
  if inv.isNotAnUpdate then some inv.msgID
  else (s.nodes v).latest inv.channelID inv.direction

/-- With reconciliation, what the other node has seen is not sent. -/
def answerInv (s : Sim n k) (v sender : Fin n) (batch : List (Fin k)) (inv : ChannelInv k) :
    Option (List (Fin k)) := do
  let m ← s.answerFor v inv
  if !inv.isNotAnUpdate && decide (0 < W.algo.reconcilTimer) &&
      decide (0 < ((s.nodes sender).metaData m).count) then some batch
  else some (batch ++ [m])

def receiveQuery (s : Sim n k) (time : Nat) (v sender : Fin n) (invs : List (ChannelInv k)) :
    Option (Sim n k) :=
  if invs = [] then none
  else do
    let batch ← invs.foldlM (answerInv W s v sender) []
    if batch = [] then some s
    else
      s.send W time time v sender
        ⟨.channelUpdateBatch batch false true, .ofNat (updateSize * batch.length)⟩

/-- `Clear` on the set for a peer, `none` if there is no set. -/
def clearSet (s : Sim n k) (v peerID : Fin n) : Option (Sim n k) := do
  let _ ← (s.nodes v).reconcilSets peerID
  some (s.modify v (·.clear peerID))

def clearOnSuccess (s : Sim n k) (v peerID : Fin n) (success : Bool) : Option (Sim n k) :=
  if success then s.clearSet v peerID else some s

def handleReconcilRequest (s : Sim n k) (time : Nat) (v sender : Fin n) (setSize : Nat) :
    Option (Sim n k) := do
  let lnSet ← (s.nodes v).reconcilSets sender
  let c := W.estimateCapacity setSize lnSet.card
  s.send W time time v sender ⟨.reconcilSketch, .ofNat (c * invSize)⟩

/-- The ids only `other` has, and those only `set` has. -/
def diff (set other : Finset (Fin k)) : List (Fin k) × List (Fin k) :=
  (sorted (other \ set), sorted (set \ other))

/-- Both live sets are compared, and the own set is cleared; the other end clears its set when
the success message arrives. -/
def handleSketch (s : Sim n k) (time : Nat) (v sender : Fin n) : Option (Sim n k) := do
  let lnSet ← (s.nodes v).reconcilSets sender
  let senderSet ← (s.nodes sender).reconcilSets v
  let (needIDs, haveIDs) := diff lnSet senderSet
  let s ← s.sendQuery W (needIDs.map fun m => (s.messages m).inv m) time v sender
  let haveInvs := haveIDs.map fun m => (s.messages m).inv m
  let s ← s.send W time (time + 2) v sender
    ⟨.channelInvs haveInvs true senderSet, .ofNat (1 + invSize * haveIDs.length)⟩
  some (s.modify v (·.clear sender))

def receive (s : Sim n k) (time : Nat) (me : Packet n k) : Option (Sim n k) :=
  let v := me.receiver
  match me.m.body with
  | .gossip m => s.handleUpdate W time m v me.sender me.hops
  | .channelQuery invs => s.receiveQuery W time v me.sender invs
  | .channelUpdateBatch batch success _ => do
    let s ← s.clearOnSuccess v me.sender success
    batch.foldlM (fun s m => s.handleUpdate W time m v me.sender 0) s
  | .channelInvs invs success _ => do
    let s ← s.clearOnSuccess v me.sender success
    s.sendQuery W invs time v me.sender
  | .reconcilSketch => s.handleSketch W time v me.sender
  | .reconcilRequest setSize => s.handleReconcilRequest W time v me.sender setSize

/-! ## Broadcasts -/

/-- The message goes to the given nodes, and its origin has seen it. -/
def broadcastTo (s : Sim n k) (v : Fin n) (m : Fin k) (dests : Finset (Fin n)) :
    Option (Sim n k) := do
  let g := s.messages m
  let s ← (sorted dests).foldlM
    (fun s p => s.send W s.time g.broadcastTime v p ⟨.gossip m, g.dataSize⟩) s
  let s := s.modify v (·.markSeen m)
  let s := s.modify v fun ln => (ln.storeNew s.messages m).1
  let history := { s.history with origin := Function.update s.history.origin m (some v) }
  some { s with history := history }

/-- The message becomes an update of one of the node's channels; it goes to all peers. -/
def broadcastChannelUpdate (s : Sim n k) (v : Fin n) (channel : Nat) (m : Fin k) :
    Option (Sim n k) := do
  let (channelID, direction) ← (W.nodeChannels v)[channel]?
  let s := s.modifyMessage m fun g =>
    { g with channelID := channelID, type := .channelUpdate, lastUpdate := g.broadcastTime,
             origin := some v, direction := direction }
  s.broadcastTo W v m (W.peers v)

def broadcastMessage (s : Sim n k) (v : Fin n) (m : Fin k) : Option (Sim n k) :=
  if W.noKeepalives && (s.messages m).isKeepalive then some s
  else s.broadcastTo W v m
    (if W.algo.spanningTree then (s.nodes v).gossipPeers else W.peers v)

/-! ## The simulation -/

def makeBlackhole (s : Sim n k) (v : Fin n) : Sim n k :=
  s.modify v fun ln => { ln with gossipPeers := ∅ }

def initStaggerTicker (s : Sim n k) (v : Fin n) : Option (Sim n k) :=
  s.newTicker W.algo.staggerTimer (s.nodes v).tickOffset (.stagger v W.algo.staggerTimer)

def initReconcilTicker (s : Sim n k) (v p : Fin n) : Option (Sim n k) :=
  if W.algo.reconcilTimer = 0 then some s
  else
    let s := s.modify v fun ln =>
      { ln with gossipTickers := Function.update ln.gossipTickers p (some ⟨0, true⟩) }
    s.newTicker (((s.nodes v).numTickers - 1) * W.algo.reconcilTimer + 1) 0 (.reconcil v p)

/-- `v` requests the gossip of `other`. -/
def requestGossipFromNode (s : Sim n k) (v other : Fin n) : Option (Sim n k) :=
  let s := s.modify other fun ln => { ln with gossipPeers := insert v ln.gossipPeers }
  if 0 < W.algo.reconcilTimer then
    let s := s.modify v (·.clear other)
    let s := s.modify other (·.clear v)
    s.initReconcilTicker W v other
  else some s

def setActiveSyncerForST (s : Sim n k) (v other : Fin n) : Option (Sim n k) := do
  let s ← s.requestGossipFromNode W other v
  s.requestGossipFromNode W v other

/-- The search of `New`: who was visited, whose peers are still to be looked at, and the
connections so far. -/
structure Search (n k : Nat) where
  visited : Finset (Fin n)
  queue : List (Fin n)
  sim : Sim n k

def searchPeer (node : Fin n) (b : Search n k) (p : Fin n) : Option (Search n k) :=
  if p ∈ b.visited then some b
  else do
    let s ← b.sim.setActiveSyncerForST W node p
    some ⟨insert p b.visited, b.queue ++ [p], s⟩

/-- Breadth first. Every node enters the queue at most once. -/
def search : Nat → Search n k → Option (Search n k)
  | 0, b => if b.queue = [] then some b else none
  | fuel + 1, b =>
    match b.queue with
    | [] => some b
    | node :: queue => do
      let b ← (sorted (W.peers node)).foldlM (searchPeer W node) { b with queue := queue }
      search fuel b

def spanningTree (s : Sim n k) : Option (Sim n k) :=
  if h : 0 < n then
    let root : Fin n := ⟨0, h⟩
    (search W n ⟨{root}, [root], s⟩).map (·.sim)
  else none

/-- The broadcasts of all messages wait in the queue. -/
def populateMessages (s : Sim n k) : Option (Sim n k) :=
  (List.finRange k).foldlM
    (fun s m => s.newTicker (s.messages m).broadcastTime 0 (.broadcast m)) s

/-- The amount of the next payment. The first one is 1, and so they all are. -/
def nextAmount (amt : UInt64) : UInt64 :=
  if amt = 100 then 1000
  else if amt = 1000 then 10000
  else if amt = 10000 then 100000
  else if amt = 100000 then 100
  else amt

/-- One payment, with its index. -/
def injectPayment (msPerPayment : Nat) (b : Sim n k × UInt64) (p : (Fin n × Fin n) × Nat) :
    Option (Sim n k × UInt64) := do
  let (s, amt) := b
  let ((src, dst), i) := p
  let net ← s.net.push ⟨i * msPerPayment, .other (.payment ⟨src, dst, amt * 1000⟩)⟩
  some ({ s with net := net }, nextAmount amt)

/-- The payments wait in the queue too. -/
def injectPayments (s : Sim n k) : Option (Sim n k) :=
  let msPerPayment := W.paymentInterval / W.payments.length
  (W.payments.zipIdx.foldlM (injectPayment msPerPayment) (s, 1)).map (·.1)

def new : Sim n k where
  net := Network.new W.bandwidth
  time := 0
  nodes v := .newLightningNode (W.tickOffset v)
  messages := W.source.message
  seenLogger := []
  history := ⟨[], [], fun _ => none, ∅⟩

def initStaggerTickers (s : Sim n k) : Option (Sim n k) :=
  if W.algo.reconcilTimer = 0 then (List.finRange n).foldlM (initStaggerTicker W) s else some s

def initSyncers (s : Sim n k) : Option (Sim n k) :=
  if W.algo.spanningTree then s.spanningTree W
  else W.syncers.foldlM (fun s c => s.requestGossipFromNode W c.1 c.2) s

def init : Option (Sim n k) := do
  let s ← (new W).initStaggerTickers W
  let s ← s.initSyncers W
  let s ← (W.blackholes.foldl makeBlackhole s).populateMessages
  s.injectPayments W

/-- Which event fires, and the random node and channel of a generated message. -/
structure Label (n : Nat) where
  event : Nat
  node : Fin n
  channel : Nat

/-- The broadcast of a message: the node of a generated one is a `rand.Intn(len(Nodes) - 1)`. -/
def fireBroadcast (s : Sim n k) (l : Label n) (m : Fin k) : Option (Sim n k) :=
  match W.source with
  | .generated _ =>
    if l.node.val + 1 < n then s.broadcastChannelUpdate W l.node l.channel m else none
  | .replay _ => do
    let origin ← (s.messages m).origin
    s.broadcastMessage W origin m

/-- What remains when an event has left the queue. -/
def pop (s : Sim n k) (i : Nat) (e : Event n (LightningMessage k) (Ticker n k)) : Sim n k :=
  { s with net := { s.net with eq := s.net.eq.eraseIdx i }, time := e.time }

/-- A message arrives. -/
def arrive (s : Sim n k) (me : Packet n k) : Sim n k :=
  let history := { s.history with received := s.history.received ++ [me] }
  { s with net := s.net.arrive me, history := history }

/-- Any event of the queue may fire. No tick is repeated: a tick returns `false`. -/
def step (s : Sim n k) (l : Label n) : Option (Sim n k) := do
  let e ← s.net.eq[l.event]?
  let s := s.pop l.event e
  match e.data with
  | .messageSendAt me => do
    let net ← s.net.pushMessageEvent W.calcArrivalTime me e.time
    some { s with net := net }
  | .message me => (s.arrive me).receive W e.time me
  | .other (.stagger v interval) => s.staggerTick W e.time v interval
  | .other (.reconcil v peerID) => s.reconcileTick W e.time v peerID
  | .other (.broadcast m) => s.fireBroadcast W l m
  -- A payment reads the nodes and is counted; it changes neither them nor the queue.
  | .other (.payment _) => some s

/-- The event that fires is one of the next, as in the heap of the source. -/
def IsNext (s : Sim n k) (l : Label n) : Prop :=
  ∃ e ∈ s.net.eq[l.event]?, s.time ≤ e.time ∧ ∀ e' ∈ s.net.eq, e.time ≤ e'.time

instance (s : Sim n k) (l : Label n) : Decidable (s.IsNext l) :=
  match he : s.net.eq[l.event]? with
  | none => isFalse (by simp [IsNext, he])
  | some e =>
    decidable_of_iff (s.time ≤ e.time ∧ ∀ e' ∈ s.net.eq, e.time ≤ e'.time) (by simp [IsNext, he])

end Sim

end LnConv.Lnsim
