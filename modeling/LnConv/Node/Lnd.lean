import LnConv.Node.Pending

/-!
# Lnd nodes

A tick cuts `pending` into chunks. The first goes out at once, chunk `i` after
`i * trickle`.
-/

namespace LnConv

structure LndCfg (V : Type) extends NodeCfg V where
  stagger : Nat
  firstTick : Nat
  trickle : Nat
  minBatchSize : Nat
  minBatchSize_pos : 1 ≤ minBatchSize

/-- The pieces of length `size` of a list, the last one possibly shorter. -/
def chunksGo {α : Type} (size : Nat) : Nat → List α → List (List α)
  | 0, _ => []
  | fuel + 1, l => if l.isEmpty then [] else l.take size :: chunksGo size fuel (l.drop size)

def chunks {α : Type} (size : Nat) (l : List α) : List (List α) := chunksGo size l.length l

theorem flatten_chunksGo {α : Type} {size fuel : Nat} {l : List α} (hs : 0 < size)
    (hf : l.length ≤ fuel) : (chunksGo size fuel l).flatten = l := by
  induction fuel generalizing l with
  | zero => simp [chunksGo, List.length_eq_zero_iff.1 (Nat.le_zero.1 hf)]
  | succ fuel ih =>
    unfold chunksGo
    split
    · next h => simp [List.isEmpty_iff.1 h]
    · next h =>
      have hl : 0 < l.length := List.length_pos_iff.2 (by simpa using h)
      rw [List.flatten_cons, ih (by rw [List.length_drop]; omega), List.take_append_drop]

/-- The chunks of a list are the list. -/
theorem flatten_chunks {α : Type} {size : Nat} (l : List α) (hs : 0 < size) :
    (chunks size l).flatten = l := flatten_chunksGo hs le_rfl

/-- Durations in ns. `none`: the division by a window of less than a second. -/
def calculateSubBatchSize (totalDelay subBatchDelay minimumBatchSize batchSize : Nat) :
    Option Nat :=
  if subBatchDelay ≥ totalDelay then some batchSize
  else
    let total := totalDelay / 10 ^ 9
    let sub := subBatchDelay / 10 ^ 9
    if total = 0 then none
    else some (max ((batchSize * sub % 2 ^ 64 + (total - 1)) / total) minimumBatchSize)

theorem calculateSubBatchSize_pos {total sub min batch k : Nat} (hm : 1 ≤ min) (hb : 0 < batch)
    (h : calculateSubBatchSize total sub min batch = some k) : 0 < k := by
  simp only [calculateSubBatchSize] at h
  split at h
  · cases h; exact hb
  · split at h
    · cases h
    · cases h; exact Nat.lt_of_lt_of_le hm (Nat.le_max_right _ _)

namespace LndNode

variable {V : Type} (c : LndCfg V)

def absorbChanUpdates (gs : List Gossip) (now : Nat) : Handler V :=
  absorbPending .channelUpdate gs now

def absorbNodeAnns (gs : List Gossip) (now : Nat) : Handler V :=
  absorbPending .nodeAnnouncement gs now

def absorbChanAnns (gs : List Gossip) (now : Nat) : Handler V :=
  absorbPending .channelAnnouncement gs now

def absorbOne (g : Gossip) (now : Nat) : Handler V := absorbOnePending g now

def recv (wire : WireMessage) (now : Nat) : Handler V := recvPending wire now

/-- Originated gossip goes to the front of the queue. -/
def originate [MsgHash] (msg : Gossip) (now : Nat) : Handler V := fun n => do
  let (n, stamped) ← n.stampOriginated c.toNodeCfg msg now
  match stamped with
  | none => some (n, {})
  | some msg =>
    some ({ n with pending := msg :: n.pending }, { firstSeen := stampSeen [msg] now })

def broadcastArc (batch : GossipBatch) (n : Node) : Node × List (V × WireMessage) :=
  (n.addBytesOutGossip (batch.wireSize * c.peers.outputs.length), c.broadcast (.batch batch))

def tick : Handler V := fun n =>
  if n.pending.isEmpty then some (n, {})
  else do
    let drained := n.pending
    let n := { n with pending := [] }
    let sub ← calculateSubBatchSize c.stagger c.trickle c.minBatchSize drained.length
    match (chunks sub drained).map GossipBatch.fromMixed with
    | [] => some (n, {})
    | first :: rest =>
      let (n, sends) := broadcastArc c first n
      -- the multiplier is `i as u32 + 1`
      some (n, { sends := sends
                 schedules := rest.mapIdx fun i b => (c.trickle * ((i + 1) % 2 ^ 32), .sendBatch b) })

def sendBatch (batch : GossipBatch) : Handler V := fun n =>
  let (n, sends) := broadcastArc c batch n
  some (n, { sends := sends })

def flushSummary (now : Nat) : Handler V := fun n =>
  let (n, events) := n.drain c.toNodeCfg now
  some (n, { events := events })

/-- The events armed at the start: delay, event, period. -/
def armTicks : List (Nat × Ev × Option Nat) :=
  [(c.firstTick, .tick, some c.stagger)] ++
    (if c.flushInterval > 0 then [(c.flushPhase, .flushSummary, some c.flushInterval)] else []) ++
    [(c.runDuration, .flushSummary, none)]

end LndNode

end LnConv
