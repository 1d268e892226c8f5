import LnConv.Node.Pending

/-!
# Cln nodes

Originated gossip is broadcast at once; a periodic tick sends everything pending
as one batch.
-/

namespace LnConv

structure ClnCfg (V : Type) extends NodeCfg V where
  stagger : Nat
  firstTick : Nat

namespace ClnNode

variable {V : Type} (c : ClnCfg V)

def absorbChanUpdates (gs : List Gossip) (now : Nat) : Handler V :=
  absorbPending .channelUpdate gs now

def absorbNodeAnns (gs : List Gossip) (now : Nat) : Handler V :=
  absorbPending .nodeAnnouncement gs now

def absorbChanAnns (gs : List Gossip) (now : Nat) : Handler V :=
  absorbPending .channelAnnouncement gs now

def absorbOne (g : Gossip) (now : Nat) : Handler V := absorbOnePending g now

def recv (wire : WireMessage) (now : Nat) : Handler V := recvPending wire now

def originate [MsgHash] (msg : Gossip) (now : Nat) : Handler V := fun n => do
  let (n, stamped) ← n.stampOriginated c.toNodeCfg msg now
  match stamped with
  | none => some (n, {})
  | some msg =>
    let n := n.addBytesOutGossip (msg.sizeBytes * c.peers.outputs.length)
    some (n, { sends := c.broadcast (.single msg), firstSeen := stampSeen [msg] now })

def tick : Handler V := fun n =>
  if n.pending.isEmpty then some (n, {})
  else
    let drained := n.pending
    let n := { n with pending := [] }
    let n := n.addBytesOutGossip (sizeSum drained * c.peers.outputs.length)
    some (n, { sends := c.broadcast (.batch (GossipBatch.fromMixed drained)) })

def flushSummary (now : Nat) : Handler V := fun n =>
  let (n, events) := n.drain c.toNodeCfg now
  some (n, { events := events })

/-- The events armed at the start: delay, event, period. -/
def armTicks : List (Nat × Ev × Option Nat) :=
  [(c.firstTick, .tick, some c.stagger)] ++
    (if c.flushInterval > 0 then [(c.flushPhase, .flushSummary, some c.flushInterval)] else []) ++
    [(c.runDuration, .flushSummary, none)]

end ClnNode

end LnConv
