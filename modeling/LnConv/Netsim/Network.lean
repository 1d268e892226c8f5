import LnConv.Lib.Run
import Mathlib.Algebra.GroupWithZero.Nat
import Mathlib.Order.Lattice.Nat
import Mathlib.Logic.Function.Basic

/-!
# The simulated network

Nodes are numbered; a message sent is an event in the queue until it arrives, or an event that
sends it later. Each node counts what it sends and what is addressed to it. `Q` is the type of
everything else that waits in the queue, `none` is a panic. Arrival times are computed in
floating point, so the function is a parameter.
-/

namespace LnConv.Netsim

/-- For numerals of a pair of nodes and of the two directions of a channel. -/
scoped instance neZeroTwo : NeZero 2 := ⟨by decide⟩

/-- For numerals of four nodes. -/
scoped instance neZeroFour : NeZero 4 := ⟨by decide⟩

structure Bandwidth where
  up : UInt64
  down : UInt64

structure Node where
  b : Bandwidth
  bandwidthUsage : Bandwidth
  numIncommingMessages : UInt64
  numIncommingBytes : UInt64
  numOutgoingMessages : UInt64
  numOutgoingBytes : UInt64

class Message (M : Type) where
  size : M → UInt64

structure MessageEvent (n : Nat) (M : Type) where
  m : M
  sender : Fin n
  receiver : Fin n
  hops : Nat
  deriving DecidableEq

inductive EventData (n : Nat) (M Q : Type) where
  | message (me : MessageEvent n M)
  | messageSendAt (me : MessageEvent n M)
  | other (q : Q)
  deriving DecidableEq

/-- The message that an event sends or delivers. -/
def EventData.hop {n : Nat} {M Q : Type} : EventData n M Q → Option (MessageEvent n M)
  | .message me => some me
  | .messageSendAt me => some me
  | .other _ => none

structure Event (n : Nat) (M Q : Type) where
  time : Nat
  data : EventData n M Q
  deriving DecidableEq

/-- Sender's and receiver's bandwidth, the time, bytes out, bytes in, and the message's size. -/
abbrev ArrivalTime := Bandwidth → Bandwidth → Nat → UInt64 → UInt64 → UInt64 → Nat

/-- Without bandwidth simulation, only the fixed overhead counts. -/
def instant : ArrivalTime := fun _ _ time _ _ _ => time + 100

/-- The nodes and the event queue. -/
structure Network (n : Nat) (M Q : Type) where
  nodes : Fin n → Node
  totalBandwidth : UInt64
  eq : List (Event n M Q)

namespace Network

variable {n : Nat} {M Q : Type} (calcArrivalTime : ArrivalTime)

def newNode (b : Bandwidth) : Node := ⟨b, ⟨0, 0⟩, 0, 0, 0, 0⟩

def new (b : Fin n → Bandwidth) : Network n M Q := ⟨fun v => newNode (b v), 0, []⟩

/-- The length of a slice is an `int`. -/
def maxInt : Nat := 2 ^ 63 - 1

def push (s : Network n M Q) (e : Event n M Q) : Option (Network n M Q) :=
  if s.eq.length < maxInt then some { s with eq := s.eq ++ [e] } else none

def modify (s : Network n M Q) (v : Fin n) (f : Node → Node) : Network n M Q :=
  { s with nodes := Function.update s.nodes v (f (s.nodes v)) }

variable [Message M]

def countIncomming (m : M) (node : Node) : Node :=
  { node with
    numIncommingBytes := node.numIncommingBytes + Message.size m
    numIncommingMessages := node.numIncommingMessages + 1 }

def countOutgoing (m : M) (node : Node) : Node :=
  { node with
    bandwidthUsage := { node.bandwidthUsage with up := node.bandwidthUsage.up + Message.size m }
    numOutgoingBytes := node.numOutgoingBytes + Message.size m
    numOutgoingMessages := node.numOutgoingMessages + 1 }

def pushMessageEvent (s : Network n M Q) (me : MessageEvent n M) (time : Nat) :
    Option (Network n M Q) :=
  let sender := s.nodes me.sender
  let receiver := s.nodes me.receiver
  let arrivalTime := calcArrivalTime sender.b receiver.b time sender.numOutgoingBytes
    receiver.numIncommingBytes (Message.size me.m)
  let s := { s with totalBandwidth := s.totalBandwidth + Message.size me.m }
  let s := s.modify me.receiver (countIncomming me.m)
  let s := s.modify me.sender (countOutgoing me.m)
  s.push ⟨arrivalTime, .message me⟩

/-- A message sent at a later time waits for it in the queue. -/
def sendMessageWithHops (s : Network n M Q) (currTime time : Nat) (src dst : Fin n) (m : M)
    (hops : Nat) : Option (Network n M Q) :=
  if src = dst then none
  else
    let me := ⟨m, src, dst, hops + 1⟩
    if currTime = time then s.pushMessageEvent calcArrivalTime me time
    else s.push ⟨time, .messageSendAt me⟩

def sendMessage (s : Network n M Q) (currTime time : Nat) (src dst : Fin n) (m : M) :
    Option (Network n M Q) := s.sendMessageWithHops calcArrivalTime currTime time src dst m 0

def arriveIncomming (m : M) (node : Node) : Node :=
  { node with
    bandwidthUsage := { node.bandwidthUsage with down := node.bandwidthUsage.down + Message.size m }
    numIncommingBytes := node.numIncommingBytes - Message.size m
    numIncommingMessages := node.numIncommingMessages - 1 }

def arriveOutgoing (m : M) (node : Node) : Node :=
  { node with numOutgoingMessages := node.numOutgoingMessages - Message.size m - 1 }

/-- `MessageEvent.Run` up to the call of `Receive`. -/
def arrive (s : Network n M Q) (me : MessageEvent n M) : Network n M Q :=
  (s.modify me.receiver (arriveIncomming me.m)).modify me.sender (arriveOutgoing me.m)

end Network

/-- What a node or the simulation does to the network. -/
inductive Action (n : Nat) (M Q : Type) where
  | send (currTime time : Nat) (src dst : Fin n) (m : M) (hops : Nat)
  | push (e : Event n M Q)
  | fire (i : Nat)

/-- An event of any time may fire. What the receiver sends are actions of their own; of other
events only their place in the queue is modelled here. -/
def step {n : Nat} {M Q : Type} [Message M] (calcArrivalTime : ArrivalTime) (s : Network n M Q) :
    Action n M Q → Option (Network n M Q)
  | .send currTime time src dst m hops =>
    s.sendMessageWithHops calcArrivalTime currTime time src dst m hops
  | .push e => match e.data with
    | .other _ => s.push e
    | _ => none
  | .fire i => do
    let e ← s.eq[i]?
    let s := { s with eq := s.eq.eraseIdx i }
    match e.data with
    | .message me => some (s.arrive me)
    | .messageSendAt me => s.pushMessageEvent calcArrivalTime me e.time
    | .other _ => some s

end LnConv.Netsim
