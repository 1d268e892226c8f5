import LnConv.Netsim.Network
import Mathlib.Data.Finset.Basic
import Mathlib.Data.Finset.Card
import Mathlib.Data.Fintype.Basic
import Mathlib.Data.List.FinRange

/-!
# A node of the simulator

The gossip messages of a run are numbered; what is sent of one is a pointer to it, so what the
simulator writes into a message is seen wherever the message is.
-/

namespace LnConv.Lnsim

open Netsim

def invSize : Nat := 8

def updateSize : Nat := 128

/-- The types that `IsGossip`; those of the other messages are the constructors of `Body`. -/
inductive GossipType where
  | channelAnnouncement
  | nodeAnnouncement
  | channelUpdate
  deriving DecidableEq

/-- A gossip message. The origin is set when it is known, `lastUpdate` is that of its policy. -/
structure Gossip (n : Nat) where
  seen : Nat
  dataSize : UInt64
  broadcastTime : Nat
  type : GossipType
  direction : Fin 2
  channelID : Nat
  origin : Option (Fin n)
  lastUpdate : Nat
  isKeepalive : Bool

structure ChannelInv (k : Nat) where
  channelID : Nat
  direction : Fin 2
  timestamp : Nat
  isNotAnUpdate : Bool
  msgID : Fin k
  deriving DecidableEq

/-- The inventory entry of a message. -/
def Gossip.inv {n k : Nat} (g : Gossip n) (m : Fin k) : ChannelInv k :=
  ⟨g.channelID, g.direction, g.lastUpdate, g.type != .channelUpdate, m⟩

/-- What a message carries. Two fields are history that no code reads: whether a batch answers
a query, and the set of the receiver that a reconciliation compared. -/
inductive Body (k : Nat) where
  | gossip (m : Fin k)
  | channelQuery (invs : List (ChannelInv k))
  | channelUpdateBatch (batch : List (Fin k)) (reconcilSuccess answer : Bool)
  | channelInvs (invs : List (ChannelInv k)) (reconcilSuccess : Bool) (compared : Finset (Fin k))
  | reconcilSketch
  | reconcilRequest (reconcilSetSize : Nat)
  deriving DecidableEq

structure LightningMessage (k : Nat) where
  body : Body k
  dataSize : UInt64
  deriving DecidableEq

instance {k : Nat} : Message (LightningMessage k) := ⟨LightningMessage.dataSize⟩

structure SeenMetaData where
  count : Nat
  broadcast : Bool

/-- The entry of a message in the broadcast queue, whose key is the message. -/
structure MessageWithSenders (n : Nat) where
  senders : Finset (Fin n)
  hops : Nat
  arrivalTime : Nat

structure GossipTicker where
  lastTicked : Nat
  willTick : Bool

/-- A map is a function to `Option`; the values of a set or a map are in ascending order of
their keys wherever the source's order does not matter. -/
structure LightningNode (n k : Nat) where
  bq : Fin k → Option (MessageWithSenders n)
  seen : Fin k → Option SeenMetaData
  seenByChannel : Nat → Option (Fin 2 → Option (Fin k))
  gossipPeers : Finset (Fin n)
  gossipTickers : Fin n → Option GossipTicker
  reconcilSets : Fin n → Option (Finset (Fin k))
  requestedInv : Finset (Fin k)
  willTick : Bool
  tickOffset : Nat

/-- The elements in ascending order, as the source sorts the keys of a map. -/
def sorted {n : Nat} (s : Finset (Fin n)) : List (Fin n) := (List.finRange n).filter (· ∈ s)

@[simp] theorem mem_sorted {n : Nat} {s : Finset (Fin n)} {v : Fin n} : v ∈ sorted s ↔ v ∈ s := by
  simp [sorted]

theorem nodup_sorted {n : Nat} (s : Finset (Fin n)) : (sorted s).Nodup :=
  (List.nodup_finRange n).filter _

namespace LightningNode

variable {n k : Nat} (ln : LightningNode n k)

def newLightningNode (tickOffset : Nat) : LightningNode n k where
  bq _ := none
  seen _ := none
  seenByChannel _ := none
  gossipPeers := ∅
  gossipTickers _ := none
  reconcilSets _ := none
  requestedInv := ∅
  willTick := true
  tickOffset := tickOffset

/-- The zero value stands for a missing entry. -/
def metaData (m : Fin k) : SeenMetaData := (ln.seen m).getD ⟨0, false⟩

def isNewMessage (m : Fin k) : Bool :=
  match ln.seen m with
  | none => true
  | some md => md.count == 0

theorem isNewMessage_iff {m : Fin k} : ln.isNewMessage m = true ↔ (ln.metaData m).count = 0 := by
  unfold isNewMessage metaData
  cases ln.seen m with
  | none => exact iff_of_true rfl rfl
  | some md => exact beq_iff_eq

/-- The latest update of a channel in a direction, `none` if there is none. -/
def latest (channelID : Nat) (direction : Fin 2) : Option (Fin k) :=
  (ln.seenByChannel channelID).bind (· direction)

def countSeen (m : Fin k) : LightningNode n k :=
  let md := ln.metaData m
  { ln with seen := Function.update ln.seen m (some { md with count := md.count + 1 }) }

/-- A message received again: its sender has it, and fewer hops replace more. -/
def noteSender (m : Fin k) (sender : Fin n) (hops : Nat) : LightningNode n k :=
  match ln.bq m with
  | none => ln
  | some ms =>
    { ln with
      bq := Function.update ln.bq m
        (some { ms with senders := insert sender ms.senders, hops := min ms.hops hops }) }

/-- The message waits for the next tick. -/
def enqueue (m : Fin k) (ms : MessageWithSenders n) : LightningNode n k :=
  { ln with bq := Function.update ln.bq m (some ms) }

/-- The origin has seen its message. -/
def markSeen (m : Fin k) : LightningNode n k :=
  { ln with seen := Function.update ln.seen m (some ⟨1, true⟩) }

def cleanup (m : Fin k) : LightningNode n k :=
  { ln with bq := Function.update ln.bq m none, seen := Function.update ln.seen m none }

/-- The updates of a channel, with `m` in a direction. -/
def setUpdates (channelID : Nat) (updates : Fin 2 → Option (Fin k)) (direction : Fin 2)
    (m : Fin k) : LightningNode n k :=
  { ln with
    seenByChannel := Function.update ln.seenByChannel channelID
      (some (Function.update updates direction (some m))) }

theorem latest_setUpdates_of_ne {c c' : Nat} (h : c' ≠ c) (updates : Fin 2 → Option (Fin k))
    (d d' : Fin 2) (m : Fin k) : (ln.setUpdates c updates d m).latest c' d' = ln.latest c' d' := by
  unfold latest setUpdates
  dsimp only
  rw [Function.update_of_ne h]

theorem latest_setUpdates (c : Nat) (updates : Fin 2 → Option (Fin k)) (d d' : Fin 2) (m : Fin k) :
    (ln.setUpdates c updates d m).latest c d' = Function.update updates d (some m) d' := by
  unfold latest setUpdates
  dsimp only
  rw [Function.update_self, Option.bind_some]

/-- The new node, the update replaced and whether `m` is stored. -/
def newUpdate (messages : Fin k → Gossip n) (m : Fin k) :
    LightningNode n k × Option (Fin k) × Bool :=
  let g := messages m
  match ln.seenByChannel g.channelID with
  | none => (ln.setUpdates g.channelID (fun _ => none) g.direction m, none, true)
  | some updates =>
    match updates g.direction with
    | none => (ln.setUpdates g.channelID updates g.direction m, none, true)
    | some old =>
      if (messages old).lastUpdate < g.lastUpdate then
        (ln.setUpdates g.channelID updates g.direction m, some old, true)
      else (ln, none, false)

/-- Updates are stored as the latest of their channel, other messages are not. -/
def storeNew (messages : Fin k → Gossip n) (m : Fin k) :
    LightningNode n k × Option (Fin k) × Bool :=
  if (messages m).type = .channelUpdate then ln.newUpdate messages m else (ln, none, true)

def shouldSendQuery (inv : ChannelInv k) : Bool :=
  let requested := decide (inv.msgID ∈ ln.requestedInv)
  !(requested || (ln.seen inv.msgID).any fun md => decide (0 < md.count))

/-- Whether `SendQuery` asks for the entry. -/
def asks (messages : Fin k → Gossip n) (inv : ChannelInv k) : Bool :=
  ln.shouldSendQuery inv && (inv.isNotAnUpdate ||
    match ln.latest inv.channelID inv.direction with
    | none => true
    | some m => decide ((messages m).lastUpdate < inv.timestamp))

def request (invs : List (ChannelInv k)) : LightningNode n k :=
  { ln with requestedInv := ln.requestedInv ∪ (invs.map (·.msgID)).toFinset }

/-- `del` leaves every set, `add` joins every set but that of the peer it came from. -/
def addMessageToReconcilSets (del : Option (Fin k)) (add : Fin k) (exclude : Fin n) :
    LightningNode n k :=
  { ln with
    reconcilSets := fun peerID => (ln.reconcilSets peerID).map fun set =>
      let set := set \ del.toFinset
      if peerID = exclude then set else insert add set }

/-- The set for a peer is empty, a new one too. -/
def clear (peerID : Fin n) : LightningNode n k :=
  { ln with reconcilSets := Function.update ln.reconcilSets peerID (some ∅) }

/-- Every message of the queue is marked as broadcast, and the queue is emptied. -/
def clearQueue : LightningNode n k :=
  { ln with
    seen := fun m =>
      if (ln.bq m).isSome then some { ln.metaData m with broadcast := true } else ln.seen m
    bq := fun _ => none
    willTick := false }

def numTickers : Nat := (Finset.univ.filter fun p => (ln.gossipTickers p).isSome).card

end LightningNode

end LnConv.Lnsim
