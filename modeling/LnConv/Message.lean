import Mathlib.Algebra.Group.Nat.Defs
import Mathlib.Algebra.GroupWithZero.Nat
import Mathlib.Order.Lattice.Nat
import Mathlib.Data.List.Basic
import Mathlib.Tactic.Common

/-!
# Wire-format types shared by every node kind

`Gossip` is one gossip message. What flows between models is a `WireMessage`:
a single gossip, a per-kind partitioned batch, a sketch or an inventory.
Machine integers are naturals; a cast that truncates is written out.
-/

namespace LnConv

abbrev NodeId := Nat
abbrev MsgId := Nat
abbrev Scid := Nat
abbrev Direction := Nat
abbrev NodeIdx := Nat

/-- For the numerals of two and of three nodes or kinds. -/
instance neZeroTwo : NeZero 2 := ⟨Nat.succ_ne_zero 1⟩
instance neZeroThree : NeZero 3 := ⟨Nat.succ_ne_zero 2⟩

/-- `xxhash3_64` under the message-id subseed: any function of the preimage bytes. -/
class MsgHash where
  xx3 : List Nat → MsgId

inductive GossipKind where
  | nodeAnnouncement
  | channelAnnouncement
  | channelUpdate
  deriving DecidableEq, Repr

/-- The `#[repr(u8)]` discriminant. -/
def GossipKind.code : GossipKind → Nat
  | nodeAnnouncement => 1
  | channelAnnouncement => 2
  | channelUpdate => 3

structure Gossip where
  id : MsgId
  origin : Option NodeId
  kind : GossipKind
  sizeBytes : Nat
  scid : Option Scid
  direction : Direction
  timestamp : Nat
  deriving DecidableEq, Repr

/-- The `n` little-endian bytes of `x`. -/
def leBytes (n x : Nat) : List Nat := (List.range n).map fun i => x / 256 ^ i % 256

/-- Absent `origin` and `scid` hash as zero bytes in their slot. -/
def Gossip.deriveId [MsgHash] (origin : Option NodeId) (kind : GossipKind) (scid : Option Scid)
    (direction : Direction) (timestamp : Nat) : MsgId :=
  MsgHash.xx3 (leBytes 8 (origin.getD 0) ++ [kind.code] ++ leBytes 8 (scid.getD 0) ++
    [direction % 256] ++ leBytes 4 timestamp)

/-- The key of a gossip in the state map of its kind. -/
def Gossip.stateKey (g : Gossip) : Nat :=
  match g.kind with
  | .channelUpdate => (g.scid.getD 0 <<< 1) % 2 ^ 64 ||| (g.direction &&& 1)
  | .nodeAnnouncement => g.origin.getD 0
  | .channelAnnouncement => g.scid.getD 0

inductive SketchKind where
  | chanUpdates
  | nodeAnns
  | chanAnns
  deriving DecidableEq, Repr

namespace SketchKind

def fromGossip : GossipKind → SketchKind
  | .channelUpdate => chanUpdates
  | .nodeAnnouncement => nodeAnns
  | .channelAnnouncement => chanAnns

def toGossip : SketchKind → GossipKind
  | chanUpdates => .channelUpdate
  | nodeAnns => .nodeAnnouncement
  | chanAnns => .channelAnnouncement

/-- The encoding of the `kind` column of the output rows. -/
def asU8 : SketchKind → Nat
  | chanUpdates => 0
  | nodeAnns => 1
  | chanAnns => 2

@[simp] theorem toGossip_fromGossip (k : GossipKind) : (fromGossip k).toGossip = k := by
  cases k <;> rfl

@[simp] theorem fromGossip_toGossip (k : SketchKind) : fromGossip k.toGossip = k := by
  cases k <;> rfl

end SketchKind

structure Sketch where
  id : MsgId
  fromId : NodeId
  kind : SketchKind
  capacity : Nat
  sizeBytes : Nat
  deriving DecidableEq, Repr

/-- The summed wire size of a list of gossips. -/
def sizeSum (gs : List Gossip) : Nat := (gs.map Gossip.sizeBytes).sum

@[simp] theorem sizeSum_nil : sizeSum [] = 0 := rfl

@[simp] theorem sizeSum_cons (g : Gossip) (gs : List Gossip) :
    sizeSum (g :: gs) = g.sizeBytes + sizeSum gs := by simp [sizeSum]

@[simp] theorem sizeSum_append (gs hs : List Gossip) :
    sizeSum (gs ++ hs) = sizeSum gs + sizeSum hs := by simp [sizeSum]

/-- A per-kind partitioned bundle with its cached wire size. Only the two
constructors below build one, so the cache and the kinds are right. -/
structure GossipBatch where
  wireSize : Nat
  chanUpdates : List Gossip
  nodeAnns : List Gossip
  chanAnns : List Gossip
  wireSize_eq : wireSize = sizeSum chanUpdates + sizeSum nodeAnns + sizeSum chanAnns
  kind_chanUpdates : ∀ g ∈ chanUpdates, g.kind = .channelUpdate
  kind_nodeAnns : ∀ g ∈ nodeAnns, g.kind = .nodeAnnouncement
  kind_chanAnns : ∀ g ∈ chanAnns, g.kind = .channelAnnouncement

namespace GossipBatch

def empty : GossipBatch :=
  ⟨0, [], [], [], rfl, by simp, by simp, by simp⟩

/-- One turn of the `from_mixed` loop. -/
def push (b : GossipBatch) (g : Gossip) : GossipBatch :=
  match h : g.kind with
  | .channelUpdate =>
    { b with
      chanUpdates := b.chanUpdates ++ [g]
      wireSize := b.wireSize + g.sizeBytes
      wireSize_eq := by simp [b.wireSize_eq]; omega
      kind_chanUpdates := by simpa [or_imp, forall_and, h] using b.kind_chanUpdates }
  | .nodeAnnouncement =>
    { b with
      nodeAnns := b.nodeAnns ++ [g]
      wireSize := b.wireSize + g.sizeBytes
      wireSize_eq := by simp [b.wireSize_eq]; omega
      kind_nodeAnns := by simpa [or_imp, forall_and, h] using b.kind_nodeAnns }
  | .channelAnnouncement =>
    { b with
      chanAnns := b.chanAnns ++ [g]
      wireSize := b.wireSize + g.sizeBytes
      wireSize_eq := by simp [b.wireSize_eq]; omega
      kind_chanAnns := by simpa [or_imp, forall_and, h] using b.kind_chanAnns }

def fromMixed (gossips : List Gossip) : GossipBatch := gossips.foldl push empty

/-- The kind is asserted by the source for every gossip of the slice. -/
def fromMixedForKind (gossips : List Gossip) (kind : GossipKind)
    (h : ∀ g ∈ gossips, g.kind = kind) : GossipBatch :=
  match kind, h with
  | .channelUpdate, h => ⟨sizeSum gossips, gossips, [], [], by simp, h, by simp, by simp⟩
  | .nodeAnnouncement, h => ⟨sizeSum gossips, [], gossips, [], by simp, by simp, h, by simp⟩
  | .channelAnnouncement, h => ⟨sizeSum gossips, [], [], gossips, by simp, by simp, by simp, h⟩

/-- All gossips of a batch. -/
def gossips (b : GossipBatch) : List Gossip := b.chanUpdates ++ b.nodeAnns ++ b.chanAnns

theorem wireSize_gossips (b : GossipBatch) : b.wireSize = sizeSum b.gossips := by
  simp [gossips, b.wireSize_eq, Nat.add_assoc]

/-- A property of all gossips of a batch, part by part. -/
theorem forall_gossips (b : GossipBatch) {P : Gossip → Prop} :
    (∀ g ∈ b.gossips, P g) ↔ (∀ g ∈ b.chanUpdates, g.kind = .channelUpdate ∧ P g) ∧
      (∀ g ∈ b.nodeAnns, g.kind = .nodeAnnouncement ∧ P g) ∧
      (∀ g ∈ b.chanAnns, g.kind = .channelAnnouncement ∧ P g) := by
  have h₁ := b.kind_chanUpdates
  have h₂ := b.kind_nodeAnns
  have h₃ := b.kind_chanAnns
  simp only [gossips, List.mem_append, or_imp, forall_and]
  tauto

theorem mem_push {b : GossipBatch} {g x : Gossip} :
    x ∈ (b.push g).gossips ↔ x ∈ b.gossips ∨ x = g := by
  unfold push gossips
  split <;> simp <;> tauto

theorem wireSize_push (b : GossipBatch) (g : Gossip) :
    (b.push g).wireSize = b.wireSize + g.sizeBytes := by
  unfold push
  split <;> rfl

theorem mem_foldl_push {gs : List Gossip} {b : GossipBatch} {x : Gossip} :
    x ∈ (gs.foldl push b).gossips ↔ x ∈ b.gossips ∨ x ∈ gs := by
  induction gs generalizing b with
  | nil => simp
  | cons g gs ih => rw [List.foldl_cons, ih, mem_push, List.mem_cons]; tauto

theorem wireSize_foldl_push {gs : List Gossip} {b : GossipBatch} :
    (gs.foldl push b).wireSize = b.wireSize + sizeSum gs := by
  induction gs generalizing b with
  | nil => simp
  | cons g gs ih => rw [List.foldl_cons, ih, wireSize_push, sizeSum_cons]; omega

@[simp] theorem mem_fromMixed {gs : List Gossip} {x : Gossip} :
    x ∈ (fromMixed gs).gossips ↔ x ∈ gs := by
  unfold fromMixed
  rw [mem_foldl_push]
  simp [gossips, empty]

@[simp] theorem wireSize_fromMixed (gs : List Gossip) : (fromMixed gs).wireSize = sizeSum gs := by
  simp [fromMixed, wireSize_foldl_push, empty]

@[simp] theorem gossips_fromMixedForKind {gs : List Gossip} {kind : GossipKind}
    (h : ∀ g ∈ gs, g.kind = kind) : (fromMixedForKind gs kind h).gossips = gs := by
  cases kind <;> simp [fromMixedForKind, gossips]

@[simp] theorem wireSize_fromMixedForKind {gs : List Gossip} {kind : GossipKind}
    (h : ∀ g ∈ gs, g.kind = kind) : (fromMixedForKind gs kind h).wireSize = sizeSum gs := by
  rw [wireSize_gossips, gossips_fromMixedForKind]

end GossipBatch

def INVENTORY_HEADER_BYTES : Nat := 16

/-- Only `new` builds one, so the pre-computed size is right. -/
structure InventoryMsg where
  fromId : NodeId
  kind : GossipKind
  keys : List Nat
  sizeBytes : Nat
  sizeBytes_eq : sizeBytes = INVENTORY_HEADER_BYTES + 8 * keys.length

def InventoryMsg.new (fromId : NodeId) (kind : GossipKind) (keys : List Nat) : InventoryMsg :=
  ⟨fromId, kind, keys, INVENTORY_HEADER_BYTES + 8 * keys.length, rfl⟩

inductive WireMessage where
  | single (g : Gossip)
  | batch (b : GossipBatch)
  | sketch (s : Sketch)
  | inventory (i : InventoryMsg)

namespace WireMessage

/-- The on-the-wire byte size used for bandwidth metrics. -/
def wireSize : WireMessage → Nat
  | single g => g.sizeBytes
  | batch b => b.wireSize
  | sketch s => s.sizeBytes
  | inventory i => i.sizeBytes

/-- The gossips a message carries. -/
def gossips : WireMessage → List Gossip
  | single g => [g]
  | batch b => b.gossips
  | sketch _ => []
  | inventory _ => []

end WireMessage

end LnConv
