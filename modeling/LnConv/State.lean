import Mathlib.Data.List.AList
import LnConv.Lib.Join
import LnConv.Message

/-!
# Per-node gossip state

Each node keeps three dedup maps. An `IntMap` is an `AList`: its entries stand in
the order the map happens to iterate. `NodeState.view` reads a state as the
timestamp it holds for each key, `⊥` where the key is absent; a channel
announcement carries no timestamp and is held at `0`.
-/

namespace LnConv

abbrev IntMap (V : Type) := AList fun _ : Nat => V

/-- Keys `(timestamp, size_bytes)`. -/
abbrev ChanUpdatesMap := IntMap (Nat × Nat)
abbrev NodeAnnsMap := IntMap (Nat × Nat)
abbrev ChanAnnsMap := IntMap Nat

/-! ## Key packing -/

def packCuKey (scid direction : Nat) : Nat :=
  (scid <<< 1) % 2 ^ 64 ||| (direction &&& 1)

def unpackCuKey (packed : Nat) : Nat × Nat := (packed >>> 1, packed &&& 1)

theorem packCuKey_eq (scid direction : Nat) :
    packCuKey scid direction = 2 * (scid % 2 ^ 63) + direction % 2 := by
  have h : (scid <<< 1) % 2 ^ 64 = 2 ^ 1 * (scid % 2 ^ 63) := by
    rw [Nat.shiftLeft_eq]; omega
  rw [packCuKey, h, Nat.and_one_is_mod, ← Nat.two_pow_add_eq_or_of_lt (by omega)]

/-- Packing is injective on the pairs it is used for. -/
theorem packCuKey_inj {s d s' d' : Nat} (hs : s < 2 ^ 63) (hd : d ≤ 1) (hs' : s' < 2 ^ 63)
    (hd' : d' ≤ 1) : packCuKey s d = packCuKey s' d' ↔ s = s' ∧ d = d' := by
  rw [packCuKey_eq, packCuKey_eq]; omega

theorem unpackCuKey_pack {s d : Nat} (hs : s < 2 ^ 63) (hd : d ≤ 1) :
    unpackCuKey (packCuKey s d) = (s, d) := by
  rw [packCuKey_eq, unpackCuKey, Nat.and_one_is_mod, Nat.shiftRight_eq_div_pow, Prod.mk.injEq]
  omega

theorem packCuKey_unpack {k : Nat} (hk : k < 2 ^ 64) :
    packCuKey (unpackCuKey k).1 (unpackCuKey k).2 = k := by
  rw [packCuKey_eq]
  simp only [unpackCuKey, Nat.and_one_is_mod, Nat.shiftRight_eq_div_pow]
  omega

theorem unpackCuKey_lt {k : Nat} (hk : k < 2 ^ 64) :
    (unpackCuKey k).1 < 2 ^ 63 ∧ (unpackCuKey k).2 ≤ 1 := by
  simp only [unpackCuKey, Nat.and_one_is_mod, Nat.shiftRight_eq_div_pow]
  omega

theorem packCuKey_lt (s d : Nat) : packCuKey s d < 2 ^ 64 := by
  rw [packCuKey_eq]; omega

/-! ## States -/

/-- Keys of `chanUpdates` are 64-bit words. -/
structure NodeState where
  idx : NodeIdx
  chanUpdates : ChanUpdatesMap
  nodeAnns : NodeAnnsMap
  chanAnns : ChanAnnsMap
  key_lt : ∀ k ∈ chanUpdates, k < 2 ^ 64

instance : DecidableEq NodeState := fun s t =>
  decidable_of_iff (s.idx = t.idx ∧ s.chanUpdates.entries = t.chanUpdates.entries ∧
    s.nodeAnns.entries = t.nodeAnns.entries ∧ s.chanAnns.entries = t.chanAnns.entries)
    (by cases s; cases t; simp [AList.ext_iff])

def NodeState.new (idx : NodeIdx) : NodeState := ⟨idx, ∅, ∅, ∅, by simp⟩

/-- The timestamp held for each key of each kind. -/
abbrev View := GossipKind → Nat → WithBot Nat

/-- The stamps of a map's entries. -/
def stampView {V : Type} (stamp : V → Nat) (m : IntMap V) (k : Nat) : WithBot Nat :=
  match m.lookup k with
  | some v => WithBot.some (stamp v)
  | none => ⊥

/-- A channel announcement has no timestamp to compare. -/
def scidStamp (_ : Nat) : Nat := 0

def NodeState.view (s : NodeState) : View
  | .channelUpdate => stampView Prod.fst s.chanUpdates
  | .nodeAnnouncement => stampView Prod.fst s.nodeAnns
  | .channelAnnouncement => stampView scidStamp s.chanAnns

@[simp] theorem view_new (idx : NodeIdx) : (NodeState.new idx).view = ⊥ := by
  funext kind k
  cases kind <;> rfl

/-! ## Stamp views -/

section StampView

variable {V : Type} {stamp : V → Nat} {m : IntMap V}

theorem stampView_insert (m : IntMap V) (k : Nat) (v : V) :
    stampView stamp (m.insert k v) =
      Function.update (stampView stamp m) k (WithBot.some (stamp v)) := by
  funext j
  by_cases h : j = k
  · subst h; simp [stampView]
  · simp [stampView, h, AList.lookup_insert_ne h]

theorem stampView_eq_bot {k : Nat} : stampView stamp m k = ⊥ ↔ m.lookup k = none := by
  unfold stampView; split <;> simp_all

theorem stampView_of_lookup {k : Nat} {v : V} (h : m.lookup k = some v) :
    stampView stamp m k = WithBot.some (stamp v) := by
  simp [stampView, h]

end StampView

theorem scidView_le_zero (m : ChanAnnsMap) (k : Nat) :
    stampView scidStamp m k ≤ WithBot.some 0 := by
  unfold stampView; split <;> simp [scidStamp]

/-- Writing a value that is at least the old one is a join. -/
theorem update_eq_sup {f : Nat → WithBot Nat} {k : Nat} {a : WithBot Nat} (h : f k ≤ a) :
    Function.update f k a = f ⊔ Function.update ⊥ k a := by
  funext j
  by_cases e : j = k
  · subst e; simpa using h
  · simp [e]

theorem insert_key_lt {m : ChanUpdatesMap} (h : ∀ k ∈ m, k < 2 ^ 64) (s d : Nat) {v : Nat × Nat} :
    ∀ k ∈ m.insert (packCuKey s d) v, k < 2 ^ 64 := by
  intro k hk
  rcases (AList.mem_insert _).1 hk with rfl | hk
  · exact packCuKey_lt s d
  · exact h k hk

/-! ## What a gossip teaches -/

/-- The key a handler reads off a gossip; `none` where its `expect` fails. -/
def Gossip.key? (g : Gossip) : Option Nat :=
  match g.kind with
  | .channelUpdate => g.scid.map fun s => packCuKey s g.direction
  | .nodeAnnouncement => g.origin
  | .channelAnnouncement => g.scid

theorem stateKey_of_key? {g : Gossip} {k : Nat} (h : g.key? = some k) : g.stateKey = k := by
  unfold Gossip.key? at h
  unfold Gossip.stateKey
  cases hk : g.kind with
  | channelUpdate =>
    rw [hk] at h
    obtain ⟨s, hs, rfl⟩ := Option.map_eq_some_iff.1 h
    simp [hs, packCuKey]
  | nodeAnnouncement =>
    rw [hk] at h
    simp [h]
  | channelAnnouncement =>
    rw [hk] at h
    simp [h]

/-- The timestamp a gossip is held at. -/
def Gossip.stamp (g : Gossip) : Nat :=
  match g.kind with
  | .channelAnnouncement => 0
  | _ => g.timestamp

/-- What a single gossip teaches: its stamp at its key. -/
def Gossip.atom (g : Gossip) : View := fun kind k =>
  if kind = g.kind ∧ k = g.stateKey then WithBot.some g.stamp else ⊥

theorem atom_self (g : Gossip) : g.atom g.kind g.stateKey = WithBot.some g.stamp := by
  simp [Gossip.atom]

theorem atom_le_iff {g : Gossip} {v : View} :
    g.atom ≤ v ↔ WithBot.some g.stamp ≤ v g.kind g.stateKey := by
  constructor
  · intro h
    simpa [atom_self] using h g.kind g.stateKey
  · intro h kind k
    unfold Gossip.atom
    split
    · next e => obtain ⟨rfl, rfl⟩ := e; exact h
    · exact bot_le

/-- The join of a list of gossips. -/
abbrev joinOf (gs : List Gossip) : View := supOf Gossip.atom gs

@[simp] theorem joinOf_nil : joinOf [] = ⊥ := rfl

@[simp] theorem joinOf_cons (g : Gossip) (gs : List Gossip) :
    joinOf (g :: gs) = g.atom ⊔ joinOf gs := rfl

@[simp] theorem joinOf_append (gs hs : List Gossip) :
    joinOf (gs ++ hs) = joinOf gs ⊔ joinOf hs := supOf_append _ _ _

theorem joinOf_mono {gs hs : List Gossip} (h : gs ⊆ hs) : joinOf gs ≤ joinOf hs := supOf_mono h

theorem joinOf_congr {gs hs : List Gossip} (h : ∀ g, g ∈ gs ↔ g ∈ hs) : joinOf gs = joinOf hs :=
  supOf_congr h

theorem joinOf_apply (gs : List Gossip) (kind : GossipKind) (k : Nat) :
    joinOf gs kind k = supOf (fun g => g.atom kind k) gs := by
  rw [joinOf, supOf_apply, supOf_apply]

/-- A value below a join of gossips is below one of their stamps. -/
theorem exists_of_le_joinOf {gs : List Gossip} {b : View} {kind : GossipKind} {k T : Nat}
    (h : WithBot.some T ≤ (b ⊔ joinOf gs) kind k) :
    WithBot.some T ≤ b kind k ∨ ∃ g ∈ gs, g.kind = kind ∧ g.stateKey = k ∧ T ≤ g.stamp := by
  rw [Pi.sup_apply, Pi.sup_apply, joinOf_apply] at h
  apply (le_sup_supOf h).imp id
  rintro ⟨g, hg, hle⟩
  unfold Gossip.atom at hle
  split at hle
  · next e => exact ⟨g, hg, e.1.symm, e.2.symm, WithBot.coe_le_coe.1 hle⟩
  · simp at hle

/-! ## Origination -/

/-- `as_secs() as u32`. -/
def nowSecs (cxTime : Nat) : Nat := cxTime / 10 ^ 9 % 2 ^ 32

/-- Stamps the originator's state and finalises the message; the flag says
whether to broadcast it. `none` is the failed `expect`. -/
def originateStamp [MsgHash] (state : NodeState) (selfId : NodeId) (msg : Gossip)
    (cxTime : Nat) : Option (NodeState × Gossip × Bool) :=
  let nowSecs := nowSecs cxTime
  let finish (m : Gossip) : Gossip :=
    { m with id := Gossip.deriveId m.origin m.kind m.scid m.direction m.timestamp }
  match msg.kind with
  | .channelUpdate => do
    let scid ← msg.scid
    let msg := { msg with origin := none, timestamp := nowSecs }
    let m := state.chanUpdates.insert (packCuKey scid msg.direction) (nowSecs, msg.sizeBytes)
    some ({ state with chanUpdates := m, key_lt := insert_key_lt state.key_lt _ _ }, finish msg, true)
  | .nodeAnnouncement =>
    let msg := { msg with origin := some selfId, timestamp := nowSecs }
    let m := state.nodeAnns.insert selfId (nowSecs, msg.sizeBytes)
    some ({ state with nodeAnns := m }, finish msg, true)
  | .channelAnnouncement => do
    let scid ← msg.scid
    let msg := { msg with origin := none }
    let m := state.chanAnns.insert scid msg.sizeBytes
    if (state.chanAnns.lookup scid).isSome then some ({ state with chanAnns := m }, msg, false)
    else some ({ state with chanAnns := m }, finish msg, true)

/-- The key an origination writes. -/
def originKey (selfId : NodeId) (msg : Gossip) : Nat :=
  match msg.kind with
  | .channelUpdate => packCuKey (msg.scid.getD 0) msg.direction
  | .nodeAnnouncement => selfId
  | .channelAnnouncement => msg.scid.getD 0

/-- The origination would replace a stored timestamp by an older one. -/
def Regresses (s : NodeState) (selfId : NodeId) (msg : Gossip) (now : Nat) : Prop :=
  msg.kind ≠ .channelAnnouncement ∧
    WithBot.some (nowSecs now) < s.view msg.kind (originKey selfId msg)

instance (s : NodeState) (selfId : NodeId) (msg : Gossip) (now : Nat) :
    Decidable (Regresses s selfId msg now) := inferInstanceAs (Decidable (_ ∧ _))

/-- The message announces a channel that is known; it is not broadcast again. -/
def AlreadyAnnounced (s : NodeState) (msg : Gossip) : Prop :=
  msg.kind = .channelAnnouncement ∧ (s.chanAnns.lookup (msg.scid.getD 0)).isSome

instance (s : NodeState) (msg : Gossip) : Decidable (AlreadyAnnounced s msg) :=
  inferInstanceAs (Decidable (_ ∧ _))

/-- What an origination does: it writes the stamp at the key, and does not
broadcast a channel announcement that was known. -/
structure StampSpec (s : NodeState) (selfId : NodeId) (msg : Gossip) (now : Nat) (s' : NodeState)
    (m : Gossip) (isNew : Bool) : Prop where
  kind : m.kind = msg.kind
  key : m.key? = some (originKey selfId msg)
  sizeBytes : m.sizeBytes = msg.sizeBytes
  stamp : msg.kind ≠ .channelAnnouncement → m.stamp = nowSecs now
  view : s'.view = Function.update s.view msg.kind
    (Function.update (s.view msg.kind) (originKey selfId msg) (WithBot.some m.stamp))
  old : isNew = false → msg.kind = .channelAnnouncement ∧ m.atom ≤ s.view
  isNew : AlreadyAnnounced s msg → isNew = false

theorem originateStamp_spec [MsgHash] {s s' : NodeState} {selfId : NodeId} {msg m : Gossip}
    {now : Nat} {b : Bool} (h : originateStamp s selfId msg now = some (s', m, b)) :
    StampSpec s selfId msg now s' m b := by
  unfold originateStamp at h
  cases hk : msg.kind with
  | channelUpdate =>
    simp only [hk, Option.bind_eq_bind, Option.bind_eq_some_iff] at h
    obtain ⟨scid, hs, h⟩ := h
    cases h
    refine ⟨by simp [hk], by simp [Gossip.key?, originKey, hk, hs], rfl,
      fun _ => by simp [Gossip.stamp], ?_, by simp, by simp [AlreadyAnnounced, hk]⟩
    funext kind
    cases kind <;> simp [originKey, hk, hs, NodeState.view, stampView_insert, Gossip.stamp]
  | nodeAnnouncement =>
    simp only [hk] at h
    cases h
    refine ⟨by simp [hk], by simp [Gossip.key?, originKey, hk], rfl,
      fun _ => by simp [Gossip.stamp], ?_, by simp, by simp [AlreadyAnnounced, hk]⟩
    funext kind
    cases kind <;> simp [originKey, hk, NodeState.view, stampView_insert, Gossip.stamp]
  | channelAnnouncement =>
    simp only [hk, Option.bind_eq_bind, Option.bind_eq_some_iff] at h
    obtain ⟨scid, hs, h⟩ := h
    have hview : ∀ v : Nat, NodeState.view { s with chanAnns := s.chanAnns.insert scid v } =
        Function.update s.view .channelAnnouncement
          (Function.update (s.view .channelAnnouncement) scid (WithBot.some 0)) := by
      intro v
      funext kind
      cases kind <;> simp [NodeState.view, stampView_insert, scidStamp]
    split at h
    · next hold =>
      cases h
      refine ⟨by simp [hk], by simp [Gossip.key?, originKey, hk, hs], rfl, by simp [hk], ?_, ?_,
        fun _ => rfl⟩
      · simpa [originKey, hk, hs, Gossip.stamp] using hview msg.sizeBytes
      · intro _
        obtain ⟨v, hv⟩ := Option.isSome_iff_exists.1 hold
        refine ⟨hk, atom_le_iff.2 ?_⟩
        simp [Gossip.stamp, Gossip.stateKey, hs, NodeState.view, stampView_of_lookup hv, scidStamp]
    · next hnew =>
      cases h
      refine ⟨by simp [hk], by simp [Gossip.key?, originKey, hk, hs], rfl, by simp [hk], ?_, by simp,
        fun ha => absurd (by have := ha.2; rwa [hs] at this) hnew⟩
      simpa [originKey, hk, hs, Gossip.stamp] using hview msg.sizeBytes

/-- An origination that does not regress is a join. -/
theorem StampSpec.view_eq_sup {s s' : NodeState} {selfId : NodeId} {msg m : Gossip} {now : Nat}
    {b : Bool} (h : StampSpec s selfId msg now s' m b) (hr : ¬ Regresses s selfId msg now) :
    s'.view = s.view ⊔ m.atom := by
  have hle : s.view msg.kind (originKey selfId msg) ≤ WithBot.some m.stamp := by
    by_cases hk : msg.kind = .channelAnnouncement
    · have hm : m.stamp = 0 := by simp [Gossip.stamp, h.kind, hk]
      rw [hk, hm]
      exact scidView_le_zero _ _
    · rw [h.stamp hk]
      exact not_lt.1 fun hlt => hr ⟨hk, hlt⟩
  rw [h.view]
  funext kind
  rw [Pi.sup_apply]
  by_cases hk : kind = msg.kind
  · subst hk
    rw [Function.update_self, update_eq_sup hle, ← stateKey_of_key? h.key]
    congr 1
    funext k
    simp [Gossip.atom, h.kind, Function.update_apply]
  · have : m.atom kind = ⊥ := by
      funext k
      simp [Gossip.atom, h.kind, hk]
    simp [hk, this]

section Synth

variable [MsgHash]

def synthChanUpdate (scid : Scid) (direction : Direction) (timestamp sizeBytes : Nat) : Gossip :=
  { id := Gossip.deriveId none .channelUpdate (some scid) direction timestamp
    origin := none
    kind := .channelUpdate
    sizeBytes := sizeBytes
    scid := some scid
    direction := direction
    timestamp := timestamp }

def synthNodeAnn (originId : NodeId) (timestamp sizeBytes : Nat) : Gossip :=
  { id := Gossip.deriveId (some originId) .nodeAnnouncement none 0 timestamp
    origin := some originId
    kind := .nodeAnnouncement
    sizeBytes := sizeBytes
    scid := none
    direction := 0
    timestamp := timestamp }

def synthChanAnn (scid : Scid) (sizeBytes : Nat) : Gossip :=
  { id := Gossip.deriveId none .channelAnnouncement (some scid) 0 0
    origin := none
    kind := .channelAnnouncement
    sizeBytes := sizeBytes
    scid := some scid
    direction := 0
    timestamp := 0 }

end Synth

end LnConv
