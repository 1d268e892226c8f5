import LnConv.Events.Schedule
import LnConv.Traffic

/-!
# The identity of a message

A message is identified by a hash of its fields, which are rebuilt from state entries on the
way. Every gossip after its origination is `Canonical`, so its identity is a function of its
kind, key and timestamp, and the preimage of the hash determines these.
-/

namespace LnConv

/-! ## The preimage -/

/-- The bytes that `derive_id` hashes. -/
def Gossip.preimage (g : Gossip) : List Nat :=
  leBytes 8 (g.origin.getD 0) ++ [g.kind.code] ++ leBytes 8 (g.scid.getD 0) ++
    [g.direction % 256] ++ leBytes 4 g.timestamp

@[simp] theorem length_leBytes (n x : Nat) : (leBytes n x).length = n := by simp [leBytes]

theorem length_preimage (g : Gossip) : g.preimage.length = 22 := by simp [Gossip.preimage]

theorem mod_eq_of_leBytes {n x y : Nat} (h : leBytes n x = leBytes n y) :
    x % 256 ^ n = y % 256 ^ n := by
  induction n with
  | zero => simp [Nat.mod_one]
  | succ n ih =>
    simp only [leBytes, List.range_succ, List.map_append, List.map_singleton] at h ih
    obtain ⟨hl, hb⟩ := List.append_inj h (by simp)
    rw [Nat.mod_pow_succ, Nat.mod_pow_succ, ih hl, List.singleton_inj.1 hb]

theorem leBytes_inj {n x y : Nat} (hx : x < 256 ^ n) (hy : y < 256 ^ n)
    (h : leBytes n x = leBytes n y) : x = y := by
  have hm := mod_eq_of_leBytes h
  rwa [Nat.mod_eq_of_lt hx, Nat.mod_eq_of_lt hy] at hm

theorem GossipKind.code_inj {k k' : GossipKind} (h : k.code = k'.code) : k = k' := by
  cases k <;> cases k' <;> first | rfl | exact absurd h (by decide)

/-- The hash determines the bytes of every slot. -/
theorem preimage_eq {g g' : Gossip} (h : g.preimage = g'.preimage) :
    leBytes 8 (g.origin.getD 0) = leBytes 8 (g'.origin.getD 0) ∧ g.kind = g'.kind ∧
      leBytes 8 (g.scid.getD 0) = leBytes 8 (g'.scid.getD 0) ∧
      g.direction % 256 = g'.direction % 256 ∧ leBytes 4 g.timestamp = leBytes 4 g'.timestamp := by
  obtain ⟨h, ht⟩ := List.append_inj h (by simp)
  obtain ⟨h, hd⟩ := List.append_inj h (by simp)
  obtain ⟨h, hs⟩ := List.append_inj h (by simp)
  obtain ⟨ho, hk⟩ := List.append_inj h (by simp)
  exact ⟨ho, GossipKind.code_inj (List.singleton_inj.1 hk), hs, List.singleton_inj.1 hd, ht⟩

/-! ## Canonical gossips -/

/-- The fields that a gossip of its kind has: the slots it does not use are empty. -/
def CanonicalFields (g : Gossip) : Prop :=
  match g.kind with
  | .channelUpdate => g.origin = none ∧ (∃ s, g.scid = some s ∧ s < 2 ^ 63) ∧ g.direction ≤ 1 ∧
      g.timestamp < 2 ^ 32
  | .nodeAnnouncement => (∃ o, g.origin = some o ∧ o < 2 ^ 64) ∧ g.scid = none ∧
      g.direction = 0 ∧ g.timestamp < 2 ^ 32
  | .channelAnnouncement => g.origin = none ∧ (∃ s, g.scid = some s ∧ s < 2 ^ 63) ∧
      g.direction = 0 ∧ g.timestamp = 0

/-- The timestamps that may be held for a key. -/
def CanonicalEntry (kind : GossipKind) (k t : Nat) : Prop :=
  match kind with
  | .channelUpdate => t < 2 ^ 32
  | .nodeAnnouncement => k < 2 ^ 64 ∧ t < 2 ^ 32
  | .channelAnnouncement => k < 2 ^ 63 ∧ t = 0

theorem CanonicalFields.lt {g : Gossip} (h : CanonicalFields g) :
    g.origin.getD 0 < 2 ^ 64 ∧ g.scid.getD 0 < 2 ^ 64 ∧ g.direction < 256 ∧
      g.timestamp < 2 ^ 32 := by
  have h63 : ∀ s : Nat, s < 2 ^ 63 → s < 2 ^ 64 := fun s hs => hs.trans (by decide)
  unfold CanonicalFields at h
  split at h
  · obtain ⟨ho, ⟨s, hs, hlt⟩, hd, ht⟩ := h
    rw [ho, hs]
    exact ⟨by decide, h63 s hlt, hd.trans_lt (by decide), ht⟩
  · obtain ⟨⟨o, ho, hlt⟩, hs, hd, ht⟩ := h
    rw [ho, hs, hd]
    exact ⟨hlt, by decide, by decide, ht⟩
  · obtain ⟨ho, ⟨s, hs, hlt⟩, hd, ht⟩ := h
    rw [ho, hs, hd, ht]
    exact ⟨by decide, h63 s hlt, by decide, by decide⟩

/-- Equal bytes are equal fields. -/
theorem CanonicalFields.preimage_inj {g g' : Gossip} (h : CanonicalFields g)
    (h' : CanonicalFields g') (he : g.preimage = g'.preimage) :
    g.kind = g'.kind ∧ g.stateKey = g'.stateKey ∧ g.timestamp = g'.timestamp := by
  obtain ⟨ho, hk, hs, hd, ht⟩ := preimage_eq he
  obtain ⟨lo, ls, ld, lt⟩ := h.lt
  obtain ⟨lo', ls', ld', lt'⟩ := h'.lt
  have hdir : g.direction = g'.direction := by
    rwa [Nat.mod_eq_of_lt ld, Nat.mod_eq_of_lt ld'] at hd
  have h64 : 2 ^ 64 = 256 ^ 8 := by decide
  have h32 : 2 ^ 32 = 256 ^ 4 := by decide
  rw [h64] at lo lo' ls ls'
  rw [h32] at lt lt'
  refine ⟨hk, ?_, leBytes_inj lt lt' ht⟩
  unfold Gossip.stateKey
  rw [hk, leBytes_inj lo lo' ho, leBytes_inj ls ls' hs, hdir]

/-- Kind, key and timestamp determine all that is hashed. -/
theorem CanonicalFields.preimage_eq {g g' : Gossip} (h : CanonicalFields g)
    (h' : CanonicalFields g') (hk : g.kind = g'.kind) (hs : g.stateKey = g'.stateKey)
    (ht : g.timestamp = g'.timestamp) : g.preimage = g'.preimage := by
  unfold CanonicalFields at h h'
  unfold Gossip.stateKey at hs
  rw [← hk] at h' hs
  unfold Gossip.preimage
  cases hkind : g.kind with
  | channelUpdate =>
    simp only [hkind] at h h' hs
    obtain ⟨ho, ⟨s, hsc, hlt⟩, hd, -⟩ := h
    obtain ⟨ho', ⟨s', hsc', hlt'⟩, hd', -⟩ := h'
    rw [hsc, hsc'] at hs
    obtain ⟨rfl, hdir⟩ := (packCuKey_inj hlt hd hlt' hd').1 hs
    rw [ho, ho', hsc, hsc', hdir, ← hk, hkind, ht]
  | nodeAnnouncement =>
    simp only [hkind] at h h' hs
    obtain ⟨⟨o, ho, -⟩, hsc, hd, -⟩ := h
    obtain ⟨⟨o', ho', -⟩, hsc', hd', -⟩ := h'
    rw [ho, ho'] at hs
    rw [ho, ho', hsc, hsc', hd, hd', ← hk, hkind, ht, show o = o' from hs]
  | channelAnnouncement =>
    simp only [hkind] at h h' hs
    obtain ⟨ho, ⟨s, hsc, -⟩, hd, -⟩ := h
    obtain ⟨ho', ⟨s', hsc', -⟩, hd', -⟩ := h'
    rw [hsc, hsc'] at hs
    rw [ho, ho', hsc, hsc', hd, hd', ← hk, hkind, ht, show s = s' from hs]

section Identity

variable [MsgHash]

structure Canonical (g : Gossip) : Prop where
  fields : CanonicalFields g
  id : g.id = Gossip.deriveId g.origin g.kind g.scid g.direction g.timestamp

theorem Canonical.id_eq {g : Gossip} (h : Canonical g) : g.id = MsgHash.xx3 g.preimage := h.id

/-- The canonical gossips are what the canonical entries are rebuilt as. -/
def canonical : Discipline where
  travels := Canonical
  holds := CanonicalEntry
  held g h := by
    have hf := h.fields
    unfold CanonicalFields at hf
    unfold CanonicalEntry Gossip.stamp Gossip.stateKey
    cases hk : g.kind <;> simp only [hk] at hf ⊢
    · obtain ⟨⟨o, ho, hlt⟩, -, -, ht⟩ := hf
      exact ⟨by simpa [ho] using hlt, ht⟩
    · obtain ⟨-, ⟨s, hs, hlt⟩, -⟩ := hf
      exact ⟨by simpa [hs] using hlt, trivial⟩
    · exact hf.2.2.2
  rebuilt s kind e he h := by
    cases kind with
    | chanUpdates =>
      obtain ⟨x, hx, rfl⟩ := List.mem_map.1 he
      have hlt : x.1 < 2 ^ 64 := s.key_lt _ (List.mem_map_of_mem (f := Sigma.fst) hx)
      exact ⟨⟨rfl, ⟨_, rfl, (unpackCuKey_lt hlt).1⟩, (unpackCuKey_lt hlt).2, h⟩, rfl⟩
    | nodeAnns => exact ⟨⟨⟨_, rfl, h.1⟩, rfl, rfl, h.2⟩, rfl⟩
    | chanAnns => exact ⟨⟨rfl, ⟨_, rfl, h.1⟩, rfl, rfl⟩, rfl⟩

/-! ## Originations -/

/-- What an event source may have a node originate. -/
def Originable (g : Gossip) : Prop :=
  match g.kind with
  | .channelUpdate => (∃ s, g.scid = some s ∧ s < 2 ^ 63) ∧ g.direction ≤ 1
  | .nodeAnnouncement => g.scid = none ∧ g.direction = 0
  | .channelAnnouncement => (∃ s, g.scid = some s ∧ s < 2 ^ 63) ∧ g.direction = 0 ∧ g.timestamp = 0

/-- The origination makes it canonical. -/
theorem canonical_stamps {s : NodeState} {selfId : NodeId} {msg : Gossip} {now : Nat}
    (hm : Originable msg) (hid : selfId < 2 ^ 64) : canonical.Stamps s selfId msg now := by
  intro s' m h
  have hnow : nowSecs now < 2 ^ 32 := Nat.mod_lt _ (by decide)
  unfold Originable at hm
  unfold originateStamp at h
  cases hk : msg.kind with
  | channelUpdate =>
    simp only [hk, Option.bind_eq_bind, Option.bind_eq_some_iff] at h hm
    obtain ⟨scid, hs, h⟩ := h
    cases h
    exact ⟨⟨rfl, hm.1, hm.2, hnow⟩, rfl⟩
  | nodeAnnouncement =>
    simp only [hk] at h hm
    cases h
    exact ⟨⟨⟨_, rfl, hid⟩, hm.1, hm.2, hnow⟩, rfl⟩
  | channelAnnouncement =>
    simp only [hk, Option.bind_eq_bind, Option.bind_eq_some_iff] at h hm
    obtain ⟨scid, hs, h⟩ := h
    split at h
    · cases h
    · cases h
      exact ⟨⟨rfl, hm.1, hm.2.1, hm.2.2⟩, rfl⟩

end Identity

open ChannelRegistry in
/-- The event sources only emit what may be originated. -/
theorem Sourced.originable {A : Type} {t₀ t : Graph.Topology A} {r : ChannelRegistry}
    {cs : List (Scid × NodeId × NodeId)} (hreg : Registers t₀ cs t r) (hs : ∀ c ∈ cs, c.1 < 2 ^ 63)
    {x : EventTuple} (h : Sourced r x) : Originable x.2.2 := by
  have hside : ∀ {v scid dir}, (v, scid, dir) ∈ sides cs → scid < 2 ^ 63 ∧ dir ≤ 1 := by
    intro v scid dir hm
    obtain ⟨d0, d1, hc, hd⟩ := mem_sides.1 hm
    exact ⟨hs _ hc, hd.elim (fun h => by rw [h.1]; exact Nat.zero_le 1) fun h => h.1.le⟩
  cases h with
  | listed hm => exact ⟨⟨_, rfl, (hside (hreg.mem_channelsFor.1 hm)).1⟩,
      (hside (hreg.mem_channelsFor.1 hm)).2⟩
  | owned ho => exact ⟨⟨_, rfl, (hside (hreg.mem_of_owner ho)).1⟩, (hside (hreg.mem_of_owner ho)).2⟩
  | nodeAnn => exact ⟨rfl, rfl⟩
  | chanAnn ho => exact ⟨⟨_, rfl, (hside (hreg.mem_of_owner ho)).1⟩, rfl, rfl⟩

/-! ## Runs -/

section Runs

variable {V : Type}

/-- Each tuple goes to the node with the id of its originator; an unknown id is an error. -/
def prelaunch (w : Network V) (tuples : List EventTuple) : Option (List (Nat × V × Gossip)) :=
  tuples.mapM fun x => (w.topo.nodes.find? fun v => w.topo.id v = x.2.1).map fun v => (x.1, v, x.2.2)

namespace Net

/-- In flight, pending or scheduled. -/
def UnderWay (s : Net V) (g : Gossip) : Prop :=
  (∃ p ∈ s.flight, g ∈ p.wire.gossips) ∨ (∃ v, g ∈ (s.node v).pending) ∨
    ∃ q ∈ s.queue, g ∈ q.ev.gossips

/-- Recorded as first seen: counted, in the buffer of a node, or shipped. -/
def Recorded (s : Net V) (g : Gossip) : Prop :=
  (∃ v, ∃ x ∈ s.counted v, x.gossip = g) ∨ (∃ v, ∃ x ∈ s.buffered v, x.gossip = g) ∨
    ∃ idx, ∃ x ∈ shipped idx s.metrics, x.gossip = g

theorem Carries.underWay [MsgHash] {d : Discipline} {s : Net V} (h : s.Carries d) {g : Gossip}
    (hg : s.UnderWay g) : d.travels g := by
  rcases hg with ⟨p, hp, hg⟩ | ⟨v, hg⟩ | ⟨q, hq, hg⟩
  · exact h.flight p hp g hg
  · exact (h.fits v).pending g hg
  · exact h.scheduled q hq g hg

theorem Carries.recorded [MsgHash] {d : Discipline} {s : Net V} (h : s.Carries d) {g : Gossip}
    (hg : s.Recorded g) : d.travels g := by
  rcases hg with ⟨v, x, hx, rfl⟩ | ⟨v, x, hx, rfl⟩ | ⟨idx, x, hx, rfl⟩
  · exact h.counted v x hx
  · exact h.buffered v x hx
  · exact h.shipped idx x hx

end Net

/-- What holds of identities in a state. -/
structure Net.Identified [MsgHash] (s : Net V) : Prop where
  canonical : ∀ g, s.UnderWay g ∨ s.Recorded g → Canonical g
  same : ∀ g g', s.Recorded g → s.Recorded g' → g.kind = g'.kind → g.stateKey = g'.stateKey →
    g.timestamp = g'.timestamp → g.id = g'.id
  length : ∀ g, s.Recorded g → g.id = MsgHash.xx3 g.preimage ∧ g.preimage.length = 22
  apart : ∀ g g', s.Recorded g → s.Recorded g' →
    (g.kind, g.stateKey, g.timestamp) ≠ (g'.kind, g'.stateKey, g'.timestamp) →
    g.preimage ≠ g'.preimage

variable [MsgHash] [DecidableEq V] {w : Network V} {s₀ s : Net V} {ls : List Label}

omit [DecidableEq V] in
theorem Net.Carries.identified (h : s.Carries canonical) : s.Identified where
  canonical _ hg := hg.elim h.underWay h.recorded
  same g g' hg hg' hk hs ht := by
    have hc : Canonical g := h.recorded hg
    have hc' : Canonical g' := h.recorded hg'
    rw [hc.id_eq, hc'.id_eq, hc.fields.preimage_eq hc'.fields hk hs ht]
  length g hg := ⟨(h.recorded hg : Canonical g).id_eq, length_preimage g⟩
  apart g g' hg hg' hne he := by
    have hc : Canonical g := h.recorded hg
    have hc' : Canonical g' := h.recorded hg'
    obtain ⟨hk, hs, ht⟩ := hc.fields.preimage_inj hc'.fields he
    exact hne (by rw [hk, hs, ht])

/-- The identity of a message is preserved on every path. -/
theorem identity_preserved [IdHash] (hid : ∀ v, w.topo.id v < 2 ^ 64) {A : Type}
    {t₀ t : Graph.Topology A} {cs : List (Scid × NodeId × NodeId)} {r : ChannelRegistry}
    (ht₀ : t₀.channels = []) (hr : ChannelRegistry.fromIter t₀ cs = some (t, r))
    (hs : ∀ c ∈ cs, c.1 < 2 ^ 63) {src : EventSource} {nodes : List NodeId} {max : Nat}
    {tuples : List EventTuple} {events : List (Nat × V × Gossip)}
    (hb : buildEvents src nodes max r = some tuples) (hp : prelaunch w tuples = some events)
    (h₀ : init w events = some s₀) (h : run (step w) s₀ ls = some s) : s.Identified := by
  have horigin : s₀.Awaits fun _ g => Originable g := by
    intro q hq msg hm
    obtain ⟨time, he⟩ := awaits_init h₀ q hq msg hm
    obtain ⟨x, hx, hf⟩ := mem_of_mapM hp he
    obtain ⟨v, -, hv⟩ := Option.map_eq_some_iff.1 hf
    cases hv
    exact (buildEvents_sourced hb x hx).originable (ChannelRegistry.fromIter_registers ht₀ hr).2.1 hs
  have hinv := run_invariant
    (P := fun s : Net V => s.Carries canonical ∧ s.Awaits fun _ g => Originable g) h
    ⟨carries_init h₀, horigin⟩ fun s l s' ⟨hc, ha⟩ hstep =>
      ⟨hc.step (fun x hx => canonical_stamps (ha.originates hx) (hid _)) hstep, ha.step hstep⟩
  exact hinv.1.identified

end Runs

section Sample

/-- Hashes for runs on fixed inputs. -/
local instance sizeHash : MsgHash := ⟨List.length⟩
local instance sizeIdHash : IdHash := ⟨fun _ s => s.length⟩

/-- Node 0 of two flooding nodes updates the channel between them after a second. -/
def updateSource : EventSource := .oneShotSingle ⟨0, 10 ^ 9, 130⟩

def updateRun : List Label := [.advance (10 ^ 9), .fire 2, .deliver 0]

theorem identity_preserved_pair : ∃ (t₀ t : Graph.Topology Unit) (r : ChannelRegistry)
    (tuples : List EventTuple) (events : List (Nat × Fin 2 × Gossip)) (s₀ s : Net (Fin 2)),
    Graph.Topology.ofNodes [0, 1] () = some t₀ ∧
    ChannelRegistry.fromIter t₀ [(7, 0, 1)] = some (t, r) ∧
    buildEvents updateSource [0, 1] 0 r = some tuples ∧
    prelaunch (floodPair (10 ^ 10)) tuples = some events ∧
    init (floodPair (10 ^ 10)) events = some s₀ ∧
    run (step (floodPair (10 ^ 10))) s₀ updateRun = some s ∧ s.Identified := by
  have hrun : ((Graph.Topology.ofNodes [0, 1] ()).bind fun t₀ =>
      (ChannelRegistry.fromIter t₀ [(7, 0, 1)]).bind fun x =>
      (buildEvents updateSource [0, 1] 0 x.2).bind fun tuples =>
      (prelaunch (floodPair (10 ^ 10)) tuples).bind fun events =>
      (init (floodPair (10 ^ 10)) events).bind fun s₀ =>
        run (step (floodPair (10 ^ 10))) s₀ updateRun).isSome = true := by
    decide +kernel
  obtain ⟨s, hs⟩ := Option.isSome_iff_exists.1 hrun
  obtain ⟨t₀, ht₀, hs⟩ := Option.bind_eq_some_iff.1 hs
  obtain ⟨⟨t, r⟩, hr, hs⟩ := Option.bind_eq_some_iff.1 hs
  obtain ⟨tuples, hb, hs⟩ := Option.bind_eq_some_iff.1 hs
  obtain ⟨events, hp, hs⟩ := Option.bind_eq_some_iff.1 hs
  obtain ⟨s₀, h₀, hs⟩ := Option.bind_eq_some_iff.1 hs
  have hid : ∀ v, (floodPair (10 ^ 10)).topo.id v < 2 ^ 64 := by decide
  have hc : t₀.channels = [] := by
    have hids : ([0, 1] : List NodeId).Nodup := by decide
    obtain ⟨t₁, ht₁, -, hc⟩ := Graph.Topology.ofNodes_isSome () hids
    rw [ht₁, Option.some_inj] at ht₀
    rw [← ht₀, hc]
  exact ⟨t₀, t, r, tuples, events, s₀, s, ht₀, hr, hb, hp, h₀, hs,
    identity_preserved hid hc hr (by decide) hb hp h₀ hs⟩

end Sample

end LnConv
