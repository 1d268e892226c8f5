import LnConv.Events.Schedule

/-!
# Who owns a channel side

The loader lets a repeated SCID row through, and the registry then loses track of the
owners. Without repetitions the registry, the channel graph and the schedules agree.
-/

namespace LnConv

open ChannelRegistry LnConv.Graph LnData

section Ownership

variable [IdHash]

/-- Some schedule has `v` originate an update of the channel side. -/
def Originates (r : ChannelRegistry) (scid : Scid) (dir : Direction) (v : NodeId) : Prop :=
  ∃ src nodes max tuples, buildEvents src nodes max r = some tuples ∧
    ∃ x ∈ tuples, x.2.1 = v ∧ x.2.2.kind = .channelUpdate ∧ x.2.2.scid = some scid ∧
      x.2.2.direction = dir

/-- Only the owner originates. -/
theorem ChannelRegistry.Coherent.owner_of_originates {A : Type} {cs : List (Scid × NodeId × NodeId)}
    {t : Graph.Topology A} {r : ChannelRegistry} (h : Coherent cs t r) {scid : Scid} {dir : Direction}
    {v : NodeId} (ho : Originates r scid dir v) : r.owner scid dir = some v := by
  obtain ⟨src, nodes, max, tuples, hb, x, hx, rfl, hk, hs, rfl⟩ := ho
  cases buildEvents_sourced hb x hx with
  | listed hm =>
    cases hs
    exact (h.owner _ _ _).2 hm
  | owned hv =>
    cases hs
    exact hv
  | nodeAnn => cases hk
  | chanAnn _ => cases hk

/-- The one-shot source has a node update the first side of its list. -/
theorem originates_of_head {r : ChannelRegistry} {v : NodeId} {x : Scid × Direction}
    (h : (r.channelsFor v).head? = some x) : Originates r x.1 x.2 v := by
  refine ⟨.oneShotAll ⟨0, 1024⟩, [v], 0, _, rfl, (0, v, unstampedUpdate x.1 x.2 1024), ?_, rfl, rfl,
    rfl, rfl⟩
  rw [List.mem_mergeSort, OneShotAll.build, List.mem_filterMap]
  exact ⟨v, List.mem_singleton.2 rfl, by rw [h]; rfl⟩

/-- What the registry of a loaded snapshot is for: it agrees with the channel graph, and
each channel side has one originator. -/
structure Registered {A : Type} (snap : LnSnapshot) (t : Graph.Topology A) (r : ChannelRegistry) :
    Prop where
  coherent : Coherent snap.channels t r
  single : ∀ scid dir u v, Originates r scid dir u → Originates r scid dir v → u = v

/-- Every accepted pair of files is registered, and coherently so exactly if no SCID stands
in two rows between distinct nodes. -/
theorem registered_iff {A : Type} (algo : A) {seed : Nat} {nodesCsv : CsvFile NodeRow}
    {channelsCsv : CsvFile ChannelRow} {snap : LnSnapshot}
    (h : load seed nodesCsv channelsCsv = .ok snap) :
    ∃ t₀ t r, Graph.Topology.ofNodes snap.nodes algo = some t₀ ∧
      fromIter t₀ snap.channels = some (t, r) ∧
      (Registered snap t r ↔ ((channelRows channelsCsv.rows).map ChannelRow.scid).Nodup) := by
  have hl := load_spec h
  obtain ⟨t₀, ht₀, hids, hc⟩ := Graph.Topology.ofNodes_isSome algo hl.nodup
  obtain ⟨t, r, hr⟩ := fromIter_isSome hc (fun c hm => (hl.endpoints c hm).2.2) fun c hm => by
    rw [Graph.Topology.nidx_isSome, Graph.Topology.nidx_isSome, hids]
    exact ⟨(hl.endpoints c hm).1, (hl.endpoints c hm).2.1⟩
  refine ⟨t₀, t, r, ht₀, hr, ?_⟩
  rw [← hl.nodup_scids, ← coherent_iff hc hr]
  refine ⟨Registered.coherent, fun hcoh => ⟨hcoh, fun scid dir u v hu hv => ?_⟩⟩
  exact Option.some_inj.1 ((hcoh.owner_of_originates hu).symm.trans (hcoh.owner_of_originates hv))

end Ownership

section Sample

/-- A hash for runs on fixed inputs. -/
local instance lengthIdHash : IdHash := ⟨fun _ s => s.length⟩

def csvOf {R : Type} (path : String) (rows : List R) : CsvFile R := ⟨path, .ok (rows.map .ok)⟩

def sampleNodes : CsvFile NodeRow := csvOf "node_list.csv" [⟨"a"⟩, ⟨"bb"⟩, ⟨"ccc"⟩]

/-- One SCID in two rows, with different nodes at its direction 0. -/
def repeatedRows : CsvFile ChannelRow :=
  csvOf "channel_list.csv" [⟨"1", "a", "bb"⟩, ⟨"1", "ccc", "bb"⟩]

/-- The registry that a run makes of the files. -/
def registryOf (nodesCsv : CsvFile NodeRow) (channelsCsv : CsvFile ChannelRow) :
    Option (LnSnapshot × Graph.Topology Unit × Graph.Topology Unit × ChannelRegistry) := do
  let snap ← (load 0 nodesCsv channelsCsv).toOption
  let t₀ ← Graph.Topology.ofNodes snap.nodes ()
  let (t, r) ← fromIter t₀ snap.channels
  some (snap, t₀, t, r)

theorem registryOf_eq {nodesCsv : CsvFile NodeRow} {channelsCsv : CsvFile ChannelRow}
    {snap : LnSnapshot} {t₀ t : Graph.Topology Unit} {r : ChannelRegistry}
    (h : registryOf nodesCsv channelsCsv = some (snap, t₀, t, r)) :
    load 0 nodesCsv channelsCsv = .ok snap ∧ Graph.Topology.ofNodes snap.nodes () = some t₀ ∧
      fromIter t₀ snap.channels = some (t, r) := by
  simp only [registryOf, Option.bind_eq_bind, Option.bind_eq_some_iff] at h
  obtain ⟨snap', hs, t₀', ht, ⟨t', r'⟩, hr, h⟩ := h
  cases h
  refine ⟨?_, ht, hr⟩
  cases hl : load 0 nodesCsv channelsCsv with
  | error e => rw [hl] at hs; cases hs
  | ok x => rw [hl] at hs; cases hs; rfl

theorem repeated_scid_checked : (registryOf sampleNodes repeatedRows).any (fun x =>
    x.2.2.2.owner 1 0 == some 3 && x.2.2.2.channelsFor 1 == [(1, 0)] &&
    x.2.2.2.channelsFor 3 == [(1, 0)] && x.2.2.2.numScids == 2 &&
    (x.1.channels.map Prod.fst).dedup.length == 1) = true := by
  decide +kernel

/-- The list of the first owner keeps the side, although the second one owns it now. Both
originate it, and two channels are counted. -/
theorem repeated_scid_incoherent : ∃ snap t₀ t r, load 0 sampleNodes repeatedRows = .ok snap ∧
    Graph.Topology.ofNodes snap.nodes () = some t₀ ∧ fromIter t₀ snap.channels = some (t, r) ∧
    r.owner 1 0 = some 3 ∧ (1, 0) ∈ r.channelsFor 1 ∧ r.numScids = 2 ∧
    Originates r 1 0 1 ∧ Originates r 1 0 3 ∧ ¬ Registered snap t r := by
  obtain ⟨⟨snap, t₀, t, r⟩, h, hc⟩ := (Option.any_eq_true _ _).1 repeated_scid_checked
  simp only [Bool.and_eq_true, beq_iff_eq] at hc
  obtain ⟨⟨⟨⟨ho, h1⟩, h3⟩, hn⟩, hd⟩ := hc
  obtain ⟨hload, ht, hr⟩ := registryOf_eq h
  refine ⟨snap, t₀, t, r, hload, ht, hr, ho, by simp [h1], hn,
    originates_of_head (x := (1, 0)) (by rw [h1]; rfl),
    originates_of_head (x := (1, 0)) (by rw [h3]; rfl), fun hreg => ?_⟩
  rw [hreg.coherent.numScids, hd] at hn
  cases hn

/-- Two channels and a self-loop that repeats a SCID. -/
theorem registered_iff_sample : ∃ snap t₀ t r,
    load 0 sampleNodes (csvOf "channel_list.csv"
      [⟨"1", "a", "bb"⟩, ⟨"22", "ccc", "bb"⟩, ⟨"1", "a", "a"⟩]) = .ok snap ∧
    Graph.Topology.ofNodes snap.nodes () = some t₀ ∧ fromIter t₀ snap.channels = some (t, r) ∧
    Registered snap t r := by
  have hsome : (registryOf sampleNodes (csvOf "channel_list.csv"
      [⟨"1", "a", "bb"⟩, ⟨"22", "ccc", "bb"⟩, ⟨"1", "a", "a"⟩])).isSome = true := by
    decide +kernel
  obtain ⟨⟨snap, t', r'⟩, h⟩ := Option.isSome_iff_exists.1 hsome
  have hload := (registryOf_eq h).1
  obtain ⟨t₀, t, r, h₀, hr, hiff⟩ := registered_iff () hload
  exact ⟨snap, t₀, t, r, hload, h₀, hr, hiff.2 (by decide)⟩

end Sample

end LnConv
