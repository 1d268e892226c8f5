import LnConv.State

/-!
# Peers and channels

A topology is two graphs on the same vertices, numbered in insertion order: the undirected
peer graph and the directed channel graph. A channel is one edge from the owner of its
direction 0 to the owner of its direction 1. `A` is the type of algorithms a vertex may run.
`none` is a panic.
-/

namespace LnConv.Graph

structure NodeMeta (A : Type) where
  id : NodeId
  idx : NodeIdx
  algo : A

structure ChannelEdge where
  source : Nat
  target : Nat
  scid : Scid
  deriving DecidableEq

structure Topology (A : Type) where
  nodes : List (NodeMeta A)
  peerEdges : List (Nat × Nat)
  channels : List ChannelEdge
  idToNidx : IntMap Nat
  nidx_iff : ∀ id i, idToNidx.lookup id = some i ↔ nodes[i]?.map NodeMeta.id = some id
  channels_lt : ∀ e ∈ channels, e.source < nodes.length ∧ e.target < nodes.length

/-- A fresh id gets the next index. -/
theorem nidx_iff_insert {A : Type} {nodes : List (NodeMeta A)} {m : IntMap Nat}
    (hm : ∀ id i, m.lookup id = some i ↔ nodes[i]?.map NodeMeta.id = some id) {x : NodeMeta A}
    (h : m.lookup x.id = none) (id : NodeId) (i : Nat) :
    (m.insert x.id nodes.length).lookup id = some i ↔
      (nodes ++ [x])[i]?.map NodeMeta.id = some id := by
  by_cases he : id = x.id
  · subst he
    rw [AList.lookup_insert, Option.some.injEq]
    constructor
    · rintro rfl
      simp
    · intro hi
      by_contra hne
      have hlt : i < nodes.length := by
        by_contra hge
        rw [List.getElem?_eq_none (by simp; omega)] at hi
        cases hi
      rw [List.getElem?_append_left hlt, ← hm, h] at hi
      cases hi
  · rw [AList.lookup_insert_ne he, hm]
    rcases lt_trichotomy i nodes.length with hlt | rfl | hgt
    · rw [List.getElem?_append_left hlt]
    · simp [Ne.symm he]
    · rw [List.getElem?_eq_none (by omega), List.getElem?_eq_none (by simp; omega)]

theorem channels_lt_concat {n n0 n1 : Nat} {es : List ChannelEdge} {scid : Scid}
    (h : ∀ e ∈ es, e.source < n ∧ e.target < n) (h0 : n0 < n) (h1 : n1 < n) :
    ∀ e ∈ es ++ [⟨n0, n1, scid⟩], e.source < n ∧ e.target < n := by
  intro e he
  rcases List.mem_append.1 he with he | he
  · exact h e he
  · rw [List.mem_singleton.1 he]
    exact ⟨h0, h1⟩

namespace Topology

variable {A : Type}

/-- No vertices yet; the source only reserves space. -/
def withCapacity : Topology A := ⟨[], [], [], ∅, by simp, by simp⟩

def nidx (t : Topology A) (id : NodeId) : Option Nat := t.idToNidx.lookup id

theorem nidx_lt (t : Topology A) {id : NodeId} {i : Nat} (h : t.nidx id = some i) :
    i < t.nodes.length := by
  obtain ⟨x, hx, -⟩ := Option.map_eq_some_iff.1 ((t.nidx_iff id i).1 h)
  exact (List.getElem?_eq_some_iff.1 hx).1

theorem channels_lt_append (t : Topology A) (x : NodeMeta A) (e : ChannelEdge)
    (he : e ∈ t.channels) :
    e.source < (t.nodes ++ [x]).length ∧ e.target < (t.nodes ++ [x]).length := by
  obtain ⟨hs, ht⟩ := t.channels_lt e he
  rw [List.length_append]
  exact ⟨by omega, by omega⟩

/-- A second vertex with the same id is a panic. -/
def addNode (t : Topology A) (id : NodeId) (algo : A) : Option (Topology A) :=
  match h : t.idToNidx.lookup id with
  | some _ => none
  | none => some
    { t with
      nodes := t.nodes ++ [⟨id, t.nodes.length, algo⟩]
      idToNidx := t.idToNidx.insert id t.nodes.length
      nidx_iff := nidx_iff_insert (x := ⟨id, t.nodes.length, algo⟩) t.nidx_iff h
      channels_lt := t.channels_lt_append ⟨id, t.nodes.length, algo⟩ }

def addChannel (t : Topology A) (scid : Scid) (dir0Owner dir1Owner : NodeId) :
    Option (Topology A) :=
  match h0 : t.nidx dir0Owner, h1 : t.nidx dir1Owner with
  | some n0, some n1 => some
    { t with
      channels := t.channels ++ [⟨n0, n1, scid⟩]
      channels_lt := channels_lt_concat t.channels_lt (t.nidx_lt h0) (t.nidx_lt h1) }
  | _, _ => none

theorem addChannel_spec {t t' : Topology A} {scid : Scid} {d0 d1 : NodeId}
    (h : t.addChannel scid d0 d1 = some t') : ∃ n0 n1, t.nidx d0 = some n0 ∧ t.nidx d1 = some n1 ∧
      t'.channels = t.channels ++ [⟨n0, n1, scid⟩] ∧ t'.nodes = t.nodes ∧
      t'.peerEdges = t.peerEdges ∧ t'.idToNidx = t.idToNidx := by
  unfold addChannel at h
  split at h
  · next n0 n1 h0 h1 =>
    cases h
    exact ⟨n0, n1, h0, h1, rfl, rfl, rfl, rfl⟩
  · cases h

theorem addChannel_isSome {t : Topology A} {d0 d1 : NodeId} (scid : Scid)
    (h0 : (t.nidx d0).isSome) (h1 : (t.nidx d1).isSome) :
    ∃ t', t.addChannel scid d0 d1 = some t' := by
  obtain ⟨n0, h0⟩ := Option.isSome_iff_exists.1 h0
  obtain ⟨n1, h1⟩ := Option.isSome_iff_exists.1 h1
  unfold addChannel
  split
  · exact ⟨_, rfl⟩
  · next h => exact absurd h1 (h n0 n1 h0)

/-- The newest edge comes first. -/
def channelsFor (t : Topology A) (node : NodeId) : Option (List (Scid × Direction)) := do
  let nx ← t.nidx node
  let outgoing := (t.channels.reverse.filter (·.source = nx)).map fun e => (e.scid, 0)
  let incoming := (t.channels.reverse.filter (·.target = nx)).map fun e => (e.scid, 1)
  some (outgoing ++ incoming)

/-- The vertices for a list of ids, all running the same algorithm. -/
def ofNodes (ids : List NodeId) (algo : A) : Option (Topology A) :=
  ids.foldlM (fun t id => t.addNode id algo) withCapacity

/-! ## Vertices and their ids -/

theorem nidx_inj {t : Topology A} {id id' : NodeId} {i : Nat} (h : t.nidx id = some i)
    (h' : t.nidx id' = some i) : id = id' :=
  Option.some_inj.1 (((t.nidx_iff id i).1 h).symm.trans ((t.nidx_iff id' i).1 h'))

theorem nidx_isSome {t : Topology A} {id : NodeId} :
    (t.nidx id).isSome ↔ id ∈ t.nodes.map NodeMeta.id := by
  rw [Option.isSome_iff_exists, List.mem_iff_getElem?]
  simp only [nidx, t.nidx_iff, List.getElem?_map]

theorem addNode_isSome {t : Topology A} {id : NodeId} (algo : A)
    (h : id ∉ t.nodes.map NodeMeta.id) : ∃ t', t.addNode id algo = some t' ∧
      t'.nodes.map NodeMeta.id = t.nodes.map NodeMeta.id ++ [id] ∧ t'.channels = t.channels := by
  have hn : t.idToNidx.lookup id = none := by
    rw [← Option.not_isSome_iff_eq_none]
    exact fun hs => h (nidx_isSome.1 hs)
  unfold addNode
  split
  · next hs => rw [hn] at hs; cases hs
  · exact ⟨_, rfl, by simp, rfl⟩

/-- Distinct ids are all given a vertex. -/
theorem ofNodes_isSome {ids : List NodeId} (algo : A) (h : ids.Nodup) : ∃ t : Topology A,
    ofNodes ids algo = some t ∧ t.nodes.map NodeMeta.id = ids ∧ t.channels = [] := by
  induction ids using List.reverseRecOn with
  | nil => exact ⟨_, rfl, rfl, rfl⟩
  | append_singleton ids id ih =>
    obtain ⟨t, ht, hids, hc⟩ := ih h.of_append_left
    have hid : id ∉ t.nodes.map NodeMeta.id := by
      rw [hids]
      exact fun hm => (List.nodup_append.1 h).2.2 id hm id (List.mem_singleton.2 rfl) rfl
    obtain ⟨t', ht', hids', hc'⟩ := addNode_isSome algo hid
    refine ⟨t', ?_, by rw [hids', hids], hc'.trans hc⟩
    rw [ofNodes, List.foldlM_append, Option.bind_eq_bind, Option.bind_eq_some_iff]
    exact ⟨t, ht, by simp [ht']⟩

end Topology

end LnConv.Graph
