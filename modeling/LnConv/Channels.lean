import LnConv.Topology.Graph
import Mathlib.Data.List.Forall2
import Mathlib.Data.List.Dedup

/-!
# Channel ownership

Each side of a channel belongs to one node. The registry keeps the owner of each side and
the sides of each node, and is filled together with the channel graph.
-/

namespace LnConv

structure ChannelRegistry where
  numScids : Nat
  scids : List Scid
  owners : AList fun _ : Scid × Direction => NodeId
  perNode : IntMap (List (Scid × Direction))

/-- `entry(k).or_default().push(x)`. -/
def pushEntry {α : Type} (m : IntMap (List α)) (k : Nat) (x : α) : IntMap (List α) :=
  m.insert k ((m.lookup k).getD [] ++ [x])

theorem getD_pushEntry {α : Type} (m : IntMap (List α)) (k : Nat) (x : α) (j : Nat) :
    ((pushEntry m k x).lookup j).getD [] = (m.lookup j).getD [] ++ if j = k then [x] else [] := by
  by_cases h : j = k
  · subst h; simp [pushEntry]
  · simp [pushEntry, h, AList.lookup_insert_ne h]

namespace ChannelRegistry

open LnConv.Graph

variable {A : Type}

def empty : ChannelRegistry := ⟨0, [], ∅, ∅⟩

/-- The loop body of `from_iter`. -/
def register (s : Graph.Topology A × ChannelRegistry) (c : Scid × NodeId × NodeId) :
    Option (Graph.Topology A × ChannelRegistry) := do
  let (scid, d0, d1) := c
  let (t, r) := s
  if d0 = d1 then none
  else do
    let t ← t.addChannel scid d0 d1
    some (t, { r with
      scids := r.scids ++ [scid]
      owners := (r.owners.insert (scid, 0) d0).insert (scid, 1) d1
      perNode := pushEntry (pushEntry r.perNode d0 (scid, 0)) d1 (scid, 1) })

def fromIter (t : Graph.Topology A) (channels : List (Scid × NodeId × NodeId)) :
    Option (Graph.Topology A × ChannelRegistry) :=
  (channels.foldlM register (t, empty)).map fun s =>
    (s.1, { s.2 with numScids := s.2.scids.length })

/-- `none` is the failed `expect`. -/
def owner (r : ChannelRegistry) (scid : Scid) (direction : Direction) : Option NodeId :=
  r.owners.lookup (scid, direction)

def knowsScid (r : ChannelRegistry) (scid : Scid) : Bool := (r.owners.lookup (scid, 0)).isSome

def channelsFor (r : ChannelRegistry) (node : NodeId) : List (Scid × Direction) :=
  (r.perNode.lookup node).getD []

def isEmpty (r : ChannelRegistry) : Bool := r.numScids == 0

/-! ## What the loop registers -/

/-- The sides of the channels with their owners, in the order they are registered. -/
def sides (channels : List (Scid × NodeId × NodeId)) : List (NodeId × Scid × Direction) :=
  channels.flatMap fun c => [(c.2.1, c.1, 0), (c.2.2, c.1, 1)]

theorem sides_concat (cs : List (Scid × NodeId × NodeId)) (c : Scid × NodeId × NodeId) :
    sides (cs ++ [c]) = sides cs ++ [(c.2.1, c.1, 0), (c.2.2, c.1, 1)] := by
  simp [sides]

theorem mem_sides {cs : List (Scid × NodeId × NodeId)} {v : NodeId} {scid : Scid} {dir : Direction} :
    (v, scid, dir) ∈ sides cs ↔
      ∃ d0 d1, (scid, d0, d1) ∈ cs ∧ (dir = 0 ∧ v = d0 ∨ dir = 1 ∧ v = d1) := by
  simp only [sides, List.mem_flatMap, Prod.exists, List.mem_cons, Prod.mk.injEq, List.not_mem_nil,
    or_false]
  constructor
  · rintro ⟨s, d0, d1, hc, ⟨rfl, rfl, rfl⟩ | ⟨rfl, rfl, rfl⟩⟩
    · exact ⟨v, d1, hc, .inl ⟨rfl, rfl⟩⟩
    · exact ⟨d0, v, hc, .inr ⟨rfl, rfl⟩⟩
  · rintro ⟨d0, d1, hc, ⟨rfl, rfl⟩ | ⟨rfl, rfl⟩⟩
    · exact ⟨scid, v, d1, hc, .inl ⟨rfl, rfl, rfl⟩⟩
    · exact ⟨scid, d0, v, hc, .inr ⟨rfl, rfl, rfl⟩⟩

/-- The registry and the channel graph after the loop. -/
structure Registers (t₀ : Graph.Topology A) (cs : List (Scid × NodeId × NodeId)) (t : Graph.Topology A)
    (r : ChannelRegistry) : Prop where
  nodes : t.nodes = t₀.nodes
  nidx : t.nidx = t₀.nidx
  scids : r.scids = cs.map Prod.fst
  channelsFor : ∀ v, r.channelsFor v = ((sides cs).filter fun x => x.1 = v).map Prod.snd
  owner : ∀ scid dir, r.owner scid dir =
    ((sides cs).reverse.find? fun x => x.2 = (scid, dir)).map Prod.fst
  channels : List.Forall₂ (fun c e => t₀.nidx c.2.1 = some e.source ∧
    t₀.nidx c.2.2 = some e.target ∧ e.scid = c.1) cs t.channels

theorem Registers.register {t₀ t t' : Graph.Topology A} {r r' : ChannelRegistry}
    {cs : List (Scid × NodeId × NodeId)} {c : Scid × NodeId × NodeId} (h : Registers t₀ cs t r)
    (hr : register (t, r) c = some (t', r')) : c.2.1 ≠ c.2.2 ∧ Registers t₀ (cs ++ [c]) t' r' := by
  obtain ⟨scid, d0, d1⟩ := c
  simp only [ChannelRegistry.register] at hr
  split at hr
  · cases hr
  next hne =>
  obtain ⟨t₁, ht, hr⟩ := Option.bind_eq_some_iff.1 hr
  obtain ⟨n0, n1, h0, h1, hc, hn, -, hid⟩ := Graph.Topology.addChannel_spec ht
  cases hr
  have hnidx : t'.nidx = t.nidx := funext fun id => congrArg (AList.lookup id) hid
  refine ⟨hne, hn.trans h.nodes, hnidx.trans h.nidx, by simp [h.scids], fun v => ?_,
    fun s dir => ?_, ?_⟩
  · have hv := h.channelsFor v
    simp only [ChannelRegistry.channelsFor] at hv ⊢
    rw [getD_pushEntry, getD_pushEntry, hv, sides_concat, List.filter_append, List.map_append,
      List.append_assoc]
    congr 1
    by_cases e0 : v = d0
    · subst e0; simp [hne, Ne.symm hne]
    · by_cases e1 : v = d1
      · subst e1; simp [e0, Ne.symm e0]
      · simp [e0, e1, Ne.symm e0, Ne.symm e1]
  · have hs := h.owner s dir
    simp only [ChannelRegistry.owner] at hs ⊢
    rw [sides_concat, List.reverse_append]
    by_cases e1 : (s, dir) = (scid, 1)
    · rw [e1, AList.lookup_insert]; simp
    · rw [AList.lookup_insert_ne e1]
      by_cases e0 : (s, dir) = (scid, 0)
      · rw [e0, AList.lookup_insert]; simp
      · rw [AList.lookup_insert_ne e0, hs]
        simp [Ne.symm e0, Ne.symm e1]
  · rw [h.nidx] at h0 h1
    rw [hc]
    exact List.rel_append h.channels (.cons ⟨h0, h1, rfl⟩ .nil)

theorem register_isSome {t : Graph.Topology A} {r : ChannelRegistry} {c : Scid × NodeId × NodeId}
    (hne : c.2.1 ≠ c.2.2) (h0 : (t.nidx c.2.1).isSome) (h1 : (t.nidx c.2.2).isSome) :
    ∃ s, register (t, r) c = some s := by
  obtain ⟨scid, d0, d1⟩ := c
  obtain ⟨t', ht⟩ := Graph.Topology.addChannel_isSome scid h0 h1
  dsimp only at hne
  exact ⟨_, by simp only [register, hne, if_false, ht, Option.bind_eq_bind, Option.bind_some]; rfl⟩

theorem registers_loop {t₀ : Graph.Topology A} (h₀ : t₀.channels = [])
    (cs : List (Scid × NodeId × NodeId)) {s : Graph.Topology A × ChannelRegistry}
    (h : cs.foldlM register (t₀, empty) = some s) :
    (∀ c ∈ cs, c.2.1 ≠ c.2.2) ∧ Registers t₀ cs s.1 s.2 := by
  induction cs using List.reverseRecOn generalizing s with
  | nil =>
    cases h
    exact ⟨by simp, rfl, rfl, rfl, fun _ => rfl, fun _ _ => rfl, h₀ ▸ .nil⟩
  | append_singleton cs c ih =>
    rw [List.foldlM_append, Option.bind_eq_bind, Option.bind_eq_some_iff] at h
    obtain ⟨s', hs, h⟩ := h
    obtain ⟨hd, hreg⟩ := ih hs
    have hc : ChannelRegistry.register s' c = some (s.1, s.2) := by simpa using h
    have hstep := hreg.register hc
    refine ⟨fun x hx => ?_, hstep.2⟩
    rcases List.mem_append.1 hx with hx | hx
    · exact hd x hx
    · rw [List.mem_singleton.1 hx]
      exact hstep.1

/-- Channels between distinct vertices are all registered. -/
theorem fromIter_isSome {t₀ : Graph.Topology A} (h₀ : t₀.channels = [])
    {cs : List (Scid × NodeId × NodeId)}
    (hne : ∀ c ∈ cs, c.2.1 ≠ c.2.2) (hv : ∀ c ∈ cs, (t₀.nidx c.2.1).isSome ∧ (t₀.nidx c.2.2).isSome) :
    ∃ t r, fromIter t₀ cs = some (t, r) := by
  suffices hl : ∃ s, cs.foldlM register (t₀, empty) = some s by
    obtain ⟨s, hs⟩ := hl
    exact ⟨_, _, by rw [fromIter, hs]; rfl⟩
  induction cs using List.reverseRecOn with
  | nil => exact ⟨_, rfl⟩
  | append_singleton cs c ih =>
    obtain ⟨s, hs⟩ := ih (fun x hx => hne x (List.mem_append_left _ hx))
      fun x hx => hv x (List.mem_append_left _ hx)
    have hc : c ∈ cs ++ [c] := List.mem_append_right _ (List.mem_singleton.2 rfl)
    have hn := (registers_loop h₀ cs hs).2.nidx
    obtain ⟨s', hs'⟩ := register_isSome (t := s.1) (r := s.2) (hne c hc) (by rw [hn]; exact (hv c hc).1)
      (by rw [hn]; exact (hv c hc).2)
    refine ⟨s', ?_⟩
    rw [List.foldlM_append, Option.bind_eq_bind, Option.bind_eq_some_iff]
    exact ⟨s, hs, by simpa using hs'⟩

theorem fromIter_registers {t₀ t : Graph.Topology A} {r : ChannelRegistry} (h₀ : t₀.channels = [])
    {cs : List (Scid × NodeId × NodeId)} (h : fromIter t₀ cs = some (t, r)) :
    (∀ c ∈ cs, c.2.1 ≠ c.2.2) ∧ Registers t₀ cs t r ∧ r.numScids = cs.length := by
  obtain ⟨s, hs, he⟩ := Option.map_eq_some_iff.1 h
  obtain ⟨hd, hreg⟩ := registers_loop h₀ cs hs
  cases he
  exact ⟨hd, ⟨hreg.nodes, hreg.nidx, hreg.scids, hreg.channelsFor, hreg.owner, hreg.channels⟩,
    by simp [hreg.scids]⟩

/-! ## Coherence -/

/-- The registry and the channel graph agree on who owns what. -/
structure Coherent (cs : List (Scid × NodeId × NodeId)) (t : Graph.Topology A) (r : ChannelRegistry) :
    Prop where
  owner : ∀ scid dir v, r.owner scid dir = some v ↔ (scid, dir) ∈ r.channelsFor v
  once : ∀ v, (r.channelsFor v).Nodup
  alone : ∀ u v x, x ∈ r.channelsFor u → x ∈ r.channelsFor v → u = v
  graph : ∀ v ∈ t.nodes.map NodeMeta.id, ∃ l, t.channelsFor v = some l ∧ l.Perm (r.channelsFor v)
  numScids : r.numScids = (cs.map Prod.fst).dedup.length

theorem Registers.mem_channelsFor {t₀ t : Graph.Topology A} {r : ChannelRegistry}
    {cs : List (Scid × NodeId × NodeId)} (h : Registers t₀ cs t r) {v : NodeId}
    {x : Scid × Direction} : x ∈ r.channelsFor v ↔ (v, x) ∈ sides cs := by
  simp only [h.channelsFor, List.mem_map, List.mem_filter, decide_eq_true_eq, Prod.exists]
  constructor
  · rintro ⟨u, s, d, ⟨hm, rfl⟩, rfl⟩; exact hm
  · intro hm; exact ⟨v, x.1, x.2, ⟨hm, rfl⟩, rfl⟩

/-- An owner is the owner of some registered side. -/
theorem Registers.mem_of_owner {t₀ t : Graph.Topology A} {r : ChannelRegistry}
    {cs : List (Scid × NodeId × NodeId)} (h : Registers t₀ cs t r) {scid : Scid} {dir : Direction}
    {v : NodeId} (ho : r.owner scid dir = some v) : (v, scid, dir) ∈ sides cs := by
  rw [h.owner, Option.map_eq_some_iff] at ho
  obtain ⟨⟨u, x⟩, hf, rfl⟩ := ho
  have hkey := List.find?_some hf
  have hx : x = (scid, dir) := of_decide_eq_true hkey
  subst hx
  exact List.mem_reverse.1 (List.mem_of_find?_eq_some hf)

/-- The channel graph lists the sides of the registry, whatever the channels. -/
theorem Registers.graph {t₀ t : Graph.Topology A} {r : ChannelRegistry}
    {cs : List (Scid × NodeId × NodeId)} (h : Registers t₀ cs t r) {v : NodeId}
    (hv : v ∈ t.nodes.map NodeMeta.id) :
    ∃ l, t.channelsFor v = some l ∧ l.Perm (r.channelsFor v) := by
  obtain ⟨nx, hnx⟩ := Option.isSome_iff_exists.1 (Graph.Topology.nidx_isSome.2 hv)
  have hnx₀ : t₀.nidx v = some nx := by rw [← h.nidx]; exact hnx
  refine ⟨_, by
    simp only [Graph.Topology.channelsFor, hnx, Option.bind_eq_bind, Option.bind_some]
    rfl, ?_⟩
  rw [h.channelsFor]
  have hrev : ∀ p : ChannelEdge → Bool, (t.channels.reverse.filter p).Perm (t.channels.filter p) :=
    fun p => (List.reverse_perm _).filter p
  apply (((hrev _).map _).append ((hrev _).map _)).trans
  have hc := h.channels
  generalize t.channels = es at hc
  clear h hv hnx hrev
  induction hc with
  | nil => exact .refl _
  | @cons c e cs es he _ ih =>
    obtain ⟨h0, h1, hs⟩ := he
    have hsrc : e.source = nx ↔ c.2.1 = v :=
      ⟨fun hh => Graph.Topology.nidx_inj (hh ▸ h0) hnx₀,
        fun hh => by rw [hh, hnx₀] at h0; exact (Option.some_inj.1 h0).symm⟩
    have htgt : e.target = nx ↔ c.2.2 = v :=
      ⟨fun hh => Graph.Topology.nidx_inj (hh ▸ h1) hnx₀,
        fun hh => by rw [hh, hnx₀] at h1; exact (Option.some_inj.1 h1).symm⟩
    have hcons : sides (c :: cs) = (c.2.1, c.1, 0) :: (c.2.2, c.1, 1) :: sides cs := rfl
    rw [hcons]
    by_cases e0 : c.2.1 = v <;> by_cases e1 : c.2.2 = v <;>
      simp only [List.filter_cons, hsrc, htgt, e0, e1, decide_true, decide_false, if_true, if_false,
        List.map_cons, List.cons_append, Bool.false_eq_true, hs]
    · exact .cons _ (List.perm_middle.trans (.cons _ ih))
    · exact .cons _ ih
    · exact List.perm_middle.trans (.cons _ ih)
    · exact ih

/-- Distinct channels have distinct sides. -/
theorem nodup_sides {cs : List (Scid × NodeId × NodeId)} (h : (cs.map Prod.fst).Nodup) :
    ((sides cs).map Prod.snd).Nodup := by
  induction cs with
  | nil => exact .nil
  | cons c cs ih =>
    obtain ⟨hc, h⟩ := List.nodup_cons.1 h
    have hfresh : ∀ d, (c.1, d) ∉ (sides cs).map Prod.snd := by
      intro d hm
      obtain ⟨⟨v, x⟩, hx, rfl⟩ := List.mem_map.1 hm
      obtain ⟨d0, d1, hmem, -⟩ := mem_sides.1 hx
      exact hc (List.mem_map.2 ⟨_, hmem, rfl⟩)
    have hcons : (sides (c :: cs)).map Prod.snd = (c.1, 0) :: (c.1, 1) :: (sides cs).map Prod.snd := rfl
    rw [hcons, List.nodup_cons, List.nodup_cons]
    exact ⟨by simpa using hfresh 0, hfresh 1, ih h⟩

/-- Registry and graph agree exactly if no SCID is registered twice. -/
theorem coherent_iff {t₀ t : Graph.Topology A} {r : ChannelRegistry} (h₀ : t₀.channels = [])
    {cs : List (Scid × NodeId × NodeId)} (h : fromIter t₀ cs = some (t, r)) :
    Coherent cs t r ↔ (cs.map Prod.fst).Nodup := by
  obtain ⟨-, hreg, hnum⟩ := fromIter_registers h₀ h
  constructor
  · intro hc
    have hlen := hc.numScids
    rw [hnum, ← List.length_map Prod.fst] at hlen
    rw [← (List.dedup_sublist (cs.map Prod.fst)).eq_of_length hlen.symm]
    exact List.nodup_dedup _
  · intro hn
    have hsides := nodup_sides hn
    have hinj : ∀ {u v x}, (u, x) ∈ sides cs → (v, x) ∈ sides cs → u = v := fun hu hv =>
      congrArg Prod.fst (List.inj_on_of_nodup_map hsides hu hv rfl)
    refine ⟨fun scid dir v => ?_, fun v => ?_, fun u v x hu hv => ?_, fun v hv => hreg.graph hv, ?_⟩
    · rw [hreg.mem_channelsFor]
      constructor
      · exact hreg.mem_of_owner
      · intro hm
        have hsome : ((sides cs).reverse.find? fun x => x.2 = (scid, dir)).isSome :=
          List.find?_isSome.2 ⟨_, List.mem_reverse.2 hm, decide_eq_true rfl⟩
        obtain ⟨x, hf⟩ := Option.isSome_iff_exists.1 hsome
        have ho : r.owner scid dir = some x.1 := by rw [hreg.owner, hf]; rfl
        rw [ho, hinj (hreg.mem_of_owner ho) hm]
    · rw [hreg.channelsFor]
      exact hsides.sublist (List.filter_sublist.map _)
    · exact hinj (hreg.mem_channelsFor.1 hu) (hreg.mem_channelsFor.1 hv)
    · rw [hnum, List.dedup_eq_self.2 hn, List.length_map]

end ChannelRegistry

end LnConv
