import LnConv.Lib.Flood
import LnConv.Progress
import LnConv.Stamps

/-!
# When a flood reaches a node

A network of flooding nodes that forward after the same delay, and one origination in it. The
network is then a flood over the peer graph: each node records the message at the time its distance
from the origin gives, and passes it on once.
-/

namespace LnConv

/-! ## Networks of flooding nodes -/

section Networks

variable {V : Type}

/-- The peer graph, without its loops. -/
def Topology.graph (t : Topology V) : SimpleGraph V where
  Adj u v := u ≠ v ∧ v ∈ t.neighbors u
  symm := ⟨fun u v h => ⟨h.1.symm, t.symm u v h.2⟩⟩

/-- No node is its own peer, or twice the peer of another. -/
structure Topology.Simple (t : Topology V) : Prop where
  nodup : ∀ v, (t.neighbors v).Nodup
  loopless : ∀ v, v ∉ t.neighbors v

theorem Topology.Simple.mem_neighbors {t : Topology V} (h : t.Simple) (u v : V) :
    v ∈ t.neighbors u ↔ t.graph.Adj u v :=
  ⟨fun hv => ⟨fun he => h.loopless u (he ▸ hv), hv⟩, And.right⟩

instance [DecidableEq V] (t : Topology V) : DecidableRel t.graph.Adj :=
  fun u v => inferInstanceAs (Decidable (u ≠ v ∧ v ∈ t.neighbors u))

def Network.FloodsAfter (w : Network V) (d : Nat) : Prop :=
  ∀ v, ∃ c, w.model v = .flooding c ∧ c.forwardDelay = d

/-- The events whose handler broadcasts on a flooding node. -/
def Ev.broadcasts : Ev → Bool
  | .originate _ | .doSend _ => true
  | _ => false

def Label.isDelivery : Label → Bool
  | .deliver _ => true
  | _ => false

/-- The messages that a step has a node send to every peer. -/
def broadcastsOf [MsgHash] (w : Network V) (s : Net V) : Label → List (V × WireMessage)
  | .fire i => (s.queue[i]?).elim [] fun q =>
    ((w.model q.node).issued q.ev s.now (s.node q.node)).map fun wire => (q.node, wire)
  | _ => []

/-- Nothing is in flight, and no node is to broadcast. -/
def Net.Spent (s : Net V) : Prop := s.flight = [] ∧ ∀ q ∈ s.queue, q.ev.broadcasts = false

end Networks

/-! ## The message -/

/-- An update or an announcement of a channel names the channel. -/
def Gossip.HasScid (g : Gossip) : Prop := g.kind ≠ .nodeAnnouncement → g.scid.isSome

/-- What a node that stores nothing broadcasts for an origination. -/
def Gossip.originated [MsgHash] (selfId : NodeId) (now : Nat) (g : Gossip) : Gossip :=
  let m := g.stamped selfId now
  { m with id := Gossip.deriveId m.origin m.kind m.scid m.direction m.timestamp }

theorem atom_not_le_bot (g : Gossip) : ¬g.atom ≤ ⊥ := by
  rw [atom_le_iff]
  exact fun hle => WithBot.coe_ne_bot (le_bot_iff.1 hle)

section Message

variable [MsgHash] {g : Gossip} {selfId : NodeId} {now : Nat}

@[simp] theorem originated_sizeBytes : (g.originated selfId now).sizeBytes = g.sizeBytes := by
  unfold Gossip.originated Gossip.stamped
  split <;> rfl

theorem key?_originated (hg : g.HasScid) : (g.originated selfId now).key?.isSome := by
  unfold Gossip.originated Gossip.stamped Gossip.HasScid at *
  split
  · next hk =>
    obtain ⟨scid, hs⟩ := Option.isSome_iff_exists.1 (hg (by simp [hk]))
    simp [Gossip.key?, hk, hs]
  · next hk => simp [Gossip.key?, hk]
  · next hk =>
    obtain ⟨scid, hs⟩ := Option.isSome_iff_exists.1 (hg (by simp [hk]))
    simp [Gossip.key?, hk, hs]

theorem originateStamp_empty {s : NodeState} (hs : s.view = ⊥) (hg : g.HasScid) :
    ∃ s', originateStamp s selfId g now = some (s', g.originated selfId now, true) := by
  unfold originateStamp Gossip.originated Gossip.stamped
  cases hk : g.kind with
  | channelUpdate =>
    obtain ⟨scid, hscid⟩ := Option.isSome_iff_exists.1 (hg (by simp [hk]))
    simp [hscid]
  | nodeAnnouncement => simp
  | channelAnnouncement =>
    obtain ⟨scid, hscid⟩ := Option.isSome_iff_exists.1 (hg (by simp [hk]))
    have hbot : stampView scidStamp s.chanAnns scid = ⊥ :=
      congrFun (congrFun hs .channelAnnouncement) scid
    have hnone : s.chanAnns.lookup scid = none := stampView_eq_bot.1 hbot
    simp [hscid, hnone]

end Message

/-! ## Handlers -/

namespace FloodingNode

variable {V : Type} {c : FloodingCfg V} {m : Gossip} {now : Nat} {n n' : Node} {e : Effects V}

/-- What a node does with a copy of the message; `fresh` is what it had not stored. -/
structure Hears (c : FloodingCfg V) (m : Gossip) (now : Nat) (n n' : Node) (e : Effects V)
    (fresh : List Gossip) : Prop where
  known : m.atom ≤ n.view → fresh = []
  unknown : ¬m.atom ≤ n.view → fresh = [m]
  view : n'.view = n.view ⊔ m.atom
  duplicates : n'.metricsLocal.duplicates + fresh.length = n.metricsLocal.duplicates + 1
  bytesOut : n'.metricsLocal.bytesOutGossip = n.metricsLocal.bytesOutGossip
  sends : e.sends = []
  firstSeen : e.firstSeen = stampSeen fresh now
  schedules : ∃ flushes, e.schedules = fresh.map (fun g => (c.forwardDelay, Ev.doSend g)) ++ flushes ∧
    ∀ x ∈ flushes, x = (1, Ev.flushSummary)

theorem absorb_hears {kind : GossipKind} (hk : m.kind = kind)
    (h : absorb c kind [m] now n = some (n', e)) : ∃ fresh, Hears c m now n n' e fresh := by
  have hg : ∀ g ∈ [m], g.kind = kind := by
    intro g hg
    rw [List.mem_singleton.1 hg, hk]
  have of_spec : ∀ {fresh dups : List Gossip}, AbsorbsAs [m] now n n' e fresh dups [] →
      (∃ flushes, e.schedules = fresh.map (fun g => (c.forwardDelay, Ev.doSend g)) ++ flushes ∧
        ∀ x ∈ flushes, x = (1, Ev.flushSummary)) → Hears c m now n n' e fresh := by
    intro fresh dups a hs
    have hlen : fresh.length + dups.length = 1 := by
      have hl := a.counted.length_eq
      rwa [List.length_append, List.length_singleton] at hl
    have hnil : fresh = [] ↔ m.atom ≤ n.view := by simpa using a.fresh_nil
    refine ⟨hnil.2, fun hnot => ?_, by simpa using a.view, ?_, by rw [a.metrics], a.sends,
      a.firstSeen, hs⟩
    · have hne : fresh ≠ [] := fun hf => hnot (hnil.1 hf)
      have hpos : 0 < fresh.length := List.length_pos_iff.2 hne
      have hdups : dups = [] := List.length_eq_zero_iff.1 (by omega)
      have hperm := a.counted
      rw [hdups, List.append_nil] at hperm
      exact List.perm_singleton.1 hperm
    · rw [a.metrics]
      dsimp only
      omega
  unfold absorb at h
  obtain ⟨⟨n₁, fresh⟩, hab, h⟩ := Option.bind_eq_some_iff.1 h
  dsimp only at h
  split at h
  · next hempty =>
    cases h
    obtain ⟨dups, a⟩ := absorbKind_spec (e := ({} : Effects V)) hg hab rfl rfl
      (by rw [List.isEmpty_iff.1 hempty]; rfl)
    rw [List.isEmpty_iff.1 hempty] at a
    exact ⟨[], of_spec a ⟨[], rfl, by simp⟩⟩
  · cases h
    obtain ⟨dups, a⟩ := absorbKind_spec (e := ⟨[], _, [], _⟩) hg hab rfl rfl rfl
    refine ⟨fresh, of_spec a ⟨n'.maybeForceFlush, rfl, fun x hx => ?_⟩⟩
    unfold Node.maybeForceFlush at hx
    split at hx
    · exact List.mem_singleton.1 hx
    · cases hx

theorem recv_single (h : recv c (.single m) now n = some (n', e)) :
    ∃ fresh, Hears c m now n n' e fresh := by
  obtain ⟨fresh, hh⟩ : ∃ fresh, Hears c m now (n.addBytesInGossip m.sizeBytes) n' e fresh := by
    have h : absorbOne c m now (n.addBytesInGossip m.sizeBytes) = some (n', e) := h
    cases hk : m.kind <;> simp only [absorbOne, hk] at h <;> exact absorb_hears hk h
  exact ⟨fresh, { hh with }⟩

/-- What a broadcast does. -/
structure Passes (c : FloodingCfg V) (m : Gossip) (n n' : Node) (e : Effects V) : Prop where
  duplicates : n'.metricsLocal.duplicates = n.metricsLocal.duplicates
  bytesOut : n'.metricsLocal.bytesOutGossip =
    n.metricsLocal.bytesOutGossip + m.sizeBytes * c.peers.outputs.length
  sends : e.sends = c.broadcast (.single m)
  schedules : e.schedules = []

theorem doSend_passes (h : doSend c m n = some (n', e)) :
    Passes c m n n' e ∧ n'.view = n.view ∧ e.firstSeen = [] := by
  cases h
  exact ⟨⟨rfl, rfl, rfl, rfl⟩, rfl, rfl⟩

theorem originate_passes [MsgHash] {g : Gossip} (hg : g.HasScid) (hn : n.view = ⊥) :
    ∃ n' e, originate c g now n = some (n', e) ∧ Passes c (g.originated c.id now) n n' e ∧
      (g.originated c.id now).atom ≤ n'.view ∧
      e.firstSeen = stampSeen [g.originated c.id now] now := by
  obtain ⟨s', hs⟩ : ∃ s', originateStamp n.state c.id g now = some (s', g.originated c.id now, true) :=
    originateStamp_empty hn hg
  unfold originate Node.stampOriginated
  simp only [hs, Option.bind_eq_bind, Option.bind_some, if_true]
  refine ⟨_, _, rfl, ⟨rfl, rfl, rfl, rfl⟩, ?_, rfl⟩
  have sp := originateStamp_spec hs
  have hr : ¬Regresses n.state c.id g now := by
    rintro ⟨-, hlt⟩
    have hbot : n.state.view g.kind (originKey c.id g) = ⊥ := congrFun (congrFun hn g.kind) _
    rw [hbot] at hlt
    exact not_lt_bot hlt
  show (g.originated c.id now).atom ≤ s'.view
  rw [sp.view_eq_sup hr]
  exact le_sup_right

theorem issued_originate [MsgHash] {g : Gossip} (hg : g.HasScid) (hn : n.view = ⊥) :
    ModelCfg.issued (.originate g) now n (.flooding c) = [.single (g.originated c.id now)] := by
  obtain ⟨s', hs⟩ : ∃ s', originateStamp n.state c.id g now = some (s', g.originated c.id now, true) :=
    originateStamp_empty hn hg
  simp [ModelCfg.issued, Node.originated, Node.stampOriginated, hs]

end FloodingNode

/-! ## The queue -/

section Queue

variable {V : Type} [DecidableEq V]

/-- The events for which a node waits to broadcast. -/
def awaiting (queue : List (Sched V)) (v : V) : List (Sched V) :=
  queue.filter fun q => decide (q.node = v) && q.ev.broadcasts

theorem awaiting_append (qs qs' : List (Sched V)) (v : V) :
    awaiting (qs ++ qs') v = awaiting qs v ++ awaiting qs' v := List.filter_append ..

theorem awaiting_eq_nil {qs : List (Sched V)} {v : V}
    (h : ∀ q ∈ qs, q.node = v → q.ev.broadcasts = false) : awaiting qs v = [] := by
  unfold awaiting
  rw [List.filter_eq_nil_iff]
  intro q hq
  by_cases hv : q.node = v
  · simp [h q hq hv]
  · simp [hv]

theorem awaiting_eraseIdx_of_ne {qs : List (Sched V)} {i : Nat} {q : Sched V} {v : V}
    (h : qs[i]? = some q) (hv : q.node = v → q.ev.broadcasts = false) :
    awaiting (qs.eraseIdx i) v = awaiting qs v := by
  induction qs generalizing i with
  | nil => rfl
  | cons x qs ih =>
    cases i with
    | zero =>
      rw [List.getElem?_cons_zero, Option.some.injEq] at h
      subst h
      have hx : awaiting [x] v = [] := awaiting_eq_nil fun y hy => by rwa [List.mem_singleton.1 hy]
      rw [List.eraseIdx_cons_zero, ← List.singleton_append (x := x), awaiting_append, hx,
        List.nil_append]
    | succ i =>
      rw [List.getElem?_cons_succ] at h
      rw [List.eraseIdx_cons_succ, ← List.singleton_append (x := x), awaiting_append, ih h,
        ← awaiting_append, List.singleton_append]

theorem awaiting_eraseIdx_self {qs : List (Sched V)} {i : Nat} {q : Sched V} {v : V}
    (h : qs[i]? = some q) (hq : awaiting qs v = [q]) : awaiting (qs.eraseIdx i) v = [] := by
  obtain ⟨hi, hget⟩ := List.getElem?_eq_some_iff.1 h
  have hmem : q ∈ awaiting qs v := by
    rw [hq]
    exact List.mem_singleton_self q
  have hp : (awaiting (q :: qs.eraseIdx i) v).Perm (awaiting qs v) :=
    (hget ▸ List.getElem_cons_eraseIdx_perm hi).filter _
  have hcons : awaiting (q :: qs.eraseIdx i) v = q :: awaiting (qs.eraseIdx i) v :=
    List.filter_cons_of_pos (List.mem_filter.1 hmem).2
  rw [hcons, hq] at hp
  have hlen := hp.length_eq
  rw [List.length_cons, List.length_singleton] at hlen
  exact List.length_eq_zero_iff.1 (by omega)

end Queue

/-! ## The network as a flood -/

section Shows

variable {V : Type} {w : Network V} {o : V} {g m : Gossip} {d t₀ : Nat} {f f' : Flood V}

/-- What a flood says of a node and of the tuples it counted. -/
structure NodeShows (w : Network V) (o : V) (m : Gossip) (d t₀ : Nat) (f : Flood V) (v : V)
    (n : Node) (counted : List FirstSeenEntry) : Prop where
  has : f.Has o v → m.atom ≤ n.view ∧
    counted = stampSeen [m] (Flood.hearTime w.topo.graph o t₀ d v)
  hasNot : ¬f.Has o v → n.view = ⊥ ∧ counted = []
  duplicates : n.metricsLocal.duplicates = f.repeats v
  bytesOut : (v ∈ f.sent → n.metricsLocal.bytesOutGossip =
    m.sizeBytes * (w.topo.neighbors v).length) ∧
    (v ∉ f.sent → n.metricsLocal.bytesOutGossip = 0)

theorem NodeShows.congr {v : V} {n n' : Node} {counted : List FirstSeenEntry}
    (h : NodeShows w o m d t₀ f v n counted) (hhas : f'.Has o v ↔ f.Has o v)
    (hsent : v ∈ f'.sent ↔ v ∈ f.sent) (hrep : f'.repeats v = f.repeats v)
    (hview : n'.view = n.view) (hdup : n'.metricsLocal.duplicates = n.metricsLocal.duplicates)
    (hbytes : n'.metricsLocal.bytesOutGossip = n.metricsLocal.bytesOutGossip) :
    NodeShows w o m d t₀ f' v n' counted where
  has hv := hview ▸ h.has (hhas.1 hv)
  hasNot hv := hview ▸ h.hasNot fun hf => hv (hhas.2 hf)
  duplicates := by rw [hdup, hrep, h.duplicates]
  bytesOut := by
    rw [hsent, hbytes]
    exact h.bytesOut

variable [DecidableEq V]

/-- The event for which a vertex waits that is to pass the message on. -/
def waits (o : V) (g m : Gossip) (f : Flood V) (v : V) : List (Sched V) :=
  (f.due v).elim [] fun x =>
    if v ∈ f.sent then [] else [⟨x, v, if v = o then .originate g else .doSend m, none⟩]

/-- The network goes through a flood. -/
structure Shows (w : Network V) (o : V) (g m : Gossip) (d t₀ : Nat) (s : Net V) (f : Flood V) :
    Prop where
  now : f.now = s.now
  flight : f.flight = s.flight.map fun p => (p.src, p.dst)
  wires : ∀ p ∈ s.flight, p.wire = .single m
  waiting : ∀ v, awaiting s.queue v = waits o g m f v
  others : ∀ q ∈ s.queue, q.ev.broadcasts = false → q.ev = .flushSummary
  node : ∀ v, NodeShows w o m d t₀ f v (s.node v) (s.counted v)

/-- A handler of `u` ran. -/
theorem shows_commit {s : Net V} {u : V} {n : Node} {e : Effects V} (hnow : f'.now = s.now)
    (hflight : f'.flight = s.flight.map (fun p => (p.src, p.dst)) ++ e.sends.map fun x => (u, x.1))
    (hwires : ∀ p ∈ s.flight, p.wire = .single m) (hsends : ∀ x ∈ e.sends, x.2 = .single m)
    (hawaiting : ∀ v, awaiting s.queue v ++
      awaiting (e.schedules.map fun x => ⟨s.now + x.1, u, x.2, none⟩) v = waits o g m f' v)
    (hothers : ∀ q ∈ s.queue, q.ev.broadcasts = false → q.ev = .flushSummary)
    (hevents : ∀ x ∈ e.schedules, x.2.broadcasts = false → x.2 = .flushSummary)
    (hu : NodeShows w o m d t₀ f' u n (s.counted u ++ e.firstSeen))
    (hnode : ∀ v, v ≠ u → NodeShows w o m d t₀ f' v (s.node v) (s.counted v)) :
    Shows w o g m d t₀ (s.commit u n e) f' where
  now := hnow
  flight := by
    rw [hflight, Net.commit, List.map_append, List.map_map]
    rfl
  wires p hp := by
    rcases List.mem_append.1 hp with hp | hp
    · exact hwires p hp
    · obtain ⟨x, hx, rfl⟩ := List.mem_map.1 hp
      exact hsends x hx
  waiting v := by
    rw [Net.commit, awaiting_append]
    exact hawaiting v
  others q hq hb := by
    rcases List.mem_append.1 hq with hq | hq
    · exact hothers q hq hb
    · obtain ⟨x, hx, rfl⟩ := List.mem_map.1 hq
      exact hevents x hx hb
  node v := by
    by_cases hv : v = u
    · subst hv
      simpa [Net.commit] using hu
    · simpa [Net.commit, hv] using hnode v hv

/-! ### A copy arrives -/

section Received

variable {s : Net V} {c : FloodingCfg V} {i : Nat} {p : Packet V} {n : Node} {e : Effects V}
  {fresh : List Gossip}

omit [DecidableEq V] in
/-- Whoever hears a message for the first time schedules its relay; a flush passes nothing on. -/
theorem schedules_hears (hh : FloodingNode.Hears c m s.now (s.node p.dst) n e fresh) :
    ∀ x ∈ e.schedules, x.2.broadcasts = false → x.2 = .flushSummary := by
  intro x hx hb
  obtain ⟨flushes, hsched, hflush⟩ := hh.schedules
  rw [hsched] at hx
  rcases List.mem_append.1 hx with hx | hx
  · obtain ⟨g, -, rfl⟩ := List.mem_map.1 hx
    cases hb
  · rw [hflush x hx]

theorem awaiting_hears (hh : FloodingNode.Hears c m s.now (s.node p.dst) n e fresh) (v : V) :
    awaiting (e.schedules.map fun x => (⟨s.now + x.1, p.dst, x.2, none⟩ : Sched V)) v =
      awaiting (fresh.map fun g => ⟨s.now + c.forwardDelay, p.dst, .doSend g, none⟩) v := by
  obtain ⟨flushes, hsched, hflush⟩ := hh.schedules
  have hlate : awaiting (flushes.map fun x => (⟨s.now + x.1, p.dst, x.2, none⟩ : Sched V)) v = [] := by
    refine awaiting_eq_nil fun q hq _ => ?_
    obtain ⟨x, hx, rfl⟩ := List.mem_map.1 hq
    rw [hflush x hx]
    rfl
  rw [hsched, List.map_append, awaiting_append, hlate, List.append_nil, List.map_map]
  rfl

/-- What is left to show of a flood when a receiver ran. -/
theorem Shows.received (h : Shows w o g m d t₀ s f)
    (hh : FloodingNode.Hears c m s.now (s.node p.dst) n e fresh) (hnow : f'.now = f.now)
    (hflight : f'.flight = f.flight.eraseIdx i)
    (hwaits : ∀ v, waits o g m f v ++
      awaiting (fresh.map fun g => ⟨s.now + c.forwardDelay, p.dst, .doSend g, none⟩) v =
        waits o g m f' v)
    (hdst : NodeShows w o m d t₀ f' p.dst n (s.counted p.dst ++ e.firstSeen))
    (hnode : ∀ v, v ≠ p.dst → NodeShows w o m d t₀ f' v (s.node v) (s.counted v)) :
    Shows w o g m d t₀ ({ s with flight := s.flight.eraseIdx i }.commit p.dst n e) f' := by
  refine shows_commit (hnow.trans h.now) ?_ (fun q hq => h.wires q (List.mem_of_mem_eraseIdx hq))
    (by simp [hh.sends]) (fun v => ?_) h.others (schedules_hears hh) hdst hnode
  · rw [hflight, h.flight, hh.sends, List.eraseIdx_map, List.map_nil, List.append_nil]
  · rw [← hwaits, ← awaiting_hears hh, ← h.waiting]

theorem waits_hear {u : V} (hv : f.due u = none) (hunsent : u ∉ f.sent) (hne : u ≠ o)
    (hdue : f'.due = Function.update f.due u (some (f.now + d))) (hsent : f'.sent = f.sent) (v : V) :
    waits o g m f v ++ awaiting [⟨f.now + d, u, .doSend m, none⟩] v = waits o g m f' v := by
  unfold waits
  rw [hdue, hsent]
  by_cases hvu : v = u
  · subst hvu
    rw [hv, Function.update_self]
    simp [hunsent, hne, awaiting, Ev.broadcasts]
  · rw [Function.update_of_ne hvu, awaiting_eq_nil, List.append_nil]
    intro q hq hqv
    rw [List.mem_singleton] at hq
    subst hq
    exact absurd hqv.symm hvu

/-- The first copy. -/
theorem Shows.hear (h : Shows w o g m d t₀ s f) (ht : f.OnTime w.topo.graph o t₀ d)
    (hc : w.topo.graph.Connected)
    (hh : FloodingNode.Hears c m s.now (s.node p.dst) n e fresh) (hdelay : c.forwardDelay = d)
    (hi : f.flight[i]? = some (p.src, p.dst)) (hv : f.due p.dst = none) :
    Shows w o g m d t₀ ({ s with flight := s.flight.eraseIdx i }.commit p.dst n e)
      { f with
        flight := f.flight.eraseIdx i
        due := Function.update f.due p.dst (some (f.now + d))
        delivered := f.delivered + 1 } := by
  have hnode := h.node p.dst
  have hne : p.dst ≠ o := fun he => by
    have hdue := ht.origin
    rw [← he, hv] at hdue
    cases hdue
  have hunsent : p.dst ∉ f.sent := fun hm => (ht.sent p.dst hm).1 hv
  obtain ⟨hbot, hcounted⟩ := hnode.hasNot fun hf => hf.1 hv
  have hfresh : fresh = [m] := hh.unknown (hbot ▸ atom_not_le_bot m)
  subst hfresh
  have hdup := hh.duplicates
  rw [List.length_singleton, Nat.add_right_cancel_iff] at hdup
  refine h.received hh rfl rfl (fun v => ?_) ?_ fun v hvd => ?_
  · rw [hdelay, ← h.now, List.map_singleton]
    refine waits_hear hv hunsent hne ?_ ?_ v <;> rfl
  · refine ⟨fun _ => ⟨?_, ?_⟩, fun hnot => ?_, ?_, ?_⟩
    · rw [hh.view]
      exact le_sup_right
    · rw [hcounted, hh.firstSeen, List.nil_append,
        ← ht.hearTime_eq hc (List.mem_of_getElem? hi) hv, h.now]
    · refine absurd ⟨?_, fun he => absurd he hne⟩ hnot
      dsimp only
      rw [Function.update_self]
      exact Option.some_ne_none _
    · rw [hdup]
      exact hnode.duplicates
    · rw [hh.bytesOut]
      exact hnode.bytesOut
  · refine (h.node v).congr (and_congr_left fun _ => ?_) Iff.rfl rfl rfl rfl rfl
    dsimp only
    rw [Function.update_of_ne hvd]

/-- A repetition. -/
theorem Shows.hearAgain (h : Shows w o g m d t₀ s f) (ht : f.OnTime w.topo.graph o t₀ d)
    (hh : FloodingNode.Hears c m s.now (s.node p.dst) n e fresh)
    (hi : f.flight[i]? = some (p.src, p.dst)) (hv : f.due p.dst ≠ none) :
    Shows w o g m d t₀ ({ s with flight := s.flight.eraseIdx i }.commit p.dst n e)
      { f with
        flight := f.flight.eraseIdx i
        delivered := f.delivered + 1
        repeats := Function.update f.repeats p.dst (f.repeats p.dst + 1) } := by
  have hnode := h.node p.dst
  have hhas : f.Has o p.dst := ⟨hv, fun _ => ht.origin_sent (List.mem_of_getElem? hi)⟩
  obtain ⟨hknown, hcounted⟩ := hnode.has hhas
  have hfresh : fresh = [] := hh.known hknown
  subst hfresh
  have hview : n.view = (s.node p.dst).view := by rw [hh.view, sup_eq_left.2 hknown]
  have hdup := hh.duplicates
  rw [List.length_nil, Nat.add_zero] at hdup
  refine h.received hh rfl rfl (fun v => ?_) ?_ fun v hvd => ?_
  · exact List.append_nil _
  · refine ⟨fun _ => ⟨hview ▸ hknown, ?_⟩, fun hnot => absurd hhas hnot, ?_, ?_⟩
    · rw [hcounted, hh.firstSeen]
      exact List.append_nil _
    · rw [hdup, hnode.duplicates]
      dsimp only
      rw [Function.update_self]
    · rw [hh.bytesOut]
      exact hnode.bytesOut
  · refine (h.node v).congr Iff.rfl Iff.rfl ?_ rfl rfl rfl
    dsimp only
    rw [Function.update_of_ne hvd]

end Received

variable [MsgHash] {s s' : Net V}

theorem Shows.deliver (h : Shows w o g m d t₀ s f) (ht : f.OnTime w.topo.graph o t₀ d)
    (hw : w.FloodsAfter d) (hc : w.topo.graph.Connected) {i : Nat}
    (hs : tstep w s (.deliver i) = some s') : ∃ f', Shows w o g m d t₀ s' f' ∧
      f.Step w.topo.neighbors d f' ∧ f'.delivered = f.delivered + 1 ∧ f'.sent = f.sent := by
  cases moves_of_step (step_of_tstep hs) with
  | @deliver _ p n e hp hr hok =>
  obtain ⟨c, hmodel, hdelay⟩ := hw p.dst
  rw [hmodel, h.wires p (List.mem_of_getElem? hp)] at hr
  obtain ⟨fresh, hh⟩ := FloodingNode.recv_single hr
  have hi : f.flight[i]? = some (p.src, p.dst) := by
    rw [h.flight, List.getElem?_map, hp]
    rfl
  by_cases hv : f.due p.dst = none
  · exact ⟨_, h.hear ht hc hh hdelay hi hv, .hear hi hv, rfl, rfl⟩
  · exact ⟨_, h.hearAgain ht hh hi hv, .hearAgain hi hv, rfl, rfl⟩

/-! ### A node passes the message on -/

omit [MsgHash] in
theorem Shows.not_sent_of_waits (h : Shows w o g m d t₀ s f) {q : Sched V} (hq : q ∈ s.queue)
    (hb : q.ev.broadcasts = true) : f.due q.node = some q.time ∧ q.node ∉ f.sent ∧
      q = ⟨q.time, q.node, if q.node = o then .originate g else .doSend m, none⟩ ∧
      awaiting s.queue q.node = [q] := by
  have hmem : q ∈ waits o g m f q.node := by
    rw [← h.waiting]
    exact List.mem_filter.2 ⟨hq, by simp [hb]⟩
  have hw := h.waiting q.node
  unfold waits at hmem hw
  cases hd : f.due q.node with
  | none =>
    rw [hd] at hmem
    cases hmem
  | some x =>
    rw [hd, Option.elim_some] at hmem hw
    by_cases hs : q.node ∈ f.sent
    · rw [if_pos hs] at hmem
      cases hmem
    · rw [if_neg hs] at hmem hw
      have heq := List.mem_singleton.1 hmem
      have htime : q.time = x := congrArg Sched.time heq
      rw [htime]
      exact ⟨rfl, hs, heq, by rw [hw, ← heq]⟩

/-- The flush of the counters. -/
theorem Shows.flush (h : Shows w o g m d t₀ s f) (hw : w.FloodsAfter d) {i : Nat} {q : Sched V}
    (hq : s.queue[i]? = some q) (hb : q.ev.broadcasts = false) (hs : step w s (.fire i) = some s') :
    Shows w o g m d t₀ s' f ∧ broadcastsOf w s (.fire i) = [] := by
  cases moves_of_step hs with
  | @fire _ q' n e hq' hr hok =>
  obtain rfl : q = q' := Option.some.inj (hq.symm.trans hq')
  obtain ⟨c, hmodel, -⟩ := hw q.node
  have hev := h.others q (List.mem_of_getElem? hq) hb
  rw [hmodel, hev] at hr
  cases hr
  have hagain : ∀ v, awaiting q.again v = [] := fun v => awaiting_eq_nil fun x hx _ => by
    rw [(again_mem hx).2, hb]
  constructor
  · refine shows_commit h.now (by simp [h.flight]) h.wires (by simp) (fun v => ?_) ?_ (by simp) ?_
      fun v _ => h.node v
    · rw [List.map_nil, awaiting_append, hagain, List.append_nil,
        awaiting_eraseIdx_of_ne hq fun _ => hb, h.waiting]
      exact List.append_nil _
    · intro x hx hxb
      rcases List.mem_append.1 hx with hx | hx
      · exact h.others x (List.mem_of_mem_eraseIdx hx) hxb
      · rw [(again_mem hx).2, hev]
    · rw [List.append_nil]
      exact (h.node q.node).congr Iff.rfl Iff.rfl rfl rfl rfl rfl
  · simp [broadcastsOf, hq, hmodel, hev, ModelCfg.issued]

section Pass

variable {c : FloodingCfg V} {i : Nat} {q : Sched V} {n : Node} {e : Effects V}

/-- The origin originates the message, and the others relay it. -/
theorem Shows.passes (h : Shows w o g m d t₀ s f) (ht : f.OnTime w.topo.graph o t₀ d)
    (hg : g.HasScid) (hm : m = g.originated (w.topo.id o) t₀)
    (hmodel : w.model q.node = .flooding c) (hq : q ∈ s.queue) (hb : q.ev.broadcasts = true)
    (htime : q.time = s.now)
    (hr : (w.model q.node).fire s.states q.ev s.now (s.node q.node) = some (n, e)) :
    FloodingNode.Passes c m (s.node q.node) n e ∧
      (m.atom ≤ n.view ∧ s.counted q.node ++ e.firstSeen =
        stampSeen [m] (Flood.hearTime w.topo.graph o t₀ d q.node)) ∧
      (w.model q.node).issued q.ev s.now (s.node q.node) = [.single m] := by
  obtain ⟨hdue, hunsent, heq, -⟩ := h.not_sent_of_waits hq hb
  have hid : c.id = w.topo.id q.node := by
    rw [← w.id_eq, hmodel]
    rfl
  by_cases ho : q.node = o
  · have hev : q.ev = .originate g := by rw [heq, if_pos ho]
    have ht₀ : s.now = t₀ := by
      have horigin := ht.origin
      rw [← ho, hdue, htime, Option.some.injEq] at horigin
      exact horigin
    obtain ⟨hbot, hcounted⟩ := (h.node q.node).hasNot fun hf => hunsent (ho ▸ hf.2 ho)
    have hmsg : g.originated c.id s.now = m := by rw [hm, hid, ho, ht₀]
    obtain ⟨n', e', hor, hpass, hle, hfirst⟩ :
        ∃ n' e', FloodingNode.originate c g s.now (s.node q.node) = some (n', e') ∧
          FloodingNode.Passes c (g.originated c.id s.now) (s.node q.node) n' e' ∧
          (g.originated c.id s.now).atom ≤ n'.view ∧
          e'.firstSeen = stampSeen [g.originated c.id s.now] s.now :=
      FloodingNode.originate_passes hg hbot
    have hne : (n', e') = (n, e) := by
      rw [hmodel, hev] at hr
      exact Option.some.inj (hor.symm.trans hr)
    cases hne
    rw [hmsg] at hpass hle hfirst
    refine ⟨hpass, ⟨hle, ?_⟩, ?_⟩
    · rw [hcounted, hfirst, ho, Flood.hearTime, SimpleGraph.dist_self, ht₀]
      simp
    · rw [hmodel, hev, FloodingNode.issued_originate hg hbot, hmsg]
  · have hev : q.ev = .doSend m := by rw [heq, if_neg ho]
    have hr : FloodingNode.doSend c m (s.node q.node) = some (n, e) := by
      rw [hmodel, hev] at hr
      exact hr
    obtain ⟨hpass, hview, hfirst⟩ := FloodingNode.doSend_passes hr
    have hold : f.Has o q.node :=
      ⟨by rw [hdue]; exact Option.some_ne_none _, fun he => absurd he ho⟩
    obtain ⟨hle, hcounted⟩ := (h.node q.node).has hold
    refine ⟨hpass, ⟨hview ▸ hle, ?_⟩, ?_⟩
    · rw [hcounted, hfirst, List.append_nil]
    · rw [hmodel, hev]
      rfl

omit [MsgHash] in
/-- The event of a node that passed the message on is done with. -/
theorem waits_pass (h : Shows w o g m d t₀ s f) (hq : s.queue[i]? = some q)
    (hb : q.ev.broadcasts = true) (hdue : f'.due = f.due) (hsent : f'.sent = f.sent ++ [q.node])
    (v : V) : awaiting (s.queue.eraseIdx i) v = waits o g m f' v := by
  obtain ⟨hd, -, -, honly⟩ := h.not_sent_of_waits (List.mem_of_getElem? hq) hb
  unfold waits
  rw [hdue, hsent]
  by_cases hv : v = q.node
  · subst hv
    rw [awaiting_eraseIdx_self hq honly]
    simp [hd]
  · rw [awaiting_eraseIdx_of_ne hq fun he => absurd he.symm hv, h.waiting]
    simp [waits, hv]

omit [MsgHash] in
/-- What is left to show of a flood when a handler passed the message on. -/
theorem Shows.passed (h : Shows w o g m d t₀ s f) (hq : s.queue[i]? = some q)
    (hb : q.ev.broadcasts = true) (hpeers : c.peers.outputs = w.topo.neighbors q.node)
    (hpass : FloodingNode.Passes c m (s.node q.node) n e)
    (hhas : m.atom ≤ n.view ∧ s.counted q.node ++ e.firstSeen =
      stampSeen [m] (Flood.hearTime w.topo.graph o t₀ d q.node)) :
    Shows w o g m d t₀ ({ s with queue := s.queue.eraseIdx i ++ q.again }.commit q.node n e)
      { f with
        sent := f.sent ++ [q.node]
        flight := f.flight ++ (w.topo.neighbors q.node).map fun x => (q.node, x) } := by
  obtain ⟨hdue, hunsent, heq, -⟩ := h.not_sent_of_waits (List.mem_of_getElem? hq) hb
  have hagain : q.again = [] := by
    rw [heq]
    rfl
  have hhas' : ({ f with
      sent := f.sent ++ [q.node]
      flight := f.flight ++ (w.topo.neighbors q.node).map fun x => (q.node, x) } : Flood V).Has o
        q.node :=
    ⟨by rw [hdue]; exact Option.some_ne_none _, fun he => he ▸ List.mem_append_right _
      (List.mem_singleton_self _)⟩
  refine shows_commit h.now ?_ h.wires ?_ (fun v => ?_) ?_ ?_ ?_ fun v hv => ?_
  · rw [h.flight, hpass.sends, NodeCfg.broadcast, hpeers, List.map_map]
    rfl
  · intro x hx
    rw [hpass.sends] at hx
    exact (mem_broadcast.1 hx).2
  · rw [hpass.schedules, hagain, List.append_nil, List.map_nil]
    show awaiting (s.queue.eraseIdx i) v ++ [] = _
    rw [List.append_nil]
    refine waits_pass h hq hb ?_ ?_ v <;> rfl
  · intro x hx hxb
    rw [hagain, List.append_nil] at hx
    exact h.others x (List.mem_of_mem_eraseIdx hx) hxb
  · simp [hpass.schedules]
  · refine ⟨fun _ => hhas, fun hnot => absurd hhas' hnot, ?_, fun _ => ?_, fun hnot => ?_⟩
    · rw [hpass.duplicates]
      exact (h.node q.node).duplicates
    · rw [hpass.bytesOut, (h.node q.node).bytesOut.2 hunsent, hpeers, Nat.zero_add]
    · exact absurd (List.mem_append_right _ (List.mem_singleton_self _)) hnot
  · refine (h.node v).congr (and_congr_right fun hd => ?_) ?_ rfl rfl rfl rfl
    · by_cases hvo : v = o
      · have hqo : q.node ≠ o := fun he => hv (hvo.trans he.symm)
        simp [hvo, Ne.symm hqo]
      · simp [hvo]
    · simp [hv]

theorem Shows.pass (h : Shows w o g m d t₀ s f) (ht : f.OnTime w.topo.graph o t₀ d)
    (hw : w.FloodsAfter d) (hg : g.HasScid) (hm : m = g.originated (w.topo.id o) t₀)
    (hq : s.queue[i]? = some q) (hb : q.ev.broadcasts = true) (htime : q.time = s.now)
    (hs : step w s (.fire i) = some s') : ∃ f', Shows w o g m d t₀ s' f' ∧
      f.Step w.topo.neighbors d f' ∧ f'.delivered = f.delivered ∧ f'.sent = f.sent ++ [q.node] ∧
      broadcastsOf w s (.fire i) = [(q.node, .single m)] := by
  cases moves_of_step hs with
  | @fire _ q' n e hq' hr hok =>
  obtain rfl : q = q' := Option.some.inj (hq.symm.trans hq')
  obtain ⟨c, hmodel, -⟩ := hw q.node
  obtain ⟨hdue, hunsent, -, -⟩ := h.not_sent_of_waits (List.mem_of_getElem? hq) hb
  have hnow : f.due q.node = some f.now := by rw [hdue, htime, h.now]
  have hpeers : c.peers.outputs = w.topo.neighbors q.node := by
    rw [← Peers.outputs_wire w.topo.id (w.topo.neighbors q.node), ← w.peers_eq, hmodel]
    rfl
  obtain ⟨hpass, hhas, hissued⟩ := h.passes ht hg hm hmodel (List.mem_of_getElem? hq) hb htime hr
  refine ⟨_, h.passed hq hb hpeers hpass hhas, .pass hnow hunsent, rfl, rfl, ?_⟩
  simp [broadcastsOf, hq, hissued]

end Pass

/-- Time passes. -/
theorem Shows.advance (h : Shows w o g m d t₀ s f) {t : Nat}
    (hs : tstep w s (.advance t) = some s') : ∃ f', Shows w o g m d t₀ s' f' ∧
      f.Step w.topo.neighbors d f' ∧ f'.delivered = f.delivered ∧ f'.sent = f.sent := by
  have hidle : s.flight = [] ∧ ∀ q ∈ s.queue, t ≤ q.time := by
    by_contra hnot
    have hfalse : (s.flight.isEmpty && s.queue.all fun q => decide (t ≤ q.time)) = false := by
      rw [← Bool.not_eq_true]
      simpa using hnot
    simp [tstep, hfalse] at hs
  cases moves_of_step (step_of_tstep hs) with
  | advance hle =>
  refine ⟨_, ?_, .advance (t := t) (h.now ▸ hle) (by rw [h.flight, hidle.1, List.map_nil]) ?_, rfl, rfl⟩
  · exact ⟨rfl, h.flight, h.wires, h.waiting, h.others, fun v =>
      (h.node v).congr Iff.rfl Iff.rfl rfl rfl rfl rfl⟩
  · intro v x hx hv
    have hmem : (⟨x, v, if v = o then .originate g else .doSend m, none⟩ : Sched V) ∈
        awaiting s.queue v := by
      rw [h.waiting, waits, hx, Option.elim_some, if_neg hv]
      exact List.mem_singleton_self _
    exact hidle.2 _ (List.mem_filter.1 hmem).1

end Shows

/-! ## Runs -/

section Runs

variable {V : Type} [DecidableEq V] [MsgHash] {w : Network V} {o : V} {g m : Gossip} {d t₀ : Nat}
  {f : Flood V} {s s' : Net V}

/-- A network of flooding nodes on a connected peer graph, in which `m` is to spread from `o`. -/
structure FloodSetup (w : Network V) (o : V) (g m : Gossip) (d t₀ : Nat) : Prop where
  floods : w.FloodsAfter d
  delay : 0 < d
  simple : w.topo.Simple
  connected : w.topo.graph.Connected
  hasScid : g.HasScid
  message : m = g.originated (w.topo.id o) t₀

/-- A network and the flood it goes through. -/
structure Spreads (w : Network V) (o : V) (g m : Gossip) (d t₀ : Nat) (s : Net V) (f : Flood V) :
    Prop where
  shows : Shows w o g m d t₀ s f
  onTime : f.OnTime w.topo.graph o t₀ d
  counts : f.Counts w.topo.nodes w.topo.neighbors
  ahead : s.Ahead

/-- The vertices that passed the message on, with what they sent. -/
def passed (m : Gossip) (f : Flood V) : List (V × WireMessage) := f.sent.map fun v => (v, .single m)

theorem Spreads.step (h : Spreads w o g m d t₀ s f) (hset : FloodSetup w o g m d t₀) {l : Label}
    (hs : tstep w s l = some s') : ∃ f', Spreads w o g m d t₀ s' f' ∧
      f'.delivered = f.delivered + [l].countP Label.isDelivery ∧
      passed m f' = passed m f ++ broadcastsOf w s l := by
  have ofStep : ∀ {f'}, Shows w o g m d t₀ s' f' → f.Step w.topo.neighbors d f' →
      Spreads w o g m d t₀ s' f' := fun hshows hstep =>
    ⟨hshows, h.onTime.step hset.connected hset.simple.mem_neighbors hstep,
      h.counts.step w.topo.nodup w.topo.mem_nodes hstep, h.ahead.step hs⟩
  cases l with
  | advance t =>
    obtain ⟨f', hshows, hstep, hdel, hsent⟩ := h.shows.advance hs
    exact ⟨f', ofStep hshows hstep, hdel, by simp [passed, hsent, broadcastsOf]⟩
  | deliver i =>
    obtain ⟨f', hshows, hstep, hdel, hsent⟩ := h.shows.deliver h.onTime hset.floods hset.connected hs
    exact ⟨f', ofStep hshows hstep, hdel, by simp [passed, hsent, broadcastsOf]⟩
  | fire i =>
    obtain ⟨q, hq, htime⟩ : ∃ q, s.queue[i]? = some q ∧ q.time = s.now := by
      simp only [tstep, Option.bind_eq_bind, Option.bind_eq_some_iff] at hs
      obtain ⟨q, hq, hs⟩ := hs
      exact ⟨q, hq, by_contra fun hne => by simp [hne] at hs⟩
    cases hb : q.ev.broadcasts with
    | false =>
      obtain ⟨hshows, hnone⟩ := h.shows.flush hset.floods hq hb (step_of_tstep hs)
      exact ⟨f, ⟨hshows, h.onTime, h.counts, h.ahead.step hs⟩, rfl, by rw [hnone, List.append_nil]⟩
    | true =>
      obtain ⟨f', hshows, hstep, hdel, hsent, hout⟩ := h.shows.pass h.onTime hset.floods hset.hasScid
        hset.message hq hb htime (step_of_tstep hs)
      exact ⟨f', ofStep hshows hstep, hdel, by simp [passed, hsent, hout]⟩

theorem Spreads.run (h : Spreads w o g m d t₀ s f) (hset : FloodSetup w o g m d t₀)
    {ls : List Label} (hr : LnConv.run (tstep w) s ls = some s') : ∃ f', Spreads w o g m d t₀ s' f' ∧
      f'.delivered = f.delivered + ls.countP Label.isDelivery ∧
      passed m f' = passed m f ++ collect (tstep w) (broadcastsOf w) s ls := by
  induction ls generalizing s f with
  | nil =>
    cases hr
    exact ⟨f, h, rfl, by simp [collect]⟩
  | cons l ls ih =>
    obtain ⟨s₁, hs, hr⟩ := Option.bind_eq_some_iff.1 hr
    obtain ⟨f₁, h₁, hdel₁, hout₁⟩ := h.step hset hs
    obtain ⟨f', h', hdel, hout⟩ := ih h₁ hr
    refine ⟨f', h', ?_, ?_⟩
    · rw [hdel, hdel₁, Nat.add_assoc, ← List.countP_append, List.singleton_append]
    · rw [hout, hout₁, collect, hs, List.append_assoc]
      rfl

/-- The network starts with the flood about to start. -/
theorem Spreads.init (hset : FloodSetup w o g m d (max t₀ 1)) {s₀ : Net V}
    (h₀ : LnConv.init w [(t₀, o, g)] = some s₀) :
    Spreads w o g m d (max t₀ 1) s₀ (Flood.start o (max t₀ 1) 0) := by
  have hahead := Net.Ahead.init h₀
  have harmed : ∀ v, ∀ a ∈ (w.model v).armed, a.2.1 = Ev.flushSummary := by
    intro v a ha
    obtain ⟨c, hmodel, -⟩ := hset.floods v
    rw [hmodel] at ha
    simp only [ModelCfg.armed, FloodingNode.armFlush] at ha
    rcases List.mem_append.1 ha with ha | ha
    · split at ha
      · rw [List.mem_singleton.1 ha]
      · cases ha
    · rw [List.mem_singleton.1 ha]
  have horigin : ∀ v, (Flood.start o (max t₀ 1) 0).due v = none ↔ v ≠ o := by
    intro v
    by_cases hv : v = o
    · subst hv
      simp
    · simp [Flood.start_due_of_ne hv, hv]
  rw [init_eq h₀]
  refine ⟨⟨rfl, rfl, by simp, fun v => ?_, fun q hq hb => ?_, fun v => ?_⟩,
    .start hset.connected (Nat.zero_le _), .start w.topo.nodup (w.topo.mem_nodes o) 0, ?_⟩
  · have hflush : awaiting (w.topo.nodes.flatMap fun v => (w.model v).armed.map fun a =>
        (⟨a.1, v, a.2.1, a.2.2⟩ : Sched V)) v = [] := by
      apply awaiting_eq_nil
      intro q hq _
      obtain ⟨u, -, hq⟩ := List.mem_flatMap.1 hq
      obtain ⟨a, ha, rfl⟩ := List.mem_map.1 hq
      dsimp only
      rw [harmed u a ha]
      rfl
    have htime : (if t₀ = 0 then 1 else t₀) = max t₀ 1 := by
      split <;> omega
    unfold initialQueue
    rw [awaiting_append, hflush, List.nil_append, List.map_singleton]
    dsimp only
    rw [htime]
    unfold waits
    by_cases hv : v = o
    · subst hv
      rw [Flood.start_due_self]
      simp [awaiting, Flood.start, Ev.broadcasts]
    · rw [Flood.start_due_of_ne hv]
      simp [awaiting, Ne.symm hv]
  · rcases List.mem_append.1 hq with hq | hq
    · obtain ⟨u, -, hq⟩ := List.mem_flatMap.1 hq
      obtain ⟨a, ha, rfl⟩ := List.mem_map.1 hq
      exact harmed u a ha
    · rw [List.map_singleton, List.mem_singleton] at hq
      rw [hq] at hb
      cases hb
  · obtain ⟨c, hmodel, -⟩ := hset.floods v
    have hnot : ¬(Flood.start o (max t₀ 1) 0).Has o v := by
      rintro ⟨hd, ho⟩
      exact absurd (ho (by_contra fun hne => hd ((horigin v).2 hne))) List.not_mem_nil
    refine ⟨fun hv => absurd hv hnot, fun _ => ⟨view_new _, rfl⟩, ?_, ?_, fun _ => ?_⟩
    · dsimp only
      rw [hmodel]
      rfl
    · exact fun hv => absurd hv List.not_mem_nil
    · dsimp only
      rw [hmodel]
      rfl
  · rw [← init_eq h₀]
    exact hahead

/-! ## Nothing gets stuck -/

theorem Spreads.live (h : Spreads w o g m d t₀ s f) (hset : FloodSetup w o g m d t₀) : s.Live w := by
  refine ⟨h.ahead, fun hne => ?_, fun i q hq htime => ?_⟩
  · obtain ⟨p, ps, hp⟩ := List.exists_cons_of_ne_nil hne
    obtain ⟨c, hmodel, hdelay⟩ := hset.floods p.dst
    have hwire : p.wire = .single m := h.shows.wires p (hp ▸ List.mem_cons_self)
    have hkey : m.key?.isSome := hset.message ▸ key?_originated hset.hasScid
    obtain ⟨⟨n, e⟩, hr⟩ : ∃ r, FloodingNode.recv c (.single m) s.now (s.node p.dst) = some r :=
      FloodingNode.recv_total (fun g hg => by rwa [List.mem_singleton.1 hg]) _
    obtain ⟨fresh, hh⟩ := FloodingNode.recv_single hr
    have hok : e.scheduleOk = true := by
      obtain ⟨flushes, hsched, hflush⟩ := hh.schedules
      rw [Effects.scheduleOk, hsched, List.all_eq_true]
      intro x hx
      rcases List.mem_append.1 hx with hx | hx
      · obtain ⟨g, -, rfl⟩ := List.mem_map.1 hx
        have hd := hset.delay
        simp only [bne_iff_ne, hdelay]
        omega
      · rw [hflush x hx]
        rfl
    have hmr : (w.model p.dst).recv p.wire s.now (s.node p.dst) = some (n, e) := by
      rw [hmodel, hwire]
      exact hr
    have hp₀ : s.flight[0]? = some p := by
      rw [hp]
      rfl
    exact ⟨_, tstep_deliver hp₀ hmr hok⟩
  · obtain ⟨c, hmodel, -⟩ := hset.floods q.node
    obtain ⟨n, e, hr, hsched⟩ : ∃ n e, (w.model q.node).fire s.states q.ev s.now (s.node q.node) =
        some (n, e) ∧ e.schedules = [] := by
      rw [hmodel]
      cases hb : q.ev.broadcasts with
      | false =>
        rw [h.shows.others q (List.mem_of_getElem? hq) hb]
        exact ⟨_, _, rfl, rfl⟩
      | true =>
        obtain ⟨-, hunsent, heq, -⟩ := h.shows.not_sent_of_waits (List.mem_of_getElem? hq) hb
        by_cases ho : q.node = o
        · have hev : q.ev = .originate g := by rw [heq, if_pos ho]
          have hbot := ((h.shows.node q.node).hasNot fun hf => hunsent (ho ▸ hf.2 ho)).1
          obtain ⟨n, e, hor, hpass, -⟩ : ∃ n e,
              FloodingNode.originate c g s.now (s.node q.node) = some (n, e) ∧
              FloodingNode.Passes c (g.originated c.id s.now) (s.node q.node) n e ∧ _ :=
            FloodingNode.originate_passes hset.hasScid hbot
          rw [hev]
          exact ⟨n, e, hor, hpass.schedules⟩
        · have hev : q.ev = .doSend m := by rw [heq, if_neg ho]
          rw [hev]
          exact ⟨_, _, rfl, rfl⟩
    have hok : e.scheduleOk = true := by
      rw [Effects.scheduleOk, hsched]
      rfl
    exact ⟨_, tstep_fire hq htime hr hok⟩

/-! ## Quiet -/

omit [MsgHash] in
theorem Spreads.spent_iff (h : Spreads w o g m d t₀ s f) : s.Spent ↔ f.Quiet := by
  have hflight : s.flight = [] ↔ f.flight = [] := by
    rw [h.shows.flight, List.map_eq_nil_iff]
  refine and_congr hflight ⟨fun hs v hd => ?_, fun hq q hqm => ?_⟩
  · by_contra hv
    obtain ⟨x, hx⟩ := Option.ne_none_iff_exists'.1 hd
    have hmem : (⟨x, v, if v = o then .originate g else .doSend m, none⟩ : Sched V) ∈
        awaiting s.queue v := by
      rw [h.shows.waiting, waits, hx, Option.elim_some, if_neg hv]
      exact List.mem_singleton_self _
    obtain ⟨hin, hb⟩ := List.mem_filter.1 hmem
    rw [hs _ hin, Bool.and_false] at hb
    cases hb
  · cases hb : q.ev.broadcasts with
    | false => rfl
    | true =>
      obtain ⟨hd, hv, -⟩ := h.shows.not_sent_of_waits hqm hb
      exact absurd (hq q.node (by rw [hd]; exact Option.some_ne_none _)) hv

/-- What a flood of `m` leaves behind: every node recorded it once, at its time, and broadcast it
once, each edge carried it both ways, and all but its first copies were duplicates. -/
structure FloodExact [Fintype V] (w : Network V) (o : V) (m : Gossip) (d t₀ : Nat)
    (broadcasts : List (V × WireMessage)) (deliveries : Nat) (s : Net V) : Prop where
  origin : s.counted o = stampSeen [m] t₀
  others : ∀ v, v ≠ o → s.counted v = stampSeen [m] (t₀ + (w.topo.graph.dist o v - 1) * d)
  broadcasts : broadcasts.Perm (w.topo.nodes.map fun v => (v, .single m))
  deliveries : deliveries = 2 * w.topo.graph.edgeFinset.card
  duplicates : total w.topo.nodes (fun v => (s.node v).metricsLocal.duplicates) =
    2 * w.topo.graph.edgeFinset.card - (w.topo.nodes.length - 1)
  bytesOut : total w.topo.nodes (fun v => (s.node v).metricsLocal.bytesOutGossip) =
    2 * w.topo.graph.edgeFinset.card * m.sizeBytes

theorem Spreads.exact [Fintype V] (h : Spreads w o g m d t₀ s f) (hset : FloodSetup w o g m d t₀)
    (hs : s.Spent) : FloodExact w o m d t₀ (passed m f) f.delivered s := by
  have hq := h.spent_iff.1 hs
  have hc := hset.connected
  have hhas : ∀ v, f.Has o v := fun v =>
    ⟨by rw [h.onTime.due_eq hc hq]; exact Option.some_ne_none _, fun _ => h.onTime.all_sent hc hq o⟩
  have hcounted := fun v => ((h.shows.node v).has (hhas v)).2
  obtain ⟨hdel, hrep⟩ := Flood.totals h.onTime h.counts hc hq w.topo.nodup w.topo.mem_nodes
  have hedges := Flood.total_neighbors hset.simple.mem_neighbors hset.simple.nodup w.topo.nodup
    w.topo.mem_nodes
  have hpos : 0 < w.topo.nodes.length := List.length_pos_of_mem (w.topo.mem_nodes o)
  refine ⟨?_, fun v _ => hcounted v, ?_, hdel.trans hedges, ?_, ?_⟩
  · rw [hcounted o, Flood.hearTime, SimpleGraph.dist_self, Nat.zero_sub, Nat.zero_mul, Nat.add_zero]
  · exact (Flood.sent_perm h.onTime h.counts hc hq w.topo.nodup w.topo.mem_nodes).map _
  · rw [total_congr fun v _ => (h.shows.node v).duplicates]
    omega
  · rw [total_congr fun v _ => (h.shows.node v).bytesOut.1 (h.onTime.all_sent hc hq v), ← hedges]
    unfold total
    rw [List.sum_map_mul_left, Nat.mul_comm]

theorem Spreads.spent_of_lt [Fintype V] (h : Spreads w o g m d t₀ s f)
    (hset : FloodSetup w o g m d t₀)
    (hlt : t₀ + (w.topo.nodes.length - 1) * d < s.now) : s.Spent := by
  have hcard : Fintype.card V = w.topo.nodes.length := by
    have huniv : (Finset.univ : Finset V) = w.topo.nodes.toFinset := by
      ext v
      simp [w.topo.mem_nodes v]
    rw [← Finset.card_univ, huniv, List.toFinset_card_of_nodup w.topo.nodup]
  refine h.spent_iff.2 (h.onTime.quiet_of_lt fun v => ?_)
  obtain ⟨p, hp, hlen⟩ := hset.connected.exists_path_of_dist o v
  have hdist : w.topo.graph.dist o v ≤ w.topo.nodes.length - 1 := by
    have hl := hp.length_lt
    omega
  calc Flood.sendTime w.topo.graph o t₀ d v
    _ ≤ t₀ + (w.topo.nodes.length - 1) * d :=
      Nat.add_le_add_left (Nat.mul_le_mul_right d hdist) t₀
    _ < s.now := hlt
    _ = f.now := h.shows.now.symm

end Runs

/-! ## Three nodes in a line -/

section Line

/-- A hash for runs on fixed inputs. -/
local instance lineHash : MsgHash := ⟨List.length⟩

/-- Node 0 sends to node 1, which echoes and sends on to node 2, which echoes. -/
def lineLabels : List Label :=
  [.advance (10 ^ 9), .fire 3, .deliver 0, .advance (10 ^ 9 + 10 ^ 8), .fire 3, .deliver 0,
    .deliver 0, .advance (10 ^ 9 + 2 * 10 ^ 8), .fire 3, .deliver 0]

instance (s : Net (Fin 3)) : Decidable s.Spent :=
  decidable_of_iff (s.flight.isEmpty = true ∧ ∀ q ∈ s.queue, q.ev.broadcasts = false)
    (and_congr_left' List.isEmpty_iff)

theorem line_connected : (floodLine (10 * 10 ^ 9)).topo.graph.Connected := by
  have hadj : ∀ v, (floodLine (10 * 10 ^ 9)).topo.graph.Adj 1 v ∨ 1 = v := by decide
  rw [SimpleGraph.connected_iff_exists_forall_reachable]
  exact ⟨1, fun v => (hadj v).elim SimpleGraph.Adj.reachable fun h => h ▸ .refl 1⟩

end Line

end LnConv
