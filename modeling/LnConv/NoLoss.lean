import LnConv.Lib.Push
import LnConv.Net

/-!
# No gossip is lost between neighbours

Flooding, Cln and Lnd nodes push: what they learn they put on the pending queue,
schedule or send to every peer. `Pushes` says what a handler owes its peers, and
`Network.lossFree` that a step of the network is a loss-free step of the push
protocol, as long as no origination regresses (`Steady`).
-/

namespace LnConv

variable {V : Type} [DecidableEq V]

/-- Everything a node with these effects still owes to `v`. -/
def dues (n : Node) (e : Effects V) (v : V) : List Gossip := n.pending ++ e.scheduled ++ e.sentTo v

/-- What a handler owes: nothing is forgotten; a pushing node passes on what it
learns; what was owed (the pending queue and the input event) still is. -/
structure Pushes (c : NodeCfg V) (push : Bool) (inp : List Gossip) (n n' : Node) (e : Effects V) :
    Prop where
  mono : n.view ≤ n'.view
  learn : push = true → ∀ v ∈ c.peers.outputs, n'.view ≤ n.view ⊔ joinOf (dues n' e v)
  flow : ∀ v ∈ c.peers.outputs, n.pending ++ inp ⊆ dues n' e v

/-! ## Handlers -/

section Handlers

variable {c : NodeCfg V} {push : Bool} {n n' n₀ : Node} {e : Effects V} {now : Nat}

/-- A handler that leaves the state and the pending queue alone. -/
theorem Pushes.of_same (hs : n'.state = n.state) (hp : n'.pending = n.pending) :
    Pushes c push [] n n' e where
  mono := by simp [Node.view, hs]
  learn := fun _ _ _ => by simp [Node.view, hs]
  flow := fun _ _ => by simp [dues, hp]

theorem Absorbs.pushes {f : Forward} {gs : List Gossip} (h : Absorbs f gs now n₀ n' e)
    (hv : n₀.view = n.view) (hp : n₀.pending = n.pending) (c : NodeCfg V)
    (hpush : push = true → f ≠ .nowhere) : Pushes c push [] n n' e := by
  obtain ⟨fresh, dups, a, s, -⟩ := h
  refine ⟨?_, fun hpu v _ => ?_, fun v _ => ?_⟩
  · rw [a.view, hv]; exact le_sup_left
  · rw [← hv]
    refine a.learnt.trans (sup_le_sup_left (supOf_mono fun g hg => ?_) _)
    rw [dues, a.pending, s]
    cases f with
    | queue => simp [Forward.queued, hg]
    | schedule => simp [Forward.scheduled, hg]
    | nowhere => exact absurd rfl (hpush hpu)
  · intro g hg
    rw [dues, a.pending, hp]
    simp_all

/-- Broadcasting keeps every due gossip due. -/
theorem subset_dues_broadcast {gs : List Gossip} (wire : WireMessage)
    (hs : e.sends = c.broadcast wire) (hg : gs ⊆ wire.gossips) {v : V} (hv : v ∈ c.peers.outputs) :
    gs ⊆ dues n e v := by
  intro g h
  refine List.mem_append_right _ (Effects.mem_sentTo.2 ⟨wire, ?_, hg h⟩)
  rw [hs]
  exact mem_broadcast.2 ⟨hv, rfl⟩

variable [MsgHash]

/-- An origination that does not regress teaches its own atom, and a message that
is broadcast or queued is due. -/
theorem pushes_originate {msg : Gossip} {r : Option Gossip}
    (h : n.stampOriginated c msg now = some (n₀, r)) (hr : ¬ Regresses n.state c.id msg now)
    (hs : n'.state = n₀.state) (hp : n₀.pending ⊆ n'.pending)
    (hd : push = true → ∀ m, r = some m → ∀ v ∈ c.peers.outputs, m ∈ dues n' e v) :
    Pushes c push [] n n' e := by
  obtain ⟨m, b, sp, hpend, -, hcase⟩ := stampOriginated_spec h
  have hview : n'.view = n.view ⊔ m.atom := by
    rw [Node.view, hs, sp.view_eq_sup hr]; rfl
  refine ⟨hview ▸ le_sup_left, fun hpu v hv => ?_, fun v _ => ?_⟩
  · rcases hcase with ⟨-, rfl, -⟩ | ⟨rfl, -, -⟩
    · rw [hview]
      exact sup_le_sup_left (le_supOf (f := Gossip.atom) (hd hpu m rfl v hv)) _
    · rw [hview]
      exact sup_le le_sup_left ((sp.old rfl).2.trans le_sup_left)
  · rw [List.append_nil, ← hpend]
    exact fun g hg => List.mem_append_left _ (List.mem_append_left _ (hp hg))

end Handlers

/-! ## Models -/

section Models

variable {n n' : Node} {e : Effects V} {now : Nat}

theorem recv_pushes {mc : ModelCfg V} {wire : WireMessage}
    (h : mc.recv wire now n = some (n', e)) :
    Pushes mc.base (!mc.isSketch) [] n n' e ∧ joinOf wire.gossips ≤ n'.view := by
  obtain ⟨hs, hp, -⟩ := mc.countIn_frame wire n
  have a := ModelCfg.recv_absorbs h
  refine ⟨a.pushes (congrArg NodeState.view hs) hp _ ?_, ?_⟩
  · cases mc <;> simp [ModelCfg.isSketch, ModelCfg.forward]
  · obtain ⟨_, _, a, -⟩ := a
    rw [a.view]; exact le_sup_right

theorem FloodingNode.doSend_pushes {c : FloodingCfg V} {msg : Gossip}
    (h : FloodingNode.doSend c msg n = some (n', e)) : Pushes c.toNodeCfg true [msg] n n' e := by
  cases h
  refine ⟨le_rfl, fun _ _ _ => le_sup_left, fun v hv => List.append_subset.2 ⟨?_, ?_⟩⟩
  · exact fun g hg => List.mem_append_left _ (List.mem_append_left _ hg)
  · exact subset_dues_broadcast (.single msg) rfl (List.Subset.refl _) hv

theorem ClnNode.tick_pushes {c : ClnCfg V} (h : ClnNode.tick c n = some (n', e)) :
    Pushes c.toNodeCfg true [] n n' e := by
  simp only [tick] at h
  split at h
  · cases h; exact .of_same rfl rfl
  · cases h
    refine ⟨le_rfl, fun _ _ _ => le_sup_left, fun v hv => ?_⟩
    rw [List.append_nil]
    exact subset_dues_broadcast (.batch (.fromMixed n.pending)) rfl
      (fun g hg => GossipBatch.mem_fromMixed.2 hg) hv

theorem LndNode.sendBatch_pushes {c : LndCfg V} {batch : GossipBatch}
    (h : LndNode.sendBatch c batch n = some (n', e)) :
    Pushes c.toNodeCfg true batch.gossips n n' e := by
  cases h
  refine ⟨le_rfl, fun _ _ _ => le_sup_left, fun v hv => List.append_subset.2 ⟨?_, ?_⟩⟩
  · exact fun g hg => List.mem_append_left _ (List.mem_append_left _ hg)
  · exact subset_dues_broadcast (.batch batch) rfl (List.Subset.refl _) hv

/-- Chunk by chunk, everything pending is sent or scheduled. -/
theorem LndNode.tick_pushes {c : LndCfg V} (h : LndNode.tick c n = some (n', e)) :
    Pushes c.toNodeCfg true [] n n' e := by
  simp only [tick] at h
  split at h
  · cases h; exact .of_same rfl rfl
  next hne =>
  simp only [Option.bind_eq_bind, Option.bind_eq_some_iff] at h
  obtain ⟨sub, hsub, h⟩ := h
  have hpos : 0 < sub :=
    calculateSubBatchSize_pos c.minBatchSize_pos (List.length_pos_iff.2 (by simpa using hne)) hsub
  have hflat := flatten_chunks n.pending hpos
  cases hch : chunks sub n.pending with
  | nil =>
    rw [hch] at hflat
    exact absurd hflat.symm (by simpa using hne)
  | cons first rest =>
    rw [hch] at h hflat
    cases h
    refine ⟨le_rfl, fun _ _ _ => le_sup_left, fun v hv => ?_⟩
    rw [List.append_nil, ← hflat, List.flatten_cons]
    refine List.append_subset.2 ⟨?_, fun g hg => ?_⟩
    · exact subset_dues_broadcast (.batch (.fromMixed first)) rfl
        (fun g hg => GossipBatch.mem_fromMixed.2 hg) hv
    · obtain ⟨chunk, hc, hg⟩ := List.mem_flatten.1 hg
      obtain ⟨i, hi, rfl⟩ := List.mem_iff_getElem.1 hc
      refine List.mem_append_left _ (List.mem_append_right _ ?_)
      refine List.mem_flatMap.2 ⟨_, List.mem_mapIdx.2 ⟨i, by simpa using hi, rfl⟩, ?_⟩
      simpa using hg

variable [MsgHash]

theorem FloodingNode.originate_pushes {c : FloodingCfg V} {msg : Gossip}
    (h : FloodingNode.originate c msg now n = some (n', e))
    (hr : ¬ Regresses n.state c.id msg now) : Pushes c.toNodeCfg true [] n n' e := by
  simp only [originate, Option.bind_eq_bind, Option.bind_eq_some_iff] at h
  obtain ⟨⟨n₀, r⟩, hst, h⟩ := h
  cases r with
  | none =>
    cases h
    exact pushes_originate hst hr rfl (fun _ => id) (by simp)
  | some m =>
    cases h
    refine pushes_originate hst hr rfl (fun _ => id) ?_
    rintro - _ ⟨⟩ v hv
    exact subset_dues_broadcast (.single m) rfl (List.Subset.refl _) hv (List.mem_singleton.2 rfl)

theorem ClnNode.originate_pushes {c : ClnCfg V} {msg : Gossip}
    (h : ClnNode.originate c msg now n = some (n', e))
    (hr : ¬ Regresses n.state c.id msg now) : Pushes c.toNodeCfg true [] n n' e := by
  simp only [originate, Option.bind_eq_bind, Option.bind_eq_some_iff] at h
  obtain ⟨⟨n₀, r⟩, hst, h⟩ := h
  cases r with
  | none =>
    cases h
    exact pushes_originate hst hr rfl (fun _ => id) (by simp)
  | some m =>
    cases h
    refine pushes_originate hst hr rfl (fun _ => id) ?_
    rintro - _ ⟨⟩ v hv
    exact subset_dues_broadcast (.single m) rfl (List.Subset.refl _) hv (List.mem_singleton.2 rfl)

theorem LndNode.originate_pushes {c : LndCfg V} {msg : Gossip}
    (h : LndNode.originate c msg now n = some (n', e))
    (hr : ¬ Regresses n.state c.id msg now) : Pushes c.toNodeCfg true [] n n' e := by
  simp only [originate, Option.bind_eq_bind, Option.bind_eq_some_iff] at h
  obtain ⟨⟨n₀, r⟩, hst, h⟩ := h
  cases r with
  | none =>
    cases h
    exact pushes_originate hst hr rfl (fun _ => id) (by simp)
  | some m =>
    cases h
    refine pushes_originate hst hr rfl (List.subset_cons_self _ _) ?_
    rintro - _ ⟨⟩ v -
    simp [dues]

theorem SketchNode.originate_pushes {c : SketchCfg V} {msg : Gossip}
    (h : SketchNode.originate c msg now n = some (n', e))
    (hr : ¬ Regresses n.state c.id msg now) : Pushes c.toNodeCfg false [] n n' e := by
  simp only [originate, Option.bind_eq_bind, Option.bind_eq_some_iff] at h
  obtain ⟨⟨n₀, r⟩, hst, h⟩ := h
  cases r with
  | none => cases h; exact pushes_originate hst hr rfl (fun _ => id) (by simp)
  | some m =>
    dsimp only at h
    split at h <;> cases h <;> exact pushes_originate hst hr rfl (fun _ => id) (by simp)

theorem fire_pushes {mc : ModelCfg V} {peerState : V → NodeState} {ev : Ev}
    (h : mc.fire peerState ev now n = some (n', e))
    (hr : ∀ msg, ev = .originate msg → ¬ Regresses n.state mc.base.id msg now) :
    Pushes mc.base (!mc.isSketch) ev.gossips n n' e := by
  cases mc with
  | flooding c =>
    cases ev with
    | originate msg => exact FloodingNode.originate_pushes h (hr msg rfl)
    | doSend msg => exact FloodingNode.doSend_pushes h
    | flushSummary => cases h; exact .of_same rfl rfl
    | _ => cases h
  | cln c =>
    cases ev with
    | originate msg => exact ClnNode.originate_pushes h (hr msg rfl)
    | tick => exact ClnNode.tick_pushes h
    | flushSummary => cases h; exact .of_same rfl rfl
    | _ => cases h
  | lnd c =>
    cases ev with
    | originate msg => exact LndNode.originate_pushes h (hr msg rfl)
    | tick => exact LndNode.tick_pushes h
    | sendBatch b => exact LndNode.sendBatch_pushes h
    | flushSummary => cases h; exact .of_same rfl rfl
    | _ => cases h
  | sketch c =>
    cases ev with
    | originate msg => exact SketchNode.originate_pushes h (hr msg rfl)
    | tickForPeer i =>
      have k := (SketchNode.tickForPeer_keeps h).1
      exact .of_same k.state k.pending
    | handleSketch sk =>
      have k := (SketchNode.handleSketch_keeps h).1
      exact .of_same k.state k.pending
    | handleInventory i =>
      have k := (SketchNode.handleInventory_keeps h).1
      exact .of_same k.state k.pending
    | flushSummary =>
      simp only [ModelCfg.fire, SketchNode.flushSummary] at h
      split at h <;> cases h <;> exact .of_same rfl rfl
    | _ => cases h

end Models

/-! ## The network -/

namespace Net

/-- What the scheduled events of `u` still have to send. -/
def queuedBy (s : Net V) (u : V) : List Gossip :=
  (s.queue.filter fun q => q.node = u).flatMap fun q => q.ev.gossips

def inFlight (s : Net V) (u v : V) : List Gossip :=
  (s.flight.filter fun p => p.src = u ∧ p.dst = v).flatMap fun p => p.wire.gossips

/-- Everything `u` still has under way to `v`. -/
def owed (s : Net V) (u v : V) : List Gossip :=
  (s.node u).pending ++ s.queuedBy u ++ s.inFlight u v

def pushState (s : Net V) : PushState V View :=
  ⟨fun v => (s.node v).view, fun u v => joinOf (s.owed u v)⟩

theorem mem_owed {s : Net V} {u v : V} {g : Gossip} :
    g ∈ s.owed u v ↔ g ∈ (s.node u).pending ∨ (∃ q ∈ s.queue, q.node = u ∧ g ∈ q.ev.gossips) ∨
      ∃ p ∈ s.flight, p.src = u ∧ p.dst = v ∧ g ∈ p.wire.gossips := by
  simp only [owed, queuedBy, inFlight, List.mem_append, List.mem_flatMap, List.mem_filter,
    decide_eq_true_eq, and_assoc, or_assoc]

theorem node_commit (s : Net V) (u v : V) (n : Node) (e : Effects V) :
    (s.commit u n e).node v = if v = u then n else s.node v := by
  simp [commit, Function.update_apply]

/-- What a handler still owes is owed by the network. -/
theorem dues_subset_owed (s : Net V) (u v : V) (n : Node) (e : Effects V) :
    dues n e v ⊆ (s.commit u n e).owed u v := by
  intro g hg
  rw [mem_owed, node_commit, if_pos rfl]
  simp only [dues, List.mem_append, Effects.scheduled, List.mem_flatMap, Effects.mem_sentTo] at hg
  rcases hg with (hg | ⟨x, hx, hg⟩) | ⟨wire, hx, hg⟩
  · exact .inl hg
  · exact .inr (.inl ⟨⟨s.now + x.1, u, x.2, none⟩,
      List.mem_append_right _ (List.mem_map_of_mem hx), rfl, hg⟩)
  · exact .inr (.inr ⟨⟨u, v, wire⟩,
      List.mem_append_right _ (List.mem_map_of_mem hx), rfl, rfl, hg⟩)

/-- A handler of `u` takes nothing away but from its own pending queue. -/
theorem mem_owed_commit {s : Net V} {u v w : V} {n : Node} {e : Effects V} {g : Gossip}
    (h : g ∈ s.owed w v) (hw : w = u → g ∈ (s.node u).pending → g ∈ dues n e v) :
    g ∈ (s.commit u n e).owed w v := by
  rcases mem_owed.1 h with h | ⟨q, hq, h⟩ | ⟨p, hp, h⟩
  · by_cases hwu : w = u
    · subst hwu
      exact dues_subset_owed s w v n e (hw rfl h)
    · exact mem_owed.2 (.inl (by rwa [node_commit, if_neg hwu]))
  · exact mem_owed.2 (.inr (.inl ⟨q, List.mem_append_left _ hq, h⟩))
  · exact mem_owed.2 (.inr (.inr ⟨p, List.mem_append_left _ hp, h⟩))

end Net

/-- The origination a label fires, if any. -/
def Net.originates (s : Net V) : Label → Option (V × Gossip)
  | .fire i => match s.queue[i]? with
    | some ⟨_, u, .originate msg, _⟩ => some (u, msg)
    | _ => none
  | _ => none

/-- The step does not replace a stored timestamp by an older one. -/
def Steady (w : Network V) (s : Net V) (l : Label) : Prop :=
  ∀ x ∈ s.originates l, ¬ Regresses (s.node x.1).state (w.topo.id x.1) x.2 s.now

instance (w : Network V) (s : Net V) (l : Label) : Decidable (Steady w s l) :=
  inferInstanceAs (Decidable (∀ x ∈ s.originates l, _))

omit [DecidableEq V] in
theorem originates_fire {s : Net V} {i : Nat} {q : Sched V} {msg : Gossip}
    (hq : s.queue[i]? = some q) (he : q.ev = .originate msg) :
    s.originates (.fire i) = some (q.node, msg) := by
  obtain ⟨t, u, ev, p⟩ := q
  subst he
  simp [Net.originates, hq]

namespace Network

def pushes (w : Network V) (u : V) : Prop := (w.model u).isSketch = false

/-- A handler of `u` that pushes, run on a state that lost nothing yet. -/
theorem lossFree_commit {w : Network V} {s s₀ : Net V} {u : V} {n : Node} {e : Effects V}
    {inp : List Gossip} (hp : Pushes (w.model u).base (!(w.model u).isSketch) inp (s.node u) n e)
    (hn : s₀.node = s.node)
    (ho : ∀ x v, w.edge x v → ∀ g ∈ s.owed x v, g ∈ s₀.owed x v ∨ (x = u ∧ g ∈ inp) ∨
      (v = u ∧ g.atom ≤ n.view)) :
    LossFree w.edge w.pushes s.pushState (s₀.commit u n e).pushState where
  mono v := by
    show (s.node v).view ≤ ((s₀.commit u n e).node v).view
    rw [Net.node_commit]
    split
    · next h => subst h; exact hp.mono
    · rw [hn]
  queued x v he hx := by
    show ((s₀.commit u n e).node x).view ≤ (s.node x).view ⊔ joinOf ((s₀.commit u n e).owed x v)
    rw [Net.node_commit]
    split
    · next h =>
      subst h
      have hpush : (!(w.model x).isSketch) = true := by simpa [pushes] using hx
      exact (hp.learn hpush v (edge_iff.1 he)).trans
        (sup_le_sup_left (supOf_mono (Net.dues_subset_owed _ _ _ _ _)) _)
    · rw [hn]; exact le_sup_left
  kept x v he := by
    apply supOf_le_iff.2
    intro g hg
    have howed : g ∈ (s₀.commit u n e).owed x v → g.atom ≤
        ((s₀.commit u n e).node v).view ⊔ joinOf ((s₀.commit u n e).owed x v) :=
      fun h => (le_supOf (f := Gossip.atom) h).trans le_sup_right
    rcases ho x v he g hg with h | ⟨rfl, h⟩ | ⟨rfl, h⟩
    · refine howed (Net.mem_owed_commit h fun hxu hpend => ?_)
      subst hxu
      rw [hn] at hpend
      exact hp.flow v (edge_iff.1 he) (List.mem_append_left _ hpend)
    · exact howed (Net.dues_subset_owed _ _ _ _ _
        (hp.flow v (edge_iff.1 he) (List.mem_append_right _ h)))
    · refine h.trans (le_sup_of_le_left ?_)
      show n.view ≤ ((s₀.commit v n e).node v).view
      rw [Net.node_commit, if_pos rfl]

variable [MsgHash]

/-- A step without a regressing origination loses nothing. -/
theorem lossFree {w : Network V} {s s' : Net V} {l : Label} (hs : Steady w s l)
    (h : step w s l = some s') : LossFree w.edge w.pushes s.pushState s'.pushState := by
  cases moves_of_step h with
  | advance _ =>
    exact ⟨fun _ => le_rfl, fun _ _ _ _ => le_sup_left, fun _ _ _ => le_sup_right⟩
  | @deliver i p n e hp hr _ =>
    obtain ⟨hpush, hgot⟩ := recv_pushes hr
    refine lossFree_commit hpush rfl fun x v _ g hg => ?_
    rcases Net.mem_owed.1 hg with hm | hm | ⟨p', hp', rfl, rfl, hm⟩
    · exact .inl (Net.mem_owed.2 (.inl hm))
    · exact .inl (Net.mem_owed.2 (.inr (.inl hm)))
    · rcases mem_or_mem_eraseIdx hp hp' with rfl | hp'
      · exact .inr (.inr ⟨rfl, (le_supOf (f := Gossip.atom) hm).trans hgot⟩)
      · exact .inl (Net.mem_owed.2 (.inr (.inr ⟨p', hp', rfl, rfl, hm⟩)))
  | @fire i q n e hq hr _ =>
    have hpush := fire_pushes hr fun msg he => by
      rw [w.id_eq]; exact hs _ (originates_fire hq he)
    refine lossFree_commit hpush rfl fun x v _ g hg => ?_
    rcases Net.mem_owed.1 hg with hm | ⟨q', hq', rfl, hm⟩ | hm
    · exact .inl (Net.mem_owed.2 (.inl hm))
    · rcases mem_or_mem_eraseIdx hq hq' with rfl | hq'
      · exact .inr (.inl ⟨rfl, hm⟩)
      · exact .inl (Net.mem_owed.2 (.inr (.inl ⟨q', List.mem_append_left _ hq', rfl, hm⟩)))
    · exact .inl (Net.mem_owed.2 (.inr (.inr hm)))

omit [MsgHash] in
/-- At the start nobody knows anything. -/
theorem covered_init {w : Network V} {events : List (Nat × V × Gossip)} {s : Net V}
    (h : init w events = some s) : Covered w.edge w.pushes s.pushState := by
  intro u v _ _
  rw [init_eq h]
  show (w.model u).initial.view ≤ _
  rw [show (w.model u).initial.view = ⊥ from view_new _]
  exact bot_le

/-- In every run without a regressing origination, whatever a pushing node knows
its neighbours know or are owed. -/
theorem covered {w : Network V} {events : List (Nat × V × Gossip)} {s₀ s : Net V} {ls : List Label}
    (h₀ : init w events = some s₀) (h : Steps (step w) (Steady w) s₀ ls s) :
    Covered w.edge w.pushes s.pushState :=
  h.invariant (P := fun s => Covered w.edge w.pushes s.pushState) (covered_init h₀)
    fun _ _ _ hc hs hstep => hc.step (lossFree hs hstep)

end Network

/-! ## Agreement -/

/-- Nothing pending, no scheduled sends and nothing in flight. -/
def Net.Quiet (s : Net V) : Prop :=
  (∀ v, (s.node v).pending = []) ∧ s.flight = [] ∧ ∀ q ∈ s.queue, q.ev.gossips = []

/-- What `u` stores its neighbour `v` stores at least as new, or `u` still has a
gossip under way to it that is. -/
def Net.NothingLost (w : Network V) (s : Net V) : Prop :=
  ∀ u v, w.edge u v → ∀ kind k T, (s.node u).view kind k = WithBot.some T →
    WithBot.some T ≤ (s.node v).view kind k ∨
      ∃ g ∈ s.owed u v, g.kind = kind ∧ g.stateKey = k ∧ T ≤ g.stamp

theorem Net.Quiet.owed_eq {s : Net V} (h : s.Quiet) (u v : V) : s.owed u v = [] := by
  apply List.eq_nil_iff_forall_not_mem.2
  intro g hg
  rcases mem_owed.1 hg with hg | ⟨q, hq, -, hg⟩ | ⟨p, hp, -⟩
  · simp [h.1 u] at hg
  · simp [h.2.2 q hq] at hg
  · simp [h.2.1] at hp

namespace Network

/-- Where nothing is under way a pushing node's neighbours know what it knows. -/
theorem view_le_of_edge {w : Network V} {s : Net V} (h : Covered w.edge w.pushes s.pushState)
    (hq : s.Quiet) {u v : V} (he : w.edge u v) (hp : w.pushes u) :
    (s.node u).view ≤ (s.node v).view := by
  apply h.le_of_quiet he hp
  show joinOf (s.owed u v) = ⊥
  rw [hq.owed_eq]; rfl

variable [MsgHash]

/-- Without sketch nodes and regressing originations no gossip is lost between
neighbours, and where nothing is under way a connected component agrees. -/
theorem no_gossip_lost {w : Network V} (hw : ∀ v, (w.model v).isSketch = false)
    {events : List (Nat × V × Gossip)} {s₀ s : Net V} {ls : List Label}
    (h₀ : init w events = some s₀) (h : Steps (step w) (Steady w) s₀ ls s) :
    s.NothingLost w ∧ (s.Quiet → ∀ u v, Relation.ReflTransGen w.edge u v →
      (s.node u).view = (s.node v).view) := by
  have hc := covered h₀ h
  constructor
  · intro u v he kind k T hT
    have hle : (s.node u).view ≤ (s.node v).view ⊔ joinOf (s.owed u v) := hc u v he (hw u)
    exact exists_of_le_joinOf (hT ▸ hle kind k)
  · intro hq u v hp
    have hle : ∀ x y, w.edge x y → (s.node x).view ≤ (s.node y).view :=
      fun x _ he => view_le_of_edge hc hq he (hw x)
    have hback : Function.swap w.edge ≤ w.edge := fun _ _ he => edge_symm he
    exact le_antisymm (holds_le_of_path (k := fun v => (s.node v).view) hle hp)
      (holds_le_of_path (k := fun v => (s.node v).view) hle
        (Relation.ReflTransGen.mono hback _ _ hp.swap))

end Network

/-! ## A clock past `2 ^ 32` seconds -/

section Wrap

/-- A hash for runs on fixed inputs. -/
local instance sumHash : MsgHash := ⟨List.sum⟩

/-- A run of a hundred seconds past the wrap. -/
def wrapNet : Network (Fin 2) := floodPair ((2 ^ 32 + 100) * 10 ^ 9)

/-- Node 0 updates its channel after 10 s and again after `2 ^ 32 + 5` s. -/
def wrapEvents : List (Nat × Fin 2 × Gossip) :=
  [(10 * 10 ^ 9, 0, sampleUpdate), ((2 ^ 32 + 5) * 10 ^ 9, 0, sampleUpdate)]

/-- Both updates spread, each at its own time. -/
def wrapRun : List Label :=
  [.advance (10 * 10 ^ 9), .fire 2, .deliver 0, .advance (10 * 10 ^ 9 + 10 ^ 8), .fire 3, .deliver 0,
    .advance ((2 ^ 32 + 5) * 10 ^ 9), .fire 2, .deliver 0]

theorem wrap_checked :
    ((init wrapNet wrapEvents).bind fun s => run (tstep wrapNet) s wrapRun).any (fun s =>
      decide (∀ v, (s.node v).pending = []) && s.flight.isEmpty &&
      s.queue.all (fun q => q.ev.gossips.isEmpty) &&
      decide ((s.node 1).view .channelUpdate 14 = WithBot.some 10) &&
      decide ((s.node 0).view .channelUpdate 14 = WithBot.some 5)) = true := by
  decide +kernel

/-- The second update is stamped 5 s. Its originator forgets the first one, its
neighbour keeps it, and nothing is under way any more. -/
theorem wrap_loses_gossip : ∃ s₀ s, init wrapNet wrapEvents = some s₀ ∧
    run (tstep wrapNet) s₀ wrapRun = some s ∧ s.Quiet ∧ ¬ s.NothingLost wrapNet ∧
    (s.node 0).view ≠ (s.node 1).view := by
  obtain ⟨s, hs, hc⟩ := (Option.any_eq_true _ _).1 wrap_checked
  obtain ⟨s₀, h₀, hs⟩ := Option.bind_eq_some_iff.1 hs
  simp only [Bool.and_eq_true, decide_eq_true_eq, List.all_eq_true, List.isEmpty_iff] at hc
  obtain ⟨⟨⟨⟨hpend, hflight⟩, hqueue⟩, h1⟩, h0⟩ := hc
  have hq : s.Quiet := ⟨hpend, hflight, hqueue⟩
  refine ⟨s₀, s, h₀, hs, hq, fun hno => ?_, fun he => ?_⟩
  · rcases hno 1 0 (List.mem_singleton.2 (by decide)) _ _ _ h1 with hle | ⟨g, hg, -⟩
    · rw [h0] at hle
      exact absurd hle (by decide)
    · simp [hq.owed_eq] at hg
  · rw [he, h1] at h0
    exact absurd h0 (by decide)

/-- Below the wrap: the first update spreads. -/
theorem no_gossip_lost_pair : ∃ s₀ s, init wrapNet wrapEvents = some s₀ ∧
    Steps (step wrapNet) (Steady wrapNet) s₀ (wrapRun.take 6) s ∧
    s.NothingLost wrapNet ∧ (s.Quiet → ∀ u v, Relation.ReflTransGen wrapNet.edge u v →
      (s.node u).view = (s.node v).view) := by
  have hrun : ((init wrapNet wrapEvents).bind fun s =>
      runOk (step wrapNet) (Steady wrapNet) s (wrapRun.take 6)).isSome = true := by
    decide +kernel
  obtain ⟨s, hs⟩ := Option.isSome_iff_exists.1 hrun
  obtain ⟨s₀, h₀, hs⟩ := Option.bind_eq_some_iff.1 hs
  have h := steps_of_runOk hs
  exact ⟨s₀, s, h₀, h, Network.no_gossip_lost (fun _ => rfl) h₀ h⟩

end Wrap

end LnConv
