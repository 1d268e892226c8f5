import LnConv.Node.Run
import LnConv.RecvJoin

/-!
# Timestamps of originated gossip

`originate_stamp` takes the second it is called in as timestamp, whatever is stored for the key.
So originated timestamps rise exactly if the originations of a key are in later seconds than all
that the node originated or received for the key before.
-/

namespace LnConv

variable {V : Type}

/-- What makes two messages one. -/
def Gossip.identity (g : Gossip) : GossipKind × Nat × Nat := (g.kind, g.stateKey, g.stamp)

/-- The message with the fields that `originate_stamp` sets before it derives the id. -/
def Gossip.stamped (selfId : NodeId) (now : Nat) (msg : Gossip) : Gossip :=
  match msg.kind with
  | .channelUpdate => { msg with origin := none, timestamp := nowSecs now }
  | .nodeAnnouncement => { msg with origin := some selfId, timestamp := nowSecs now }
  | .channelAnnouncement => { msg with origin := none }

/-- The gossips that an operation brings to a node's state. -/
def NodeOp.offers (selfId : NodeId) : NodeOp V → List Gossip
  | .recv wire _ => wire.gossips
  | .fire (.originate msg) _ now => [msg.stamped selfId now]
  | .fire _ _ _ | .due _ _ _ => []

/-- `P` holds at every origination of an update or a node announcement, after the operations before
it. -/
def AtOriginations (ops : List (NodeOp V))
    (P : List (NodeOp V) → Gossip → (V → NodeState) → Nat → Prop) : Prop :=
  ∀ pre msg peerState now post, ops = pre ++ .fire (.originate msg) peerState now :: post →
    msg.kind ≠ .channelAnnouncement → P pre msg peerState now

/-- Each origination is in a later second than all that the node was offered for the key before. -/
def Spaced (selfId : NodeId) (ops : List (NodeOp V)) : Prop :=
  AtOriginations ops fun pre msg _ now => ∀ g ∈ pre.flatMap (NodeOp.offers selfId),
    g.kind = msg.kind → g.stateKey = originKey selfId msg → g.stamp < nowSecs now

/-- The origination records a message for its key that is later than what was stored, so that no
node that knows no more of the key drops it as a duplicate. -/
def Rises (selfId : NodeId) (msg : Gossip) (s s' : NodeRun V) : Prop :=
  ∃ m, s'.originated = s.originated ++ [m] ∧ m.kind = msg.kind ∧
    m.stateKey = originKey selfId msg ∧ s.node.view m.kind m.stateKey < WithBot.some m.stamp ∧
    ∀ r : NodeState, r.view m.kind m.stateKey ≤ s.node.view m.kind m.stateKey →
      ∃ r', put m.kind r m = some (r', true)

def StampsRise [MsgHash] (mc : ModelCfg V) (ops : List (NodeOp V)) : Prop :=
  AtOriginations ops fun pre msg peerState now => ∀ s s',
    run (NodeRun.step mc) { node := mc.initial } pre = some s →
    s.step mc (.fire (.originate msg) peerState now) = some s' → Rises mc.base.id msg s s'

/-- No two messages recorded as first seen, and no two broadcast, are one. -/
structure Distinct (s : NodeRun V) : Prop where
  accepted : (s.accepted.map Gossip.identity).Nodup
  broadcast : ((s.broadcast.flatMap WireMessage.gossips).map Gossip.identity).Nodup

theorem atOriginations_snoc {ops : List (NodeOp V)} {op : NodeOp V}
    {P : List (NodeOp V) → Gossip → (V → NodeState) → Nat → Prop} :
    AtOriginations (ops ++ [op]) P ↔ AtOriginations ops P ∧ ∀ msg peerState now,
      op = .fire (.originate msg) peerState now → msg.kind ≠ .channelAnnouncement →
        P ops msg peerState now := by
  constructor
  · intro h
    constructor
    · intro pre msg peerState now post heq hk
      refine h pre msg peerState now (post ++ [op]) ?_ hk
      rw [heq, List.append_assoc]
      rfl
    · rintro msg peerState now rfl hk
      exact h ops msg peerState now [] rfl hk
  · rintro ⟨h, hlast⟩ pre msg peerState now post heq hk
    rcases List.eq_nil_or_concat post with rfl | ⟨post', last, rfl⟩
    · obtain ⟨rfl, hop⟩ := List.append_inj' heq rfl
      exact hlast msg peerState now (List.cons.inj hop).1 hk
    · rw [List.concat_eq_append, ← List.cons_append, ← List.append_assoc] at heq
      obtain ⟨heq', -⟩ := List.append_inj' heq rfl
      exact h pre msg peerState now post' heq' hk

/-! ## News -/

/-- Each gossip is news on top of the view and of those before it. -/
def News (v : View) : List Gossip → Prop
  | [] => True
  | g :: gs => ¬g.atom ≤ v ∧ News (v ⊔ g.atom) gs

theorem News.append {v : View} {gs hs : List Gossip} (h : News v gs)
    (h' : News (v ⊔ joinOf gs) hs) : News v (gs ++ hs) := by
  induction gs generalizing v with
  | nil => simpa using h'
  | cons g gs ih =>
    refine ⟨h.1, ih h.2 ?_⟩
    rwa [sup_assoc]

theorem News.not_le {v : View} {gs : List Gossip} (h : News v gs) : ∀ g ∈ gs, ¬g.atom ≤ v := by
  induction gs generalizing v with
  | nil => simp
  | cons g gs ih =>
    intro x hx
    rcases List.mem_cons.1 hx with rfl | hx
    · exact h.1
    · exact fun hle => ih h.2 x hx (hle.trans le_sup_left)

theorem atom_eq_of_identity {g g' : Gossip} (h : g.identity = g'.identity) : g.atom = g'.atom := by
  obtain ⟨hk, hs, ht⟩ : g.kind = g'.kind ∧ g.stateKey = g'.stateKey ∧ g.stamp = g'.stamp := by
    simpa [Gossip.identity] using h
  unfold Gossip.atom
  rw [hk, hs, ht]

theorem News.nodup {v : View} {gs : List Gossip} (h : News v gs) :
    (gs.map Gossip.identity).Nodup := by
  induction gs generalizing v with
  | nil => exact .nil
  | cons g gs ih =>
    rw [List.map_cons, List.nodup_cons]
    refine ⟨fun hmem => ?_, ih h.2⟩
    obtain ⟨g', hg', heq⟩ := List.mem_map.1 hmem
    apply h.2.not_le g' hg'
    rw [atom_eq_of_identity heq]
    exact le_sup_right

theorem absorbLoop_news {kind : GossipKind} {s : NodeState} {gs : List Gossip} {r : Absorbed}
    (hg : ∀ g ∈ gs, g.kind = kind) (h : absorbLoop (put kind) s gs = some r) :
    News s.view r.fresh := by
  induction gs generalizing s r with
  | nil => cases h; trivial
  | cons g gs ih =>
    simp only [absorbLoop, Option.bind_eq_bind, Option.bind_eq_some_iff] at h
    obtain ⟨⟨s', b⟩, hput, t, ht, h⟩ := h
    cases h
    have hp : PutSpec s g s' b := put_spec (by rwa [hg g List.mem_cons_self])
    have hnews := ih (fun x hx => hg x (List.mem_cons_of_mem _ hx)) ht
    rw [hp.view] at hnews
    cases b with
    | true => exact ⟨hp.fresh.1 rfl, hnews⟩
    | false =>
      have hdup : g.atom ≤ s.view := by
        by_contra hn
        simpa using hp.fresh.2 hn
      rwa [sup_eq_left.2 hdup] at hnews

/-- A handler that learns what it records, and records only news. -/
structure Learns (n n' : Node) (e : Effects V) : Prop where
  view : n'.view = n.view ⊔ joinOf (NodeRun.recorded e)
  news : News n.view (NodeRun.recorded e)

theorem recorded_append (e e' : Effects V) :
    NodeRun.recorded (e ++ e') = NodeRun.recorded e ++ NodeRun.recorded e' := List.map_append

theorem Learns.append {n n' n'' : Node} {e e' : Effects V} (h : Learns n n' e)
    (h' : Learns n' n'' e') : Learns n n'' (e ++ e') where
  view := by rw [h'.view, h.view, recorded_append, joinOf_append, sup_assoc]
  news := by
    rw [recorded_append]
    exact h.news.append (h.view ▸ h'.news)

theorem Learns.of_same {n n' : Node} {e : Effects V} (hs : n'.state = n.state)
    (he : e.firstSeen = []) : Learns n n' e := by
  have hnil : NodeRun.recorded e = [] := by
    unfold NodeRun.recorded
    rw [he]
    rfl
  refine ⟨?_, by rw [hnil]; trivial⟩
  rw [hnil, joinOf_nil, sup_bot_eq]
  exact congrArg NodeState.view hs

/-- An absorb function learns what its loop found fresh. -/
theorem learns_absorbKind {kind : GossipKind} {gs fresh : List Gossip} {now : Nat} {n n₁ n' : Node}
    {e : Effects V} (hg : ∀ g ∈ gs, g.kind = kind)
    (h : n.absorbKind kind gs now = some (n₁, fresh)) (hs : n'.state = n₁.state)
    (he : e.firstSeen = stampSeen fresh now) : Learns n n' e := by
  unfold Node.absorbKind at h
  split at h
  · cases h
    exact .of_same hs he
  · obtain ⟨r, hr, h⟩ := Option.bind_eq_some_iff.1 h
    cases h
    have sp := absorbLoop_spec hg hr
    have hview : n'.view = r.state.view := congrArg NodeState.view hs
    refine ⟨?_, ?_⟩
    · rw [hview, recorded_stampSeen he]
      apply le_antisymm sp.learnt
      rw [sp.view]
      exact sup_le_sup_left (joinOf_mono fun g hg => sp.counted.subset (List.mem_append_left _ hg)) _
    · rw [recorded_stampSeen he]
      exact absorbLoop_news hg hr

section Recv

variable {kind : GossipKind} {gs : List Gossip} {now : Nat} {n n' : Node} {e : Effects V}

theorem FloodingNode.absorb_learns {c : FloodingCfg V} (hg : ∀ g ∈ gs, g.kind = kind)
    (h : absorb c kind gs now n = some (n', e)) : Learns n n' e := by
  obtain ⟨⟨n₁, fresh⟩, hk, h⟩ := Option.bind_eq_some_iff.1 h
  dsimp only at h
  split at h
  · next hnil =>
    cases h
    exact learns_absorbKind hg hk rfl (by rw [List.isEmpty_iff.1 hnil]; rfl)
  · cases h
    exact learns_absorbKind hg hk rfl rfl

theorem absorbPending_learns (hg : ∀ g ∈ gs, g.kind = kind)
    (h : absorbPending kind gs now n = some (n', e)) : Learns n n' e := by
  obtain ⟨⟨n₁, fresh⟩, hk, h⟩ := Option.bind_eq_some_iff.1 h
  dsimp only at h
  split at h
  · next hnil =>
    cases h
    exact learns_absorbKind hg hk rfl (by rw [List.isEmpty_iff.1 hnil]; rfl)
  · cases h
    exact learns_absorbKind hg hk rfl rfl

theorem SketchNode.absorb_learns (hg : ∀ g ∈ gs, g.kind = kind)
    (h : absorb kind gs now n = some (n', e)) : Learns n n' e := by
  obtain ⟨⟨n₁, fresh⟩, hk, h⟩ := Option.bind_eq_some_iff.1 h
  dsimp only at h
  split at h
  · next hnil =>
    cases h
    exact learns_absorbKind hg hk rfl (by rw [List.isEmpty_iff.1 hnil]; rfl)
  · cases h
    exact learns_absorbKind hg hk rfl rfl

theorem FloodingNode.recv_learns {c : FloodingCfg V} {wire : WireMessage}
    (h : recv c wire now n = some (n', e)) :
    Learns (n.addBytesInGossip wire.wireSize) n' e := by
  cases wire with
  | single g =>
    simp only [recv] at h
    cases hk : g.kind <;> simp only [absorbOne, hk] at h <;> exact absorb_learns (by simp [hk]) h
  | batch b =>
    obtain ⟨n₁, e₁, e', h₁, h', rfl⟩ := Handler.seq_eq_some h
    obtain ⟨n₂, e₂, e₃, h₂, h₃, rfl⟩ := Handler.seq_eq_some h'
    exact (absorb_learns b.kind_chanUpdates h₁).append
      ((absorb_learns b.kind_nodeAnns h₂).append (absorb_learns b.kind_chanAnns h₃))
  | sketch _ => cases h; exact .of_same rfl rfl
  | inventory _ => cases h; exact .of_same rfl rfl

theorem recvPending_learns {wire : WireMessage} (h : recvPending wire now n = some (n', e)) :
    Learns (n.addBytesInGossip wire.wireSize) n' e := by
  cases wire with
  | single g =>
    simp only [recvPending] at h
    cases hk : g.kind <;> simp only [absorbOnePending, hk] at h <;>
      exact absorbPending_learns (by simp [hk]) h
  | batch b =>
    obtain ⟨n₁, e₁, e', h₁, h', rfl⟩ := Handler.seq_eq_some h
    obtain ⟨n₂, e₂, e₃, h₂, h₃, rfl⟩ := Handler.seq_eq_some h'
    exact (absorbPending_learns b.kind_chanAnns h₁).append
      ((absorbPending_learns b.kind_chanUpdates h₂).append
        (absorbPending_learns b.kind_nodeAnns h₃))
  | sketch _ => cases h; exact .of_same rfl rfl
  | inventory _ => cases h; exact .of_same rfl rfl

theorem SketchNode.recv_learns {wire : WireMessage} (h : recv wire now n = some (n', e)) :
    Learns (countIn wire n) n' e := by
  cases wire with
  | single g =>
    simp only [recv] at h
    cases hk : g.kind <;> simp only [absorbOne, hk] at h <;> exact absorb_learns (by simp [hk]) h
  | batch b =>
    obtain ⟨n₁, e₁, e', h₁, h', rfl⟩ := Handler.seq_eq_some h
    obtain ⟨n₂, e₂, e₃, h₂, h₃, rfl⟩ := Handler.seq_eq_some h'
    exact (absorb_learns b.kind_chanUpdates h₁).append
      ((absorb_learns b.kind_nodeAnns h₂).append (absorb_learns b.kind_chanAnns h₃))
  | sketch _ => cases h; exact .of_same rfl rfl
  | inventory _ => cases h; exact .of_same rfl rfl

/-- A message teaches a node what it records. -/
theorem ModelCfg.recv_learns {mc : ModelCfg V} {wire : WireMessage}
    (h : mc.recv wire now n = some (n', e)) : Learns n n' e := by
  have hcount : Learns (mc.countIn wire n) n' e := by
    cases mc with
    | flooding c => exact FloodingNode.recv_learns h
    | cln c | lnd c => exact recvPending_learns h
    | sketch c => exact SketchNode.recv_learns h
  have hs : (mc.countIn wire n).view = n.view :=
    congrArg NodeState.view (mc.countIn_frame wire n).1
  exact ⟨hs ▸ hcount.view, hs ▸ hcount.news⟩

end Recv

/-! ## Events -/

section Fire

variable [MsgHash] {mc : ModelCfg V} {peerState : V → NodeState} {now : Nat} {n n' : Node}
  {e : Effects V}

/-- Whatever the node kind, an origination opens with the stamp. -/
theorem ModelCfg.fire_originate {msg : Gossip}
    (h : mc.fire peerState (.originate msg) now n = some (n', e)) :
    ∃ n₀ r, n.stampOriginated mc.base msg now = some (n₀, r) ∧ n'.state = n₀.state ∧
      NodeRun.recorded e = r.toList := by
  cases mc with
  | flooding c | cln c | lnd c =>
    obtain ⟨⟨n₀, r⟩, hst, h⟩ := Option.bind_eq_some_iff.1 h
    cases r <;> cases h <;> exact ⟨_, _, hst, rfl, rfl⟩
  | sketch c =>
    obtain ⟨⟨n₀, r⟩, hst, h⟩ := Option.bind_eq_some_iff.1 h
    cases r with
    | none => cases h; exact ⟨_, _, hst, rfl, rfl⟩
    | some m =>
      dsimp only at h
      split at h <;> cases h <;> exact ⟨_, _, hst, rfl, rfl⟩

/-- No other event changes the state or records a gossip. -/
theorem ModelCfg.fire_still {ev : Ev} (h : mc.fire peerState ev now n = some (n', e))
    (hev : ∀ msg, ev ≠ .originate msg) : n'.state = n.state ∧ e.firstSeen = [] := by
  cases ev with
  | originate msg => exact absurd rfl (hev msg)
  | doSend msg =>
    cases mc with
    | flooding c => cases h; exact ⟨rfl, rfl⟩
    | _ => cases h
  | tick =>
    cases mc with
    | cln c =>
      simp only [fire, ClnNode.tick] at h
      split at h <;> cases h <;> exact ⟨rfl, rfl⟩
    | lnd c =>
      rcases LndNode.tick_cut h with ⟨-, rfl, rfl⟩ | ⟨-, sub, first, rest, -, -, -, rfl, rfl⟩
      · exact ⟨rfl, rfl⟩
      · exact ⟨rfl, rfl⟩
    | _ => cases h
  | sendBatch b =>
    cases mc with
    | lnd c => cases h; exact ⟨rfl, rfl⟩
    | _ => cases h
  | tickForPeer i =>
    cases mc with
    | sketch c =>
      obtain ⟨k, -, hf, -⟩ := SketchNode.tickForPeer_keeps h
      exact ⟨k.state, hf⟩
    | _ => cases h
  | handleSketch sk =>
    cases mc with
    | sketch c =>
      obtain ⟨k, -, hf, -⟩ := SketchNode.handleSketch_keeps h
      exact ⟨k.state, hf⟩
    | _ => cases h
  | handleInventory i =>
    cases mc with
    | sketch c =>
      obtain ⟨k, -, hf, -⟩ := SketchNode.handleInventory_keeps h
      exact ⟨k.state, hf⟩
    | _ => cases h
  | flushSummary =>
    cases mc with
    | sketch c =>
      simp only [fire, SketchNode.flushSummary] at h
      split at h <;> cases h <;> exact ⟨rfl, rfl⟩
    | _ => cases h; exact ⟨rfl, rfl⟩

omit [MsgHash] in
theorem stamped_atom {s s' : NodeState} {selfId : NodeId} {msg m : Gossip} {b : Bool}
    (h : StampSpec s selfId msg now s' m b) : (msg.stamped selfId now).atom = m.atom := by
  have hm := stateKey_of_key? h.key
  apply atom_eq_of_identity
  unfold Gossip.identity
  rw [h.kind, hm]
  cases hk : msg.kind with
  | channelAnnouncement =>
    simp [Gossip.stamped, Gossip.stateKey, Gossip.stamp, originKey, hk, h.kind]
  | _ =>
    have hstamp := h.stamp (by simp [hk])
    rw [hstamp]
    simp [Gossip.stamped, Gossip.stateKey, Gossip.stamp, originKey, packCuKey, hk]

/-- An origination that is later than what is stored teaches the node what it records. -/
theorem originate_learns {msg : Gossip} (h : mc.fire peerState (.originate msg) now n = some (n', e))
    (hlt : msg.kind ≠ .channelAnnouncement →
      n.view msg.kind (originKey mc.base.id msg) < WithBot.some (nowSecs now)) :
    Learns n n' e ∧ n'.view = n.view ⊔ (msg.stamped mc.base.id now).atom := by
  obtain ⟨n₀, r, hst, hs, hr⟩ := ModelCfg.fire_originate h
  obtain ⟨m, b, sp, -, -, hb⟩ := stampOriginated_spec hst
  have hreg : ¬Regresses n.state mc.base.id msg now := fun hreg => lt_asymm hreg.2 (hlt hreg.1)
  have hview : n'.view = n.view ⊔ m.atom := by
    show n'.state.view = _
    rw [hs]
    exact sp.view_eq_sup hreg
  refine ⟨?_, by rw [stamped_atom sp]; exact hview⟩
  rcases hb with ⟨rfl, rfl, -⟩ | ⟨rfl, rfl, -⟩
  · refine ⟨by rw [hview, hr]; simp, ?_⟩
    rw [hr]
    refine ⟨fun hle => ?_, trivial⟩
    rw [atom_le_iff, sp.kind, stateKey_of_key? sp.key] at hle
    by_cases hk : msg.kind = .channelAnnouncement
    · have hknown : AlreadyAnnounced n.state msg := by
        refine ⟨hk, ?_⟩
        by_contra hnone
        rw [Option.not_isSome_iff_eq_none] at hnone
        rw [hk] at hle
        simp only [originKey, hk] at hle
        have hbot : n.view .channelAnnouncement (msg.scid.getD 0) = ⊥ := stampView_eq_bot.2 hnone
        rw [hbot] at hle
        exact absurd hle (by simp)
      exact absurd (sp.isNew hknown) (by simp)
    · rw [sp.stamp hk] at hle
      exact absurd (hlt hk) (not_lt.2 hle)
  · have hle := (sp.old rfl).2
    refine ⟨?_, by rw [hr]; trivial⟩
    rw [hview, hr, Option.toList_none, joinOf_nil, sup_bot_eq]
    exact sup_eq_left.2 hle

end Fire

/-! ## Runs -/

section Runs

variable [MsgHash] {mc : ModelCfg V} {ops : List (NodeOp V)} {op : NodeOp V} {s s' : NodeRun V}

/-- While originations are spaced: the state is the join of what was offered, and what is recorded
is in it, once. -/
structure Traces (mc : ModelCfg V) (ops : List (NodeOp V)) (s : NodeRun V) : Prop where
  spawned : ∀ ev ∈ s.scheduled, ev.spawned = true
  view : s.node.view = joinOf (ops.flatMap (NodeOp.offers mc.base.id))
  known : ∀ g ∈ s.accepted, g.atom ≤ s.node.view
  distinct : (s.accepted.map Gossip.identity).Nodup

omit [MsgHash] in
/-- What is stored for a key is earlier than `T` exactly if all that was offered for it is. -/
theorem Traces.view_lt_iff (h : Traces mc ops s) {kind : GossipKind} {k T : Nat} :
    s.node.view kind k < WithBot.some T ↔ ∀ g ∈ ops.flatMap (NodeOp.offers mc.base.id),
      g.kind = kind → g.stateKey = k → g.stamp < T := by
  rw [h.view]
  constructor
  · rintro hlt g hg rfl rfl
    have hle : WithBot.some g.stamp ≤
        joinOf (ops.flatMap (NodeOp.offers mc.base.id)) g.kind g.stateKey :=
      atom_le_iff.1 (le_supOf hg)
    exact WithBot.coe_lt_coe.1 (hle.trans_lt hlt)
  · intro hall
    rw [← not_le]
    intro hle
    rw [← bot_sup_eq (joinOf _)] at hle
    rcases exists_of_le_joinOf hle with hle | ⟨g, hg, hk, hkey, hT⟩
    · exact absurd hle (by simp)
    · exact absurd (hall g hg hk hkey) (not_lt.2 hT)

omit [MsgHash] in
theorem Traces.start : Traces mc [] { node := mc.initial } where
  spawned := by simp
  view := by
    funext kind k
    cases kind <;> rfl
  known := by simp [NodeRun.accepted]
  distinct := by simp [NodeRun.accepted]

omit [MsgHash] in
/-- A handler that learns what it records keeps the trace. -/
theorem Traces.learn (h : Traces mc ops s) {e : Effects V} (hl : Learns s.node s'.node e)
    (hview : s'.node.view = s.node.view ⊔ joinOf (op.offers mc.base.id))
    (hacc : s'.accepted = s.accepted + (NodeRun.recorded e : Multiset Gossip))
    (hsp : ∀ ev ∈ s'.scheduled, ev.spawned = true) : Traces mc (ops ++ [op]) s' where
  spawned := hsp
  view := by rw [hview, h.view, List.flatMap_append, joinOf_append, List.flatMap_singleton]
  known := by
    intro g hg
    rw [hacc, Multiset.mem_add, Multiset.mem_coe] at hg
    rw [hl.view]
    rcases hg with hg | hg
    · exact (h.known g hg).trans le_sup_left
    · exact (le_supOf hg).trans le_sup_right
  distinct := by
    rw [hacc, Multiset.map_add, Multiset.nodup_add]
    refine ⟨h.distinct, by simpa using hl.news.nodup, ?_⟩
    rw [Multiset.disjoint_left]
    intro i hi hi'
    obtain ⟨g, hg, rfl⟩ := Multiset.mem_map.1 hi
    obtain ⟨g', hg', heq⟩ := Multiset.mem_map.1 hi'
    apply hl.news.not_le g' hg'
    rw [atom_eq_of_identity heq]
    exact h.known g hg

theorem Traces.step (h : Traces mc ops s) (hs : s.step mc op = some s')
    (hop : ∀ msg peerState now, op = .fire (.originate msg) peerState now →
      msg.kind ≠ .channelAnnouncement →
        s.node.view msg.kind (originKey mc.base.id msg) < WithBot.some (nowSecs now)) :
    Traces mc (ops ++ [op]) s' := by
  have hsched : ∀ {evs : List Ev} {e : Effects V}, (∀ ev ∈ evs, ev.spawned = true) →
      (∀ x ∈ e.schedules, x.2.spawned = true) →
      ∀ ev ∈ evs ++ e.schedules.map (·.2), ev.spawned = true := by
    intro evs e hevs he ev hev
    rcases List.mem_append.1 hev with hev | hev
    · exact hevs ev hev
    · obtain ⟨x, hx, rfl⟩ := List.mem_map.1 hev
      exact he x hx
  cases op with
  | recv wire now =>
    obtain ⟨⟨n, e⟩, hr, hs⟩ := Option.bind_eq_some_iff.1 hs
    cases hs
    obtain ⟨-, -, -, -, hspawned⟩ := mc.recv_absorbs hr
    refine h.learn (mc.recv_learns hr) (mc.recv_joins hr).view ?_ (hsched h.spawned hspawned)
    show (s.originated + (s.received ++ NodeRun.recorded e : List Gossip) : Multiset Gossip) = _
    rw [← Multiset.coe_add, ← add_assoc]
    rfl
  | fire ev peerState now =>
    simp only [NodeRun.step] at hs
    split at hs
    · obtain ⟨⟨n, e⟩, hf, hs⟩ := Option.bind_eq_some_iff.1 hs
      cases hs
      have hacc : (s.commitFire n e (mc.issued ev now s.node)).accepted =
          s.accepted + (NodeRun.recorded e : Multiset Gossip) := by
        show ((s.originated ++ NodeRun.recorded e : List Gossip) + s.received : Multiset Gossip) = _
        rw [← Multiset.coe_add, add_right_comm]
        rfl
      have hspawned := hsched h.spawned (ModelCfg.fire_spawned hf)
      by_cases hev : ∃ msg, ev = .originate msg
      · obtain ⟨msg, rfl⟩ := hev
        obtain ⟨hl, hview⟩ := originate_learns hf (hop msg peerState now rfl)
        refine h.learn hl ?_ hacc hspawned
        show n.view = s.node.view ⊔ joinOf [msg.stamped mc.base.id now]
        rw [hview, joinOf_cons, joinOf_nil, sup_bot_eq]
      · obtain ⟨hstate, he⟩ := ModelCfg.fire_still hf fun msg hm => hev ⟨msg, hm⟩
        refine h.learn (.of_same hstate he) ?_ hacc hspawned
        have hnil : (NodeOp.fire ev peerState now).offers mc.base.id = [] := by
          cases ev <;> first | rfl | exact absurd ⟨_, rfl⟩ hev
        rw [hnil, joinOf_nil, sup_bot_eq]
        exact congrArg NodeState.view hstate
    · cases hs
  | due i peerState now =>
    obtain ⟨ev, hev, hs⟩ := Option.bind_eq_some_iff.1 hs
    obtain ⟨⟨n, e⟩, hf, hs⟩ := Option.bind_eq_some_iff.1 hs
    cases hs
    have hmem : ev ∈ s.scheduled := List.mem_of_getElem? hev
    obtain ⟨hstate, he⟩ := ModelCfg.fire_still hf fun msg hm => by
      have hspawned := h.spawned ev hmem
      rw [hm] at hspawned
      cases hspawned
    refine h.learn (.of_same hstate he) ?_ ?_ (hsched (fun x hx =>
      h.spawned x (List.mem_of_mem_eraseIdx hx)) (ModelCfg.fire_spawned hf))
    · show n.view = s.node.view ⊔ joinOf []
      rw [joinOf_nil, sup_bot_eq]
      exact congrArg NodeState.view hstate
    · show ((s.originated ++ NodeRun.recorded e : List Gossip) + s.received : Multiset Gossip) = _
      rw [← Multiset.coe_add, add_right_comm]
      rfl

/-- An origination rises exactly if what was stored is earlier than its second. -/
theorem rises_iff {msg : Gossip} {peerState : V → NodeState} {now : Nat}
    (hk : msg.kind ≠ .channelAnnouncement)
    (hs : s.step mc (.fire (.originate msg) peerState now) = some s') :
    Rises mc.base.id msg s s' ↔
      s.node.view msg.kind (originKey mc.base.id msg) < WithBot.some (nowSecs now) := by
  obtain ⟨⟨n, e⟩, hf, hs⟩ := Option.bind_eq_some_iff.1 hs
  cases hs
  obtain ⟨n₀, r, hst, -, hr⟩ := ModelCfg.fire_originate hf
  obtain ⟨m, b, sp, -, -, hb⟩ := stampOriginated_spec hst
  rcases hb with ⟨-, rfl, -⟩ | ⟨rfl, -, -⟩
  swap
  · exact absurd (sp.old rfl).1 hk
  have horig : (s.commitFire n e (mc.issued (.originate msg) now s.node)).originated =
      s.originated ++ [m] := by
    show s.originated ++ NodeRun.recorded e = _
    rw [hr]
    rfl
  have hkey := stateKey_of_key? sp.key
  constructor
  · rintro ⟨m', hm', -, -, hlt, -⟩
    rw [horig] at hm'
    obtain ⟨-, hsing⟩ := List.append_inj' hm' rfl
    rw [List.singleton_inj] at hsing
    rwa [← hsing, sp.kind, hkey, sp.stamp hk] at hlt
  · intro hlt
    have hstored : s.node.view m.kind m.stateKey < WithBot.some m.stamp := by
      rwa [sp.kind, hkey, sp.stamp hk]
    refine ⟨m, horig, sp.kind, hkey, hstored, fun r hr => ?_⟩
    obtain ⟨⟨r', b⟩, hput⟩ := put_isSome (s := r) (g := m) (by rw [sp.key]; rfl)
    refine ⟨r', ?_⟩
    have hfresh := (put_spec hput).fresh.2 fun hle =>
      absurd (atom_le_iff.1 hle) (not_le.2 (hr.trans_lt hstored))
    rw [hput, hfresh]

/-- Rising stamps and spaced originations are one, and leave a trace. -/
theorem rise_iff_spaced (h : run (NodeRun.step mc) { node := mc.initial } ops = some s) :
    (StampsRise mc ops ↔ Spaced mc.base.id ops) ∧ (Spaced mc.base.id ops → Traces mc ops s) := by
  induction ops using List.reverseRecOn generalizing s with
  | nil =>
    cases h
    have hno : ∀ {P : List (NodeOp V) → Gossip → (V → NodeState) → Nat → Prop},
        AtOriginations [] P := by
      intro P pre msg peerState now post heq
      simp at heq
    exact ⟨iff_of_true hno hno, fun _ => .start⟩
  | append_singleton ops op ih =>
    rw [run_append] at h
    obtain ⟨s₁, h₁, hlast⟩ := Option.bind_eq_some_iff.1 h
    obtain ⟨s₂, hs, h₂⟩ := Option.bind_eq_some_iff.1 hlast
    cases h₂
    obtain ⟨hiff, htr⟩ := ih h₁
    constructor
    · unfold StampsRise Spaced at hiff ⊢
      rw [atOriginations_snoc, atOriginations_snoc, hiff]
      apply and_congr_right
      intro hsp
      have ht := htr hsp
      refine forall₃_congr fun msg peerState now => forall₂_congr fun hop hk => ?_
      subst hop
      rw [← ht.view_lt_iff, ← rises_iff hk hs]
      refine ⟨fun hall => hall s₁ s h₁ hs, fun hr t t' ht ht' => ?_⟩
      obtain rfl := Option.some.inj (h₁.symm.trans ht)
      obtain rfl := Option.some.inj (hs.symm.trans ht')
      exact hr
    · intro hsp
      obtain ⟨hsp, hlast⟩ := atOriginations_snoc.1 hsp
      apply (htr hsp).step hs
      intro msg peerState now hop hk
      rw [(htr hsp).view_lt_iff]
      exact hlast msg peerState now hop hk

/-- What a sketch node broadcasts it originated at that moment. -/
theorem issued_sketch {c : SketchCfg V} {ev : Ev} {peerState : V → NodeState} {now : Nat}
    {n n' : Node} {e : Effects V}
    (h : (ModelCfg.sketch c).fire peerState ev now n = some (n', e)) :
    (((ModelCfg.sketch c).issued ev now n).flatMap WireMessage.gossips).Sublist
      (NodeRun.recorded e) := by
  cases ev with
  | originate msg =>
    obtain ⟨n₀, r, hst, -, hr⟩ := ModelCfg.fire_originate h
    obtain ⟨-, -, horig⟩ := stampOriginated_still hst
    simp only [ModelCfg.issued]
    split
    · change n.originated c.toNodeCfg msg now = r.toList at horig
      rw [horig, hr]
      cases r <;> exact .refl _
    · exact List.nil_sublist _
  | _ => exact List.nil_sublist _

/-- Every broadcast is of a gossip that was accepted, each once. -/
theorem NodeRun.broadcast_le_accepted
    (h : run (NodeRun.step mc) { node := mc.initial } ops = some s) :
    (s.broadcast.flatMap WireMessage.gossips : Multiset Gossip) ≤ s.accepted := by
  cases mc with
  | flooding c | cln c | lnd c =>
    rw [← (conserved_run rfl (.start rfl rfl) h).held]
    exact Multiset.le_add_left _ _
  | sketch c =>
    have hfire : ∀ {s₀ : NodeRun V} {ev : Ev} {peerState : V → NodeState} {now : Nat} {n : Node}
        {e : Effects V},
        (s₀.broadcast.flatMap WireMessage.gossips : Multiset Gossip) ≤ s₀.accepted →
        (ModelCfg.sketch c).fire peerState ev now s₀.node = some (n, e) →
        ((s₀.broadcast ++ (ModelCfg.sketch c).issued ev now s₀.node).flatMap WireMessage.gossips :
          Multiset Gossip) ≤ ((s₀.originated ++ recorded e : List Gossip) : Multiset Gossip) +
            s₀.received := by
      intro s₀ ev peerState now n e hle hf
      rw [List.flatMap_append, ← Multiset.coe_add, ← Multiset.coe_add, add_right_comm]
      exact add_le_add hle (Multiset.coe_le.2 (issued_sketch hf).subperm)
    refine run_invariant (P := fun t : NodeRun V =>
      (t.broadcast.flatMap WireMessage.gossips : Multiset Gossip) ≤ t.accepted) h
      (Multiset.zero_le _) fun s₀ op s₁ hle hs => ?_
    cases op with
    | recv wire now =>
      obtain ⟨⟨n, e⟩, -, hs⟩ := Option.bind_eq_some_iff.1 hs
      cases hs
      apply hle.trans
      show (s₀.originated + s₀.received : Multiset Gossip) ≤
        s₀.originated + (s₀.received ++ recorded e : List Gossip)
      rw [← Multiset.coe_add]
      exact add_le_add_right (Multiset.le_add_right _ _) _
    | fire ev peerState now =>
      simp only [NodeRun.step] at hs
      split at hs
      · obtain ⟨⟨n, e⟩, hf, hs⟩ := Option.bind_eq_some_iff.1 hs
        cases hs
        exact hfire hle hf
      · cases hs
    | due i peerState now =>
      obtain ⟨ev, -, hs⟩ := Option.bind_eq_some_iff.1 hs
      obtain ⟨⟨n, e⟩, hf, hs⟩ := Option.bind_eq_some_iff.1 hs
      cases hs
      exact hfire hle hf

/-- In a run of a node of any kind, every originated timestamp is later than what was stored for its
key, and no message is recorded or broadcast twice, exactly if the originations are spaced. -/
theorem stamps_rise_iff (h : run (NodeRun.step mc) { node := mc.initial } ops = some s) :
    StampsRise mc ops ∧ Distinct s ↔ Spaced mc.base.id ops := by
  obtain ⟨hiff, htr⟩ := rise_iff_spaced h
  rw [← hiff, and_iff_left_iff_imp]
  intro hrise
  have ht := htr (hiff.1 hrise)
  refine ⟨ht.distinct, ?_⟩
  have hle := Multiset.map_le_map (f := Gossip.identity) (NodeRun.broadcast_le_accepted h)
  rw [Multiset.map_coe] at hle
  exact Multiset.coe_nodup.1 (Multiset.nodup_of_le hle ht.distinct)

end Runs

section Sample

/-- Hashes for runs on fixed inputs. -/
local instance stampHash : MsgHash := ⟨List.sum⟩

def stampNode : ModelCfg (Fin 2) := (floodPair (10 * 10 ^ 9)).model 0

def stampStart : NodeRun (Fin 2) := { node := stampNode.initial }

/-- Two updates of one channel, `gap` apart. -/
def updatesApart (gap : Nat) : List (NodeOp (Fin 2)) :=
  [.fire (.originate sampleUpdate) (fun _ => .new 1) (10 ^ 9),
    .fire (.originate sampleUpdate) (fun _ => .new 1) (10 ^ 9 + gap)]

/-- Half a second later the second update has the timestamp of the first one: both are recorded and
broadcast, and they are one message. -/
theorem same_second_repeats : ∃ s, run (NodeRun.step stampNode) stampStart
    (updatesApart (5 * 10 ^ 8)) = some s ∧
      ¬StampsRise stampNode (updatesApart (5 * 10 ^ 8)) ∧ ¬Distinct s := by
  have hrun : ((run (NodeRun.step stampNode) stampStart (updatesApart (5 * 10 ^ 8))).any fun s =>
      ¬((s.broadcast.flatMap WireMessage.gossips).map Gossip.identity).Nodup) = true := by
    decide +kernel
  obtain ⟨s, hs, hp⟩ := (Option.any_eq_true _ _).1 hrun
  refine ⟨s, hs, fun hrise => ?_, fun hd => of_decide_eq_true hp hd.broadcast⟩
  have hfirst : ((run (NodeRun.step stampNode) stampStart
      ((updatesApart (5 * 10 ^ 8)).take 1)).any fun s₁ =>
      s₁.node.view .channelUpdate (originKey stampNode.base.id sampleUpdate) = WithBot.some 1 ∧
      (s₁.step stampNode (.fire (.originate sampleUpdate) (fun _ => .new 1)
        (10 ^ 9 + 5 * 10 ^ 8))).isSome) = true := by decide +kernel
  obtain ⟨s₁, h₁, hp₁⟩ := (Option.any_eq_true _ _).1 hfirst
  obtain ⟨hview, hsome⟩ := of_decide_eq_true hp₁
  obtain ⟨s₂, h₂⟩ := Option.isSome_iff_exists.1 hsome
  have hr := hrise _ sampleUpdate _ _ [] rfl (by decide) s₁ s₂ h₁ h₂
  have hlt := (rises_iff (by decide) h₂).1 hr
  change s₁.node.view .channelUpdate _ < _ at hlt
  rw [hview] at hlt
  exact absurd hlt (by decide)

theorem stamps_rise_sample : ∃ s, run (NodeRun.step stampNode) stampStart (updatesApart (10 ^ 9)) =
    some s ∧ StampsRise stampNode (updatesApart (10 ^ 9)) ∧ Distinct s := by
  have hrun : (run (NodeRun.step stampNode) stampStart (updatesApart (10 ^ 9))).isSome = true := by
    decide +kernel
  obtain ⟨s, hs⟩ := Option.isSome_iff_exists.1 hrun
  refine ⟨s, hs, (stamps_rise_iff hs).2 ?_⟩
  have hno : Spaced stampNode.base.id ([] ++ (updatesApart (10 ^ 9)).take 1) := by
    refine atOriginations_snoc.2 ⟨fun pre msg ps now post heq => ?_, ?_⟩
    · simp at heq
    · simp
  refine atOriginations_snoc.2 ⟨hno, ?_⟩
  rintro msg ps now ⟨⟩ -
  simp only [List.take, updatesApart]
  decide

end Sample

end LnConv
