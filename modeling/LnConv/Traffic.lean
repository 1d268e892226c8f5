import LnConv.DiffSpec
import LnConv.Flush
import LnConv.NoLoss

/-!
# What travels through the network

A `Discipline` is a property of gossips and one of held timestamps that imply each
other: a gossip teaches only timestamps that may be held, and what a sketch node
rebuilds from a held entry may travel. If originations keep it, every gossip under
way and every tuple recorded as first seen has it (`Net.Carries`).
-/

namespace LnConv

/-! ## Entries and the gossips rebuilt from them -/

theorem view_of_mem_entries {s : NodeState} {kind : SketchKind} {e : Entry}
    (he : e ∈ s.entries kind) : s.view kind.toGossip e.key = WithBot.some e.timestamp := by
  cases kind <;> obtain ⟨x, hx, rfl⟩ := List.mem_map.1 he <;> exact stampView_of_mem hx

theorem SketchNode.mem_lookupKeys [MsgHash] {s : NodeState} {kind : SketchKind} {keys : List Nat}
    {g : Gossip} (hg : g ∈ lookupKeys s kind.toGossip keys) :
    ∃ e ∈ s.entries kind, g = e.gossip kind := by
  cases kind with
  | chanUpdates =>
    obtain ⟨k, -, h⟩ := List.mem_filterMap.1 hg
    obtain ⟨v, hv, rfl⟩ := Option.map_eq_some_iff.1 h
    exact ⟨⟨k, v.1, v.2⟩, List.mem_map.2 ⟨⟨k, v⟩, AList.mem_lookup_iff.1 hv, rfl⟩, rfl⟩
  | nodeAnns =>
    obtain ⟨k, -, h⟩ := List.mem_filterMap.1 hg
    obtain ⟨v, hv, rfl⟩ := Option.map_eq_some_iff.1 h
    exact ⟨⟨k, v.1, v.2⟩, List.mem_map.2 ⟨⟨k, v⟩, AList.mem_lookup_iff.1 hv, rfl⟩, rfl⟩
  | chanAnns =>
    obtain ⟨k, -, h⟩ := List.mem_filterMap.1 hg
    obtain ⟨v, hv, rfl⟩ := Option.map_eq_some_iff.1 h
    exact ⟨⟨k, 0, v⟩, List.mem_map.2 ⟨⟨k, v⟩, AList.mem_lookup_iff.1 hv, rfl⟩, rfl⟩

theorem mem_bNewer [MsgHash] {a b : NodeState} {kind : SketchKind} {which : WhichSide} {g : Gossip}
    (hg : g ∈ (computeDiff a b kind which).bNewer) : ∃ e ∈ b.entries kind, g = e.gossip kind := by
  have hmem := (isDiff_computeDiff a b kind which).bNewer.mem_iff.1 hg
  unfold NodeState.newerThan at hmem
  split at hmem
  · obtain ⟨e, he, rfl⟩ := List.mem_map.1 hmem
    exact ⟨e, (List.mem_filter.1 he).1, rfl⟩
  · cases hmem

/-! ## Disciplines -/

structure Discipline [MsgHash] where
  travels : Gossip → Prop
  holds : GossipKind → Nat → Nat → Prop
  held : ∀ g, travels g → holds g.kind g.stateKey g.stamp
  rebuilt : ∀ (s : NodeState) (kind : SketchKind), ∀ e ∈ s.entries kind,
    holds kind.toGossip e.key e.timestamp → travels (e.gossip kind)

namespace Discipline

variable [MsgHash] (d : Discipline)

/-- Every timestamp of the view may be held. -/
def Held (v : View) : Prop := ∀ kind k T, v kind k = WithBot.some T → d.holds kind k T

/-- What an origination has to keep. -/
def Stamps (s : NodeState) (selfId : NodeId) (msg : Gossip) (now : Nat) : Prop :=
  ∀ s' m, originateStamp s selfId msg now = some (s', m, true) → d.travels m

variable {d}

theorem Held.sup_atom {v : View} (h : d.Held v) {g : Gossip} (hg : d.travels g) :
    d.Held (v ⊔ g.atom) := by
  intro kind k T hT
  rw [Pi.sup_apply, Pi.sup_apply] at hT
  rcases max_choice (v kind k) (g.atom kind k) with hm | hm
  · exact h kind k T (hm.symm.trans hT)
  · have ha : g.atom kind k = WithBot.some T := hm.symm.trans hT
    unfold Gossip.atom at ha
    split at ha
    · next hk =>
      obtain ⟨rfl, rfl⟩ := hk
      rw [← WithBot.coe_inj.1 ha]
      exact d.held g hg
    · cases ha

theorem Held.sup_joinOf {v : View} (h : d.Held v) {gs : List Gossip} (hg : ∀ g ∈ gs, d.travels g) :
    d.Held (v ⊔ joinOf gs) := by
  induction gs generalizing v with
  | nil => simpa using h
  | cons g gs ih =>
    rw [joinOf_cons, ← sup_assoc]
    exact ih (h.sup_atom (hg g List.mem_cons_self)) fun x hx => hg x (List.mem_cons_of_mem _ hx)

theorem Held.entry {s : NodeState} (h : d.Held s.view) {kind : SketchKind} {e : Entry}
    (he : e ∈ s.entries kind) : d.travels (e.gossip kind) :=
  d.rebuilt s kind e he (h _ _ _ (view_of_mem_entries he))

end Discipline

/-! ## Handlers -/

section Handlers

variable {V : Type} [MsgHash] {d : Discipline} {n n' : Node} {e : Effects V} {now : Nat}

/-- A node before a handler runs. -/
structure Discipline.Fits (d : Discipline) (n : Node) : Prop where
  held : d.Held n.view
  pending : ∀ g ∈ n.pending, d.travels g

/-- What a handler leaves behind. -/
structure Discipline.Leaves (d : Discipline) (n' : Node) (e : Effects V) : Prop
    extends d.Fits n' where
  scheduled : ∀ g ∈ e.scheduled, d.travels g
  sent : ∀ x ∈ e.sends, ∀ g ∈ x.2.gossips, d.travels g
  counted : ∀ x ∈ e.firstSeen, d.travels x.gossip

theorem travels_stampSeen {gs : List Gossip} (h : ∀ g ∈ gs, d.travels g) :
    ∀ x ∈ stampSeen gs now, d.travels x.gossip := by
  intro x hx
  obtain ⟨g, hg, rfl⟩ := List.mem_map.1 hx
  exact h g hg

theorem ModelCfg.recv_travels {mc : ModelCfg V} {wire : WireMessage} (hn : d.Fits n)
    (hw : ∀ g ∈ wire.gossips, d.travels g) (h : mc.recv wire now n = some (n', e)) :
    d.Leaves n' e := by
  obtain ⟨hs, hp, -⟩ := mc.countIn_frame wire n
  obtain ⟨fresh, dups, a, sched, -⟩ := ModelCfg.recv_absorbs h
  have hfresh : ∀ g ∈ fresh, d.travels g := fun g hg =>
    hw g (a.counted.mem_iff.1 (List.mem_append_left _ hg))
  refine ⟨⟨?_, fun g hg => ?_⟩, fun g hg => ?_, by simp [a.sends], ?_⟩
  · rw [a.view]
    exact Discipline.Held.sup_joinOf (by rw [Node.view, hs]; exact hn.held) hw
  · rw [a.pending, hp, List.mem_append] at hg
    rcases hg with hg | hg
    · exact hn.pending g hg
    · apply hfresh g
      cases hf : mc.forward <;> simp_all [Forward.queued]
  · rw [sched] at hg
    apply hfresh g
    cases hf : mc.forward <;> simp_all [Forward.scheduled]
  · rw [a.firstSeen]
    exact travels_stampSeen hfresh

/-- A handler that leaves the state alone and forwards gossip that may travel. -/
theorem Discipline.Fits.leaves_of_same (hn : d.Fits n) (hs : n'.state = n.state)
    (hp : n'.pending ⊆ n.pending) (hsched : ∀ g ∈ e.scheduled, d.travels g)
    (hsent : ∀ x ∈ e.sends, ∀ g ∈ x.2.gossips, d.travels g) (hf : e.firstSeen = []) :
    d.Leaves n' e :=
  ⟨⟨by rw [Node.view, hs]; exact hn.held, fun g hg => hn.pending g (hp hg)⟩, hsched, hsent,
    by simp [hf]⟩

/-- The opening of an origination: the stamped message may travel. -/
theorem stampOriginated_travels {c : NodeCfg V} {n₀ : Node} {msg : Gossip} {r : Option Gossip}
    (hn : d.Fits n) (hm : d.Stamps n.state c.id msg now)
    (h : n.stampOriginated c msg now = some (n₀, r)) :
    d.Fits n₀ ∧ ∀ m, r = some m → d.travels m := by
  obtain ⟨⟨st, m, b⟩, hst, h⟩ := Option.bind_eq_some_iff.1 h
  have sp := originateStamp_spec hst
  have hkey := stateKey_of_key? sp.key
  have hheld : d.holds msg.kind (originKey c.id msg) m.stamp := by
    rw [← sp.kind, ← hkey]
    cases b with
    | true => exact d.held m (hm _ _ hst)
    | false =>
      -- the channel was known: the entry that is written stood there before
      obtain ⟨hk, hle⟩ := sp.old rfl
      have h0 : m.stamp = 0 := by simp [Gossip.stamp, sp.kind, hk]
      refine hn.held _ _ _ (le_antisymm ?_ (atom_le_iff.1 hle))
      rw [sp.kind, hk, h0]
      exact scidView_le_zero _ _
  have hview : d.Held st.view := by
    rw [sp.view]
    intro kind k T hT
    by_cases hk : kind = msg.kind
    · subst hk
      by_cases hkk : k = originKey c.id msg
      · subst hkk
        rw [Function.update_self, Function.update_self] at hT
        rwa [← WithBot.coe_inj.1 hT]
      · rw [Function.update_self, Function.update_of_ne hkk] at hT
        exact hn.held _ _ _ hT
    · rw [Function.update_of_ne hk] at hT
      exact hn.held _ _ _ hT
  cases b with
  | true =>
    cases h
    exact ⟨⟨hview, hn.pending⟩, by rintro m ⟨⟩; exact hm _ _ hst⟩
  | false =>
    cases h
    exact ⟨⟨hview, hn.pending⟩, by simp⟩

/-- What an `originate` makes of its opening. -/
theorem originate_leaves {c : NodeCfg V} {n₀ : Node} {msg : Gossip} {r : Option Gossip}
    (hn : d.Fits n) (hm : d.Stamps n.state c.id msg now)
    (h : n.stampOriginated c msg now = some (n₀, r)) (hs : n'.state = n₀.state)
    (hp : ∀ g ∈ n'.pending, g ∈ r ∨ g ∈ n₀.pending) (hsched : e.schedules = [])
    (hsent : ∀ x ∈ e.sends, ∀ g ∈ x.2.gossips, g ∈ r) (hf : e.firstSeen = stampSeen r.toList now) :
    d.Leaves n' e := by
  obtain ⟨h₀, hr⟩ := stampOriginated_travels hn hm h
  refine ⟨⟨by rw [Node.view, hs]; exact h₀.held, fun g hg => ?_⟩, by simp [Effects.scheduled, hsched],
    fun x hx g hg => hr g (hsent x hx g hg), ?_⟩
  · exact (hp g hg).elim (hr g) (h₀.pending g)
  · rw [hf]
    exact travels_stampSeen fun g hg => hr g (Option.mem_toList.1 hg)

omit [MsgHash] in
/-- A broadcast carries the gossips of its message. -/
theorem gossips_of_mem_broadcast {c : NodeCfg V} {wire : WireMessage} {P : Gossip → Prop}
    (hw : ∀ g ∈ wire.gossips, P g) : ∀ x ∈ c.broadcast wire, ∀ g ∈ x.2.gossips, P g := by
  rintro ⟨v, wire'⟩ hx g hg
  obtain ⟨-, rfl⟩ := mem_broadcast.1 hx
  exact hw g hg

theorem SketchNode.sendGossips_travels {out : V} {kind : GossipKind} {gs : List Gossip}
    (h : ∀ g ∈ gs, g.kind = kind) (hg : ∀ g ∈ gs, d.travels g) (n : Node) :
    ∀ x ∈ (sendGossips out kind gs h n).2, ∀ g ∈ x.2.gossips, d.travels g := by
  rw [sendGossips_snd]
  split
  · simp
  · simpa [WireMessage.gossips] using hg

/-- Reconciling sends what is rebuilt from held entries. -/
theorem SketchNode.handleSketch_travels {c : SketchCfg V} {peerState : V → NodeState} {sk : Sketch}
    (hn : d.Fits n) (h : handleSketch c peerState sk now n = some (n', e)) :
    ∀ x ∈ e.sends, ∀ g ∈ x.2.gossips, d.travels g := by
  simp only [handleSketch] at h
  split at h
  · cases h; simp
  simp only [Option.bind_eq_bind, Option.bind_eq_some_iff] at h
  obtain ⟨out, -, h⟩ := h
  split at h
  · cases h; simp
  · cases h
    intro x hx
    rcases List.mem_append.1 hx with hx | hx
    · refine sendGossips_travels _ (fun g hg => ?_) _ x hx
      obtain ⟨en, hen, rfl⟩ := mem_bNewer hg
      exact hn.held.entry hen
    · rw [sendInventory_snd] at hx
      split at hx
      · rw [List.mem_singleton.1 hx]; simp [WireMessage.gossips]
      · cases hx

theorem SketchNode.handleInventory_travels {c : SketchCfg V} {inv : InventoryMsg} (hn : d.Fits n)
    (h : handleInventory c inv n = some (n', e)) :
    ∀ x ∈ e.sends, ∀ g ∈ x.2.gossips, d.travels g := by
  simp only [handleInventory] at h
  split at h
  · cases h; simp
  simp only [Option.bind_eq_bind, Option.bind_eq_some_iff] at h
  obtain ⟨out, -, h⟩ := h
  cases h
  refine sendGossips_travels _ (fun g hg => ?_) _
  rw [← SketchKind.toGossip_fromGossip inv.kind] at hg
  obtain ⟨en, hen, rfl⟩ := mem_lookupKeys hg
  exact hn.held.entry hen

omit [MsgHash] in
theorem SketchNode.tickForPeer_sketches {c : SketchCfg V} {loc : Nat}
    (h : tickForPeer c loc n = some (n', e)) : ∀ x ∈ e.sends, x.2.gossips = [] := by
  have hone : ∀ {kind cap} {n n' : Node} {e : Effects V}, sendSketch c loc kind cap n = some (n', e) →
      ∀ x ∈ e.sends, x.2.gossips = [] := by
    intro kind cap n n' e h x hx
    cases h
    obtain ⟨v, -, rfl⟩ := List.mem_map.1 hx
    rfl
  obtain ⟨n₁, e₁, e', h₁, h', rfl⟩ := Handler.seq_eq_some h
  obtain ⟨n₂, e₂, e₃, h₂, h₃, rfl⟩ := Handler.seq_eq_some h'
  intro x hx
  simp only [Effects.sends_append, List.mem_append] at hx
  exact hx.elim (hone h₁ x) fun hx => hx.elim (hone h₂ x) (hone h₃ x)

/-- The chunks of an Lnd tick carry pending gossip. -/
theorem LndNode.tick_leaves {c : LndCfg V} (hn : d.Fits n) (h : LndNode.tick c n = some (n', e)) :
    d.Leaves n' e := by
  simp only [tick] at h
  split at h
  · cases h
    exact hn.leaves_of_same rfl (List.Subset.refl _) (by simp [Effects.scheduled]) (by simp) rfl
  next hne =>
  simp only [Option.bind_eq_bind, Option.bind_eq_some_iff] at h
  obtain ⟨sub, hsub, h⟩ := h
  have hpos : 0 < sub :=
    calculateSubBatchSize_pos c.minBatchSize_pos (List.length_pos_iff.2 (by simpa using hne)) hsub
  have hchunk : ∀ chunk ∈ chunks sub n.pending, ∀ g ∈ chunk, d.travels g := fun chunk hc g hg =>
    hn.pending g (flatten_chunks n.pending hpos ▸ List.mem_flatten.2 ⟨chunk, hc, hg⟩)
  cases hch : chunks sub n.pending with
  | nil =>
    rw [hch] at h
    cases h
    exact hn.leaves_of_same rfl (List.nil_subset _) (by simp [Effects.scheduled]) (by simp) rfl
  | cons first rest =>
    rw [hch] at h hchunk
    cases h
    refine hn.leaves_of_same rfl (List.nil_subset _) (fun g hg => ?_) ?_ rfl
    · obtain ⟨x, hx, hg⟩ := List.mem_flatMap.1 hg
      obtain ⟨i, hi, rfl⟩ := List.mem_mapIdx.1 hx
      rw [List.length_map] at hi
      apply hchunk (rest[i]) (List.mem_cons_of_mem _ (List.getElem_mem hi)) g
      simpa using hg
    · exact gossips_of_mem_broadcast fun g hg =>
        hchunk first List.mem_cons_self g (GossipBatch.mem_fromMixed.1 hg)

/-- Whatever an event makes a node send, schedule, keep or record may travel. -/
theorem ModelCfg.fire_travels {mc : ModelCfg V} {peerState : V → NodeState} {ev : Ev} (hn : d.Fits n)
    (hev : ∀ g ∈ ev.gossips, d.travels g)
    (ho : ∀ msg, ev = .originate msg → d.Stamps n.state mc.base.id msg now)
    (h : mc.fire peerState ev now n = some (n', e)) : d.Leaves n' e := by
  have hquiet : n'.state = n.state → n'.pending = n.pending → e.schedules = [] →
      (∀ x ∈ e.sends, ∀ g ∈ x.2.gossips, d.travels g) → e.firstSeen = [] → d.Leaves n' e :=
    fun hs hp hsched hsent hf => hn.leaves_of_same hs (by rw [hp]; exact List.Subset.refl _)
      (by simp [Effects.scheduled, hsched]) hsent hf
  have hone : ∀ {c : NodeCfg V} {m : Gossip}, ∀ x ∈ c.broadcast (.single m), ∀ g ∈ x.2.gossips,
      g ∈ some m := fun {c m} => gossips_of_mem_broadcast (by simp [WireMessage.gossips, eq_comm])
  cases mc with
  | flooding c =>
    cases ev with
    | originate msg =>
      simp only [fire, FloodingNode.originate, Option.bind_eq_bind, Option.bind_eq_some_iff] at h
      obtain ⟨⟨n₀, r⟩, hst, h⟩ := h
      cases r <;> cases h
      · exact originate_leaves hn (ho msg rfl) hst rfl (fun _ => .inr) rfl (by simp) rfl
      · exact originate_leaves hn (ho msg rfl) hst rfl (fun _ => .inr) rfl hone rfl
    | doSend msg =>
      cases h
      exact hquiet rfl rfl rfl (gossips_of_mem_broadcast hev) rfl
    | flushSummary => cases h; exact hquiet rfl rfl rfl (by simp) rfl
    | _ => cases h
  | cln c =>
    cases ev with
    | originate msg =>
      simp only [fire, ClnNode.originate, Option.bind_eq_bind, Option.bind_eq_some_iff] at h
      obtain ⟨⟨n₀, r⟩, hst, h⟩ := h
      cases r <;> cases h
      · exact originate_leaves hn (ho msg rfl) hst rfl (fun _ => .inr) rfl (by simp) rfl
      · exact originate_leaves hn (ho msg rfl) hst rfl (fun _ => .inr) rfl hone rfl
    | tick =>
      simp only [fire, ClnNode.tick] at h
      split at h <;> cases h
      · exact hquiet rfl rfl rfl (by simp) rfl
      · exact hn.leaves_of_same rfl (List.nil_subset _) (by simp [Effects.scheduled])
          (gossips_of_mem_broadcast fun g hg => hn.pending g (GossipBatch.mem_fromMixed.1 hg)) rfl
    | flushSummary => cases h; exact hquiet rfl rfl rfl (by simp) rfl
    | _ => cases h
  | lnd c =>
    cases ev with
    | originate msg =>
      simp only [fire, LndNode.originate, Option.bind_eq_bind, Option.bind_eq_some_iff] at h
      obtain ⟨⟨n₀, r⟩, hst, h⟩ := h
      cases r <;> cases h
      · exact originate_leaves hn (ho msg rfl) hst rfl (fun _ => .inr) rfl (by simp) rfl
      · exact originate_leaves hn (ho msg rfl) hst rfl
          (fun g hg => by simpa [eq_comm] using hg) rfl (by simp) rfl
    | tick => exact LndNode.tick_leaves hn h
    | sendBatch b =>
      cases h
      exact hquiet rfl rfl rfl (gossips_of_mem_broadcast hev) rfl
    | flushSummary => cases h; exact hquiet rfl rfl rfl (by simp) rfl
    | _ => cases h
  | sketch c =>
    cases ev with
    | originate msg =>
      simp only [fire, SketchNode.originate, Option.bind_eq_bind, Option.bind_eq_some_iff] at h
      obtain ⟨⟨n₀, r⟩, hst, h⟩ := h
      cases r with
      | none =>
        cases h
        exact originate_leaves hn (ho msg rfl) hst rfl (fun _ => .inr) rfl (by simp) rfl
      | some m =>
        dsimp only at h
        split at h <;> cases h
        · exact originate_leaves hn (ho msg rfl) hst rfl (fun _ => .inr) rfl hone rfl
        · exact originate_leaves hn (ho msg rfl) hst rfl (fun _ => .inr) rfl (by simp) rfl
    | tickForPeer i =>
      obtain ⟨k, hs, hf, -⟩ := SketchNode.tickForPeer_keeps h
      exact hquiet k.state k.pending hs (fun x hx g hg => by
        rw [SketchNode.tickForPeer_sketches h x hx] at hg; cases hg) hf
    | handleSketch sk =>
      obtain ⟨k, hs, hf, -⟩ := SketchNode.handleSketch_keeps h
      exact hquiet k.state k.pending hs (SketchNode.handleSketch_travels hn h) hf
    | handleInventory i =>
      obtain ⟨k, hs, hf, -⟩ := SketchNode.handleInventory_keeps h
      exact hquiet k.state k.pending hs (SketchNode.handleInventory_travels hn h) hf
    | flushSummary =>
      simp only [fire, SketchNode.flushSummary] at h
      split at h <;> cases h <;> exact hquiet rfl rfl rfl (by simp) rfl
    | _ => cases h

theorem fire_ships {mc : ModelCfg V} {peerState : V → NodeState} {ev : Ev}
    (h : mc.fire peerState ev now n = some (n', e)) : Ships mc.base n n' e := by
  cases hev : ev.isFlush with
  | false => exact (fire_buffers h hev).1.ships _
  | true =>
    cases ev with
    | flushSummary => exact (fire_flush h).1
    | _ => cases hev

end Handlers

/-- An armed event is a ticker or a flush. -/
theorem quiet_armed {V : Type} (mc : ModelCfg V) :
    ∀ a ∈ mc.armed, a.2.1.gossips = [] ∧ a.2.1.originated? = none := by
  have hflush : ∀ (phase interval deadline : Nat), ∀ a ∈ (if interval > 0 then
      [(phase, Ev.flushSummary, some interval)] else []) ++ [(deadline, Ev.flushSummary, none)],
      a.2.1.gossips = [] ∧ a.2.1.originated? = none := by
    intro phase interval deadline a ha
    split at ha
    · rcases List.mem_cons.1 ha with rfl | ha
      · exact ⟨rfl, rfl⟩
      · rw [List.mem_singleton.1 ha]; exact ⟨rfl, rfl⟩
    · rw [List.mem_singleton.1 ha]; exact ⟨rfl, rfl⟩
  intro a ha
  cases mc with
  | flooding c => exact hflush _ _ _ a ha
  | cln c =>
    rw [ModelCfg.armed, ClnNode.armTicks, List.append_assoc] at ha
    rcases List.mem_cons.1 ha with rfl | ha
    · exact ⟨rfl, rfl⟩
    · exact hflush _ _ _ a ha
  | lnd c =>
    rw [ModelCfg.armed, LndNode.armTicks, List.append_assoc] at ha
    rcases List.mem_cons.1 ha with rfl | ha
    · exact ⟨rfl, rfl⟩
    · exact hflush _ _ _ a ha
  | sketch c =>
    rw [ModelCfg.armed, SketchNode.armPerPeerTickers, List.append_assoc] at ha
    rcases List.mem_append.1 ha with ha | ha
    · obtain ⟨i, -, rfl⟩ := List.mem_mapIdx.1 ha
      exact ⟨rfl, rfl⟩
    · exact hflush _ _ _ a ha

/-! ## The network -/

section Network

variable {V : Type} [DecidableEq V] [MsgHash] {d : Discipline} {w : Network V} {s s' : Net V}

/-- Everything under way and everything recorded may travel. -/
structure Net.Carries (s : Net V) (d : Discipline) : Prop where
  fits : ∀ v, d.Fits (s.node v)
  scheduled : ∀ q ∈ s.queue, ∀ g ∈ q.ev.gossips, d.travels g
  flight : ∀ p ∈ s.flight, ∀ g ∈ p.wire.gossips, d.travels g
  counted : ∀ v, ∀ x ∈ s.counted v, d.travels x.gossip
  buffered : ∀ v, ∀ x ∈ s.buffered v, d.travels x.gossip
  shipped : ∀ idx, ∀ x ∈ LnConv.shipped idx s.metrics, d.travels x.gossip

/-- The origination a step runs, if any, keeps the discipline. -/
def Net.StampsOk (w : Network V) (s : Net V) (d : Discipline) (l : Label) : Prop :=
  ∀ x ∈ s.originates l, d.Stamps (s.node x.1).state (w.topo.id x.1) x.2 s.now

theorem Net.Carries.commit {s₀ : Net V} {u : V} {n : Node} {e : Effects V} (h : s.Carries d)
    (hl : d.Leaves n e) (hs : Ships (w.model u).base (s.node u) n e) (hn : s₀.node = s.node)
    (hq : ∀ q ∈ s₀.queue, ∃ q' ∈ s.queue, q.ev = q'.ev) (hf : s₀.flight ⊆ s.flight)
    (hc : s₀.counted = s.counted) (hm : s₀.metrics = s.metrics) :
    (s₀.commit u n e).Carries d where
  fits v := by
    rw [Net.node_commit, hn]
    split
    · exact hl.toFits
    · exact h.fits v
  scheduled q hq' := by
    rcases List.mem_append.1 hq' with hq' | hq'
    · obtain ⟨q', hq'', he⟩ := hq q hq'
      exact he ▸ h.scheduled q' hq''
    · obtain ⟨x, hx, rfl⟩ := List.mem_map.1 hq'
      exact fun g hg => hl.scheduled g (List.mem_flatMap.2 ⟨x, hx, hg⟩)
  flight p hp := by
    rcases List.mem_append.1 hp with hp | hp
    · exact h.flight p (hf hp)
    · obtain ⟨x, hx, rfl⟩ := List.mem_map.1 hp
      exact hl.sent x hx
  counted v x hx := by
    simp only [Net.commit, Function.update_apply, hc] at hx
    split at hx
    · exact (List.mem_append.1 hx).elim (h.counted u x) (hl.counted x)
    · exact h.counted v x hx
  buffered v x hx := by
    rw [Net.buffered, Net.node_commit, hn] at hx
    split at hx
    · have hk : x ∈ (s.node u).metricsLocal.firstSeenPending ++ e.firstSeen :=
        hs.kept ▸ List.mem_append_right _ hx
      exact (List.mem_append.1 hk).elim (h.buffered u x) (hl.counted x)
    · exact h.buffered v x hx
  shipped idx x hx := by
    rw [Net.commit, shipped_append, hm, List.mem_append] at hx
    rcases hx with hx | hx
    · exact h.shipped idx x hx
    · by_cases hi : idx = (w.model u).base.idx
      · have hk : x ∈ (s.node u).metricsLocal.firstSeenPending ++ e.firstSeen :=
          hs.kept ▸ List.mem_append_left _ (hi ▸ hx)
        exact (List.mem_append.1 hk).elim (h.buffered u x) (hl.counted x)
      · rw [hs.own idx hi] at hx
        cases hx

theorem Net.Carries.step (h : s.Carries d) {l : Label} (ho : s.StampsOk w d l)
    (hs : step w s l = some s') : s'.Carries d := by
  cases moves_of_step hs with
  | advance _ => exact ⟨h.fits, h.scheduled, h.flight, h.counted, h.buffered, h.shipped⟩
  | @deliver i p n e hp hr _ =>
    have hmem : p ∈ s.flight := List.mem_of_getElem? hp
    exact h.commit (ModelCfg.recv_travels (h.fits _) (h.flight p hmem) hr)
      ((recv_buffers hr).1.ships (w.model p.dst).base) rfl (fun q hq => ⟨q, hq, rfl⟩)
      (List.eraseIdx_subset ..) rfl rfl
  | @fire i q n e hq hr _ =>
    have hmem : q ∈ s.queue := List.mem_of_getElem? hq
    refine h.commit (ModelCfg.fire_travels (h.fits _) (h.scheduled q hmem) (fun msg he => ?_) hr)
      (fire_ships hr) rfl (fun q' hq' => ?_) (List.Subset.refl _) rfl rfl
    · rw [w.id_eq]
      exact ho _ (originates_fire hq he)
    · rcases List.mem_append.1 hq' with hq' | hq'
      · exact ⟨q', List.mem_of_mem_eraseIdx hq', rfl⟩
      · exact ⟨q, hmem, (again_mem hq').2⟩

omit [DecidableEq V] in
theorem carries_init {events : List (Nat × V × Gossip)} (h : init w events = some s) :
    s.Carries d := by
  have hbuf : ∀ mc : ModelCfg V, mc.initial.metricsLocal.firstSeenPending = [] := by
    intro mc; cases mc <;> rfl
  rw [init_eq h]
  refine ⟨fun v => ⟨fun kind k T hT => ?_, by simp [ModelCfg.initial]⟩, fun q hq g hg => ?_, by simp,
    by simp, fun v x hx => ?_, by simp⟩
  · rw [show (w.model v).initial.view = ⊥ from view_new _] at hT
    cases hT
  · rcases List.mem_append.1 hq with hq | hq
    · obtain ⟨v, -, hq⟩ := List.mem_flatMap.1 hq
      obtain ⟨a, ha, rfl⟩ := List.mem_map.1 hq
      rw [(quiet_armed _ a ha).1] at hg
      cases hg
    · obtain ⟨x, -, rfl⟩ := List.mem_map.1 hq
      cases hg
  · rw [Net.buffered, hbuf] at hx
    cases hx

/-- In every run whose originations keep a discipline, everything under way and
everything recorded has it. -/
theorem carries {events : List (Nat × V × Gossip)} {s₀ : Net V} {ls : List Label}
    (h₀ : init w events = some s₀) (h : Steps (step w) (fun s l => s.StampsOk w d l) s₀ ls s) :
    s.Carries d :=
  h.invariant (P := fun s => s.Carries d) (carries_init h₀) fun _ _ _ hc ho hs => hc.step ho hs

/-! ## Waiting originations -/

/-- The originations that wait are among those of `O`. -/
def Net.Awaits (s : Net V) (O : V → Gossip → Prop) : Prop :=
  ∀ q ∈ s.queue, ∀ msg, q.ev = .originate msg → O q.node msg

variable {O : V → Gossip → Prop}

omit [DecidableEq V] [MsgHash] in
theorem awaits_init {events : List (Nat × V × Gossip)} (h : init w events = some s) :
    s.Awaits fun v g => ∃ t, (t, v, g) ∈ events := by
  rw [init_eq h]
  intro q hq msg he
  rcases List.mem_append.1 hq with hq | hq
  · obtain ⟨v, -, hq⟩ := List.mem_flatMap.1 hq
    obtain ⟨a, ha, rfl⟩ := List.mem_map.1 hq
    have hnone := (quiet_armed _ a ha).2
    rw [show a.2.1 = .originate msg from he] at hnone
    cases hnone
  · obtain ⟨x, hx, rfl⟩ := List.mem_map.1 hq
    cases he
    exact ⟨x.1, hx⟩

omit [MsgHash] in
theorem Net.Awaits.commit {s₀ : Net V} {u : V} {n : Node} {e : Effects V} (h : s₀.Awaits O)
    (hsp : ∀ x ∈ e.schedules, x.2.spawned = true) : (s₀.commit u n e).Awaits O := by
  intro q hq msg he
  rcases List.mem_append.1 hq with hq | hq
  · exact h q hq msg he
  · obtain ⟨x, hx, rfl⟩ := List.mem_map.1 hq
    have hspawned := hsp x hx
    rw [show x.2 = .originate msg from he] at hspawned
    cases hspawned

/-- Handlers schedule no originations. -/
theorem Net.Awaits.step (h : s.Awaits O) {l : Label} (hs : step w s l = some s') : s'.Awaits O := by
  cases moves_of_step hs with
  | advance _ => exact h
  | deliver _ hr _ =>
    obtain ⟨_, _, -, -, hsp⟩ := ModelCfg.recv_absorbs hr
    refine Net.Awaits.commit ?_ hsp
    exact h
  | @fire i q n e hq hr _ =>
    refine Net.Awaits.commit ?_ (ModelCfg.fire_spawned hr)
    intro q' hq' msg he
    rcases List.mem_append.1 hq' with hq' | hq'
    · exact h q' (List.mem_of_mem_eraseIdx hq') msg he
    · obtain ⟨hn, hev⟩ := again_mem hq'
      exact hn ▸ h q (List.mem_of_getElem? hq) msg (hev ▸ he)

omit [DecidableEq V] [MsgHash] in
/-- A step originates what waits. -/
theorem Net.Awaits.originates (h : s.Awaits O) {l : Label} {x : V × Gossip}
    (hx : x ∈ s.originates l) : O x.1 x.2 := by
  unfold Net.originates at hx
  split at hx
  · split at hx
    · next hq =>
      cases hx
      exact h _ (List.mem_of_getElem? hq) _ rfl
    · cases hx
  · cases hx

end Network

end LnConv
