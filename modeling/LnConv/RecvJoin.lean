import LnConv.Net
import Mathlib.Data.List.MinMax

/-!
# Receiving is a join

Whatever its kind, a node that receives a sequence of gossip messages ends with
the join of its initial view and the received gossips, and counts every gossip
once, as first seen or as a duplicate. So only the set of gossips matters.
-/

namespace LnConv

variable {V : Type}

namespace ModelCfg

/-- Receives a list of messages, each at its time. -/
def recvAll (mc : ModelCfg V) : List (Nat × WireMessage) → Handler V
  | [] => fun n => some (n, {})
  | (now, wire) :: rest => (mc.recv wire now).seq (recvAll mc rest)

end ModelCfg

/-- All gossips of a list of messages. -/
def gossipsOf (ws : List (Nat × WireMessage)) : List Gossip := ws.flatMap fun w => w.2.gossips

/-- A gossip with the fields its kind has, in range. -/
def Gossip.WellFormed (g : Gossip) : Prop :=
  match g.kind with
  | .channelUpdate => ∃ scid, g.scid = some scid ∧ scid < 2 ^ 63 ∧ g.direction ≤ 1
  | .nodeAnnouncement => g.origin.isSome
  | .channelAnnouncement => ∃ scid, g.scid = some scid ∧ scid < 2 ^ 63

theorem Gossip.WellFormed.key?_isSome {g : Gossip} (h : g.WellFormed) : g.key?.isSome := by
  unfold WellFormed at h
  split at h
  · next hk => obtain ⟨scid, hs, -⟩ := h; simp [key?, hk, hs]
  · next hk => simpa [key?, hk] using h
  · next hk => obtain ⟨scid, hs, -⟩ := h; simp [key?, hk, hs]

/-- Where a gossip's stamp is kept. -/
def Gossip.slot (g : Gossip) : GossipKind × Nat := (g.kind, g.stateKey)

/-- A gossip that a join of other gossips dominates shares its slot with one of them. -/
theorem exists_slot_of_atom_le {g : Gossip} {v : View} {gs : List Gossip}
    (h : g.atom ≤ v ⊔ joinOf gs) (hv : ¬ g.atom ≤ v) : ∃ g' ∈ gs, g'.slot = g.slot := by
  rcases exists_of_le_joinOf (atom_le_iff.1 h) with h | ⟨g', hg', hk, hs, -⟩
  · exact absurd (atom_le_iff.2 h) hv
  · exact ⟨g', hg', Prod.ext hk hs⟩

/-- Gossips for distinct slots, all of them news, leave no duplicates. -/
theorem AbsorbsAs.dups_eq_nil {gs fresh dups queued : List Gossip} {now : Nat} {n n' : Node}
    {e : Effects V} (h : AbsorbsAs gs now n n' e fresh dups queued)
    (hnodup : (gs.map Gossip.slot).Nodup) (hnews : ∀ g ∈ gs, ¬ g.atom ≤ n.view) : dups = [] := by
  apply List.eq_nil_iff_forall_not_mem.2
  intro g hg
  have hmem : g ∈ gs := h.counted.subset (List.mem_append_right _ hg)
  have hle : g.atom ≤ n.view ⊔ joinOf fresh :=
    calc g.atom ≤ joinOf gs := le_supOf hmem
      _ ≤ n'.view := h.view ▸ le_sup_right
      _ ≤ n.view ⊔ joinOf fresh := h.learnt
  obtain ⟨g', hg', hs⟩ := exists_slot_of_atom_le hle (hnews g hmem)
  have hd := (h.counted.map Gossip.slot).nodup_iff.2 hnodup
  rw [List.map_append, List.nodup_append'] at hd
  exact hd.2.2 (List.mem_map_of_mem hg') (hs ▸ List.mem_map_of_mem hg)

/-- What receiving `gs` does to a node. -/
structure Joins (gs : List Gossip) (n n' : Node) (e : Effects V) : Prop where
  view : n'.view = n.view ⊔ joinOf gs
  counted : n'.metricsLocal.duplicates + e.firstSeen.length =
    n.metricsLocal.duplicates + gs.length
  recorded : n'.metricsLocal.firstSeenPending = n.metricsLocal.firstSeenPending ++ e.firstSeen
  news : (gs.map Gossip.slot).Nodup → (∀ g ∈ gs, ¬ g.atom ≤ n.view) →
    n'.metricsLocal.duplicates = n.metricsLocal.duplicates

theorem Joins.append {gs hs : List Gossip} {n n' n'' : Node} {e e' : Effects V}
    (h : Joins gs n n' e) (h' : Joins hs n' n'' e') : Joins (gs ++ hs) n n'' (e ++ e') where
  view := by rw [h'.view, h.view, joinOf_append, sup_assoc]
  counted := by
    have := h.counted
    have := h'.counted
    simp only [Effects.firstSeen_append, List.length_append]
    omega
  recorded := by rw [h'.recorded, h.recorded, Effects.firstSeen_append, List.append_assoc]
  news := by
    intro hnodup hnews
    rw [List.map_append, List.nodup_append'] at hnodup
    obtain ⟨hgs, hhs, hdis⟩ := hnodup
    rw [h'.news hhs ?_, h.news hgs fun g hg => hnews g (List.mem_append_left _ hg)]
    intro g hg hle
    rw [h.view] at hle
    obtain ⟨g', hg', hs⟩ := exists_slot_of_atom_le hle (hnews g (List.mem_append_right _ hg))
    exact hdis (List.mem_map_of_mem hg') (hs ▸ List.mem_map_of_mem hg)

theorem Absorbs.joins {f : Forward} {gs : List Gossip} {now : Nat} {n n₀ n' : Node}
    {e : Effects V} (h : Absorbs f gs now n₀ n' e) (hv : n₀.view = n.view)
    (hd : n₀.metricsLocal.duplicates = n.metricsLocal.duplicates)
    (hf : n₀.metricsLocal.firstSeenPending = n.metricsLocal.firstSeenPending) :
    Joins gs n n' e := by
  obtain ⟨fresh, dups, a, -⟩ := h
  refine ⟨by rw [a.view, hv], ?_, by rw [a.metrics, a.firstSeen, ← hf], fun hnodup hnews => ?_⟩
  · have hlen := a.counted.length_eq
    rw [List.length_append] at hlen
    rw [a.metrics, a.firstSeen, ← hd]
    simp only [stampSeen, List.length_map]
    omega
  · rw [a.metrics, a.dups_eq_nil hnodup fun g hg => hv ▸ hnews g hg]
    exact hd

theorem ModelCfg.recv_joins {mc : ModelCfg V} {wire : WireMessage} {now : Nat} {n n' : Node}
    {e : Effects V} (h : mc.recv wire now n = some (n', e)) : Joins wire.gossips n n' e := by
  obtain ⟨hs, -, hd, hf⟩ := mc.countIn_frame wire n
  exact (recv_absorbs h).joins (congrArg NodeState.view hs) hd hf

theorem ModelCfg.recvAll_joins (mc : ModelCfg V) {ws : List (Nat × WireMessage)}
    (h : ∀ g ∈ gossipsOf ws, g.key?.isSome) (n : Node) :
    ∃ n' e, mc.recvAll ws n = some (n', e) ∧ Joins (gossipsOf ws) n n' e := by
  induction ws generalizing n with
  | nil => exact ⟨n, {}, rfl, by simp [gossipsOf], by simp [gossipsOf], by simp, fun _ _ => rfl⟩
  | cons w ws ih =>
    have hw : gossipsOf (w :: ws) = w.2.gossips ++ gossipsOf ws := rfl
    rw [hw] at h ⊢
    obtain ⟨⟨n₁, e₁⟩, h₁⟩ := mc.recv_total w.1 (fun g hg => h g (List.mem_append_left _ hg)) n
    obtain ⟨n₂, e₂, h₂, j₂⟩ := ih (fun g hg => h g (List.mem_append_right _ hg)) n₁
    exact ⟨n₂, e₁ ++ e₂, by simp [recvAll, Handler.seq, h₁, h₂], (recv_joins h₁).append j₂⟩

/-! ## Reading the join key by key -/

/-- The join of gossips at a key is the largest timestamp among those of the key. -/
theorem joinOf_eq_maximum {gs : List Gossip} {kind : GossipKind} {k : Nat}
    (hk : kind ≠ .channelAnnouncement) (p : Gossip → Bool)
    (hp : ∀ g ∈ gs, p g = true ↔ g.kind = kind ∧ g.stateKey = k) :
    joinOf gs kind k = ((gs.filter p).map Gossip.timestamp).maximum := by
  induction gs with
  | nil => rfl
  | cons g gs ih =>
    have ih := ih fun x hx => hp x (List.mem_cons_of_mem _ hx)
    have hg := hp g List.mem_cons_self
    rw [joinOf_cons, Pi.sup_apply, Pi.sup_apply, ih]
    by_cases hpg : p g = true
    · obtain ⟨rfl, rfl⟩ := hg.1 hpg
      rw [List.filter_cons_of_pos hpg, List.map_cons, List.maximum_cons, atom_self]
      congr 2
      unfold Gossip.stamp
      split <;> simp_all
    · have : g.atom kind k = ⊥ := by
        unfold Gossip.atom
        rw [if_neg]
        exact fun h => hpg (hg.2 ⟨h.1.symm, h.2.symm⟩)
      rw [List.filter_cons_of_neg hpg, this, bot_sup_eq]

/-- An update of `(scid, direction)`. -/
def isUpdateOf (scid : Scid) (direction : Direction) (g : Gossip) : Bool :=
  g.kind = .channelUpdate && g.scid = some scid && g.direction = direction

def isAnnOfNode (origin : NodeId) (g : Gossip) : Bool :=
  g.kind = .nodeAnnouncement && g.origin = some origin

theorem isUpdateOf_iff {scid : Scid} {direction : Direction} {g : Gossip} (hg : g.WellFormed)
    (hs : scid < 2 ^ 63) (hd : direction ≤ 1) : isUpdateOf scid direction g = true ↔
      g.kind = .channelUpdate ∧ g.stateKey = packCuKey scid direction := by
  unfold Gossip.WellFormed at hg
  simp only [isUpdateOf, Bool.and_eq_true, decide_eq_true_eq, and_assoc]
  apply and_congr_right
  intro hk
  simp only [hk] at hg
  obtain ⟨s, hgs, hlt, hdir⟩ := hg
  have : g.stateKey = packCuKey s g.direction := stateKey_of_key? (by simp [Gossip.key?, hk, hgs])
  rw [this, packCuKey_inj hlt hdir hs hd, hgs, Option.some.injEq]

theorem isAnnOfNode_iff {origin : NodeId} {g : Gossip} (hg : g.WellFormed) :
    isAnnOfNode origin g = true ↔ g.kind = .nodeAnnouncement ∧ g.stateKey = origin := by
  unfold Gossip.WellFormed at hg
  simp only [isAnnOfNode, Bool.and_eq_true, decide_eq_true_eq]
  apply and_congr_right
  intro hk
  simp only [hk] at hg
  obtain ⟨o, ho⟩ := Option.isSome_iff_exists.1 hg
  simp [Gossip.stateKey, hk, ho]

theorem mem_chanAnns_iff {s : NodeState} {scid : Scid} :
    scid ∈ s.chanAnns ↔ s.view .channelAnnouncement scid ≠ ⊥ := by
  rw [← AList.lookup_isSome, NodeState.view, Ne, stampView_eq_bot, ← Option.isNone_iff_eq_none]
  cases (s.chanAnns.lookup scid) <;> simp

theorem joinOf_chanAnn {gs : List Gossip} {scid : Scid} (hg : ∀ g ∈ gs, g.WellFormed) :
    joinOf gs .channelAnnouncement scid ≠ ⊥ ↔
      ∃ g ∈ gs, g.kind = .channelAnnouncement ∧ g.scid = some scid := by
  have hatom : ∀ g ∈ gs, g.atom .channelAnnouncement scid ≠ ⊥ ↔
      g.kind = .channelAnnouncement ∧ g.scid = some scid := by
    intro g h
    have hw := hg g h
    unfold Gossip.WellFormed at hw
    unfold Gossip.atom
    by_cases hk : g.kind = .channelAnnouncement
    · simp only [hk] at hw
      obtain ⟨s, hs, -⟩ := hw
      simp [hk, Gossip.stateKey, hs, eq_comm]
    · simp [hk, Ne.symm hk]
  constructor
  · intro h
    by_contra hno
    push Not at hno
    apply h
    rw [joinOf_apply]
    exact supOf_eq_bot fun g hm => not_not.1 fun hne =>
      hno g hm ((hatom g hm).1 hne).1 ((hatom g hm).1 hne).2
  · rintro ⟨g, hm, hk⟩ hbot
    have hle : g.atom ≤ joinOf gs := le_supOf hm
    exact (hatom g hm).2 hk (le_bot_iff.1 (hbot ▸ hle .channelAnnouncement scid))

/-! ## The result -/

/-- Receiving a sequence of gossip messages never panics; every key holds the
maximum of its initial timestamp and the received ones, the announced channels
are the initial and the received ones, and each gossip is counted once. Any
other node of any kind that starts from the same view and receives the same
gossips, in any order, grouping and multiplicity, ends with the same view. -/
theorem recvAll_is_join (mc : ModelCfg V) {ws : List (Nat × WireMessage)}
    (hw : ∀ g ∈ gossipsOf ws, g.WellFormed) (n : Node) :
    ∃ n' e, mc.recvAll ws n = some (n', e) ∧
      (∀ scid direction, scid < 2 ^ 63 → direction ≤ 1 →
        n'.view .channelUpdate (packCuKey scid direction) =
          n.view .channelUpdate (packCuKey scid direction) ⊔
            (((gossipsOf ws).filter (isUpdateOf scid direction)).map Gossip.timestamp).maximum) ∧
      (∀ origin, n'.view .nodeAnnouncement origin = n.view .nodeAnnouncement origin ⊔
        (((gossipsOf ws).filter (isAnnOfNode origin)).map Gossip.timestamp).maximum) ∧
      (∀ scid, scid ∈ n'.state.chanAnns ↔ scid ∈ n.state.chanAnns ∨
        ∃ g ∈ gossipsOf ws, g.kind = .channelAnnouncement ∧ g.scid = some scid) ∧
      n'.metricsLocal.duplicates + e.firstSeen.length =
        n.metricsLocal.duplicates + (gossipsOf ws).length ∧
      n'.metricsLocal.firstSeenPending = n.metricsLocal.firstSeenPending ++ e.firstSeen ∧
      ∀ (mc₂ : ModelCfg V) (ws₂ : List (Nat × WireMessage)) (n₂ n₂' : Node) (e₂ : Effects V),
        (∀ g, g ∈ gossipsOf ws₂ ↔ g ∈ gossipsOf ws) → n₂.view = n.view →
        mc₂.recvAll ws₂ n₂ = some (n₂', e₂) → n₂'.view = n'.view := by
  have hkey : ∀ g ∈ gossipsOf ws, g.key?.isSome := fun g hg => (hw g hg).key?_isSome
  obtain ⟨n', e, hrun, hj⟩ := mc.recvAll_joins hkey n
  refine ⟨n', e, hrun, fun scid direction hs hd => ?_, fun origin => ?_, fun scid => ?_, hj.counted,
    hj.recorded, fun mc₂ ws₂ n₂ n₂' e₂ hset hn hrun₂ => ?_⟩
  · rw [hj.view, Pi.sup_apply, Pi.sup_apply, joinOf_eq_maximum (by decide) (isUpdateOf scid direction)
      fun g hg => isUpdateOf_iff (hw g hg) hs hd]
  · rw [hj.view, Pi.sup_apply, Pi.sup_apply, joinOf_eq_maximum (by decide) (isAnnOfNode origin)
      fun g hg => isAnnOfNode_iff (hw g hg)]
  · rw [mem_chanAnns_iff, mem_chanAnns_iff, ← joinOf_chanAnn hw]
    show n'.view _ _ ≠ ⊥ ↔ n.view _ _ ≠ ⊥ ∨ _
    rw [hj.view, Pi.sup_apply, Pi.sup_apply, Ne, sup_eq_bot_iff, not_and_or]
  · obtain ⟨m', e', hrun', hj'⟩ := mc₂.recvAll_joins (fun g hg => hkey g ((hset g).1 hg)) n₂
    rw [hrun₂] at hrun'
    cases hrun'
    rw [hj'.view, hj.view, hn, joinOf_congr hset]

/-- A Cln node without peers. -/
def lonelyCln : ModelCfg Unit :=
  .cln { id := 0, idx := 0, peers := .empty, runDuration := 1, flushInterval := 0, flushPhase := 0
         stagger := 1, firstTick := 1 }

def sampleWires : List (Nat × WireMessage) :=
  let update (ts : Nat) : Gossip := ⟨ts, none, .channelUpdate, 130, some 7, 0, ts⟩
  [(5, .single (update 9)),
    (6, .batch (.fromMixed [update 3, ⟨1, some 4, .nodeAnnouncement, 90, none, 0, 2⟩]))]

/-- The older update of the batch is a duplicate. -/
theorem recvAll_is_join_sample : ∃ n' e,
    lonelyCln.recvAll sampleWires lonelyCln.initial = some (n', e) ∧
    n'.view .channelUpdate (packCuKey 7 0) = WithBot.some 9 ∧
    n'.view .nodeAnnouncement 4 = WithBot.some 2 ∧
    n'.metricsLocal.duplicates + e.firstSeen.length = 3 := by
  have hw : ∀ g ∈ gossipsOf sampleWires, g.WellFormed := by
    show ∀ g ∈ [_, _, _], _
    simp [Gossip.WellFormed]
  obtain ⟨n', e, hrun, hcu, hna, -, hcount, -, -⟩ := recvAll_is_join lonelyCln hw lonelyCln.initial
  refine ⟨n', e, hrun, ?_, ?_, ?_⟩
  · rw [hcu 7 0 (by decide) (by decide)]; rfl
  · rw [hna 4]; rfl
  · rw [hcount]; rfl

end LnConv
