import LnConv.Clock
import LnConv.Identity
import LnConv.Mixed
import LnConv.Stamps

/-!
# Where knowledge comes from

Relays copy gossips and sketch nodes rebuild them from their entries, but only
originations make new ones: whatever is stored, under way or recorded has the kind, key
and timestamp of a message that an origination of the run stamped. So what the nodes
store never exceeds the join of these stamps, and where everything has flowed every node
stores exactly this join.
-/

namespace LnConv

theorem identity_eq_of_atom_eq {g g' : Gossip} (h : g.atom = g'.atom) :
    g.identity = g'.identity := by
  have hat : g'.atom g.kind g.stateKey = WithBot.some g.stamp := h ▸ atom_self g
  unfold Gossip.atom at hat
  split at hat
  · next hk =>
    obtain ⟨hkind, hkey⟩ := hk
    unfold Gossip.identity
    rw [hkind, hkey, WithBot.coe_inj.1 hat]
  · cases hat

/-- A value that is in the atom of a message has its identity. -/
theorem identity_of_atom {g : Gossip} {kind : GossipKind} {k T : Nat}
    (h : g.identity = (kind, k, T)) : g.atom kind k = WithBot.some T := by
  obtain ⟨rfl, rfl, rfl⟩ : g.kind = kind ∧ g.stateKey = k ∧ g.stamp = T := by
    simpa [Gossip.identity] using h
  exact atom_self g

section Provenance

variable {V : Type}

/-- The messages that a step stamps. -/
def Net.stamps (w : Network V) (s : Net V) (l : Label) : List Gossip :=
  (s.originates l).toList.map fun x => x.2.stamped (w.topo.id x.1) s.now

theorem Net.mem_stamps {w : Network V} {s : Net V} {l : Label} {x : V × Gossip}
    (h : x ∈ s.originates l) : x.2.stamped (w.topo.id x.1) s.now ∈ s.stamps w l :=
  List.mem_map_of_mem (Option.mem_toList.2 h)

theorem Net.of_originates {s : Net V} {l : Label} {x : V × Gossip} (h : x ∈ s.originates l) :
    ∃ i q, l = .fire i ∧ s.queue[i]? = some q ∧ q.node = x.1 ∧ q.ev = .originate x.2 := by
  unfold Net.originates at h
  split at h
  · next i =>
    split at h
    · next q hq =>
      cases h
      exact ⟨i, _, rfl, hq, rfl, rfl⟩
    · cases h
  · cases h

/-- The message is an event, stamped with the id of its node up to `now`. -/
def Network.Issued (w : Network V) (events : List (Nat × V × Gossip)) (now : Nat) (o : Gossip) :
    Prop :=
  ∃ time v msg t, (time, v, msg) ∈ events ∧ t ≤ now ∧ o = msg.stamped (w.topo.id v) t

/-- A node announcement is issued by the node that it is about. -/
theorem Network.Issued.announced {w : Network V} {events : List (Nat × V × Gossip)} {now : Nat}
    {o : Gossip} (h : w.Issued events now o) (hk : o.kind = .nodeAnnouncement) :
    ∃ u, w.topo.id u = o.stateKey ∧ ∃ time msg, (time, u, msg) ∈ events := by
  obtain ⟨time, u, msg, t, hmem, -, rfl⟩ := h
  refine ⟨u, ?_, time, msg, hmem⟩
  cases hm : msg.kind <;> simp [Gossip.stamped, hm, Gossip.stateKey] at hk ⊢

section Runs

variable [DecidableEq V] [MsgHash] {w : Network V} {events : List (Nat × V × Gossip)}
  {s₀ s₁ s s' : Net V} {ls : List Label}

/-- All that the originations of a run stamp. -/
def stampsAlong (w : Network V) (s : Net V) (ls : List Label) : List Gossip :=
  collect (step w) (Net.stamps w) s ls

/-- What has the kind, key and timestamp of a stamped message. -/
def provenance (os : List Gossip) : Discipline where
  travels g := ∃ o ∈ os, o.identity = g.identity
  holds kind k T := ∃ o ∈ os, o.identity = (kind, k, T)
  held _ h := h
  rebuilt s kind e he h := by
    obtain ⟨o, ho, hi⟩ := h
    obtain ⟨hkind, hkey, ht, -⟩ := gossip_of_mem_entries he
    have hstamp : (e.gossip kind).stamp = e.timestamp := by
      cases kind with
      | chanAnns =>
        obtain ⟨x, -, rfl⟩ := List.mem_map.1 he
        rfl
      | _ => exact ht
    refine ⟨o, ho, hi.trans ?_⟩
    rw [Gossip.identity, hkind, stateKey_of_key? hkey, hstamp]

omit [DecidableEq V] in
/-- A step whose stamps are among `os` originates what has its provenance there. -/
theorem stampsOk_provenance {os : List Gossip} {l : Label} (h : s.stamps w l ⊆ os) :
    s.StampsOk w (provenance os) l := by
  intro x hx s' m hst
  have sp := originateStamp_spec hst
  exact ⟨_, h (Net.mem_stamps hx), identity_eq_of_atom_eq (stamped_atom sp)⟩

theorem carries_provenance (h₀ : init w events = some s₀) (h : run (step w) s₀ ls = some s) :
    s.Carries (provenance (stampsAlong w s₀ ls)) :=
  carries h₀ (((steps_of_run h).of_collect (List.Subset.refl _)).imp
    fun _ _ ho => stampsOk_provenance ho.2)

omit [DecidableEq V] [MsgHash] in
theorem Network.Issued.mono {now now' : Nat} {o : Gossip} (h : w.Issued events now o)
    (hle : now ≤ now') : w.Issued events now' o := by
  obtain ⟨time, v, msg, t, hmem, ht, rfl⟩ := h
  exact ⟨time, v, msg, t, hmem, ht.trans hle, rfl⟩

/-- Only events are stamped. -/
theorem issued_of_stamps (h₀ : init w events = some s₀) (h : run (step w) s₀ ls = some s) :
    ∀ o ∈ stampsAlong w s₀ ls, w.Issued events s.now o := by
  have hinv : (s.Awaits fun v g => ∃ t, (t, v, g) ∈ events) ∧
      ∀ o ∈ [] ++ stampsAlong w s₀ ls, w.Issued events s.now o := by
    refine (steps_of_run h).collect_invariant (P := fun s (os : List Gossip) =>
      (s.Awaits fun v g => ∃ t, (t, v, g) ∈ events) ∧ ∀ o ∈ os, w.Issued events s.now o)
      ⟨awaits_init h₀, List.forall_mem_nil _⟩ ?_
    rintro s l s' os ⟨haw, hos⟩ - hs
    have hnow := now_le_of_step hs
    refine ⟨haw.step hs, fun o ho => ?_⟩
    rcases List.mem_append.1 ho with ho | ho
    · exact (hos o ho).mono hnow
    · obtain ⟨x, hx, rfl⟩ := List.mem_map.1 ho
      obtain ⟨time, hmem⟩ := haw.originates (Option.mem_toList.1 hx)
      exact ⟨time, x.1, x.2, s.now, hmem, hnow, rfl⟩
  exact hinv.2

/-- Where all that a state holds comes from: from `os`, which the events account for. In
particular what is stored as the announcement of a node was announced by this node. -/
structure Net.Genuine (w : Network V) (events : List (Nat × V × Gossip)) (s : Net V)
    (os : List Gossip) : Prop where
  stored : ∀ v kind k T, (s.node v).view kind k = WithBot.some T →
    ∃ o ∈ os, o.identity = (kind, k, T)
  carried : ∀ g, s.UnderWay g ∨ s.Recorded g → ∃ o ∈ os, o.identity = g.identity
  issued : ∀ o ∈ os, w.Issued events s.now o
  announced : ∀ v k, (s.node v).view .nodeAnnouncement k ≠ ⊥ →
    ∃ u, w.topo.id u = k ∧ ∃ time msg, (time, u, msg) ∈ events

/-- Nothing is forged: in every run of every population, whatever a node stores and
whatever is under way or recorded has the kind, key and timestamp of a message that an
origination of the run stamped. -/
theorem nothing_forged (h₀ : init w events = some s₀) (h : run (step w) s₀ ls = some s) :
    s.Genuine w events (stampsAlong w s₀ ls) := by
  have hc := carries_provenance h₀ h
  have hissued := issued_of_stamps h₀ h
  refine ⟨fun v => (hc.fits v).held, fun g hg => hg.elim hc.underWay hc.recorded, hissued, ?_⟩
  intro v k hne
  obtain ⟨T, hT⟩ := WithBot.ne_bot_iff_exists.1 hne
  obtain ⟨o, ho, hi⟩ := (hc.fits v).held _ k T hT.symm
  obtain ⟨hkind, hkey, -⟩ : o.kind = .nodeAnnouncement ∧ o.stateKey = k ∧ o.stamp = T := by
    simpa [Gossip.identity] using hi
  rw [← hkey]
  exact (hissued o ho).announced hkind

/-! ## What the network knows -/

/-- No node stores more than what was stamped. -/
theorem view_le_stamps (h₀ : init w events = some s₀) (h : run (step w) s₀ ls = some s) (v : V) :
    (s.node v).view ≤ joinOf (stampsAlong w s₀ ls) := by
  intro kind k
  cases hT : (s.node v).view kind k with
  | bot => exact bot_le
  | coe T =>
    obtain ⟨o, ho, hi⟩ := (carries_provenance h₀ h).fits v |>.held kind k T hT
    rw [← identity_of_atom hi]
    exact (le_supOf ho : o.atom ≤ _) kind k

omit [DecidableEq V] in
/-- An origination that does not regress teaches the node what it stamps. -/
theorem fire_stamps {mc : ModelCfg V} {peerState : V → NodeState} {msg : Gossip} {now : Nat}
    {n n' : Node} {e : Effects V}
    (h : mc.fire peerState (.originate msg) now n = some (n', e))
    (hr : ¬Regresses n.state mc.base.id msg now) :
    (msg.stamped mc.base.id now).atom ≤ n'.view := by
  obtain ⟨n₀, r, hst, hs, -⟩ := ModelCfg.fire_originate h
  obtain ⟨m, b, sp, -⟩ := stampOriginated_spec hst
  calc (msg.stamped mc.base.id now).atom
    _ = m.atom := stamped_atom sp
    _ ≤ n.state.view ⊔ m.atom := le_sup_right
    _ = n₀.state.view := (sp.view_eq_sup hr).symm
    _ = n'.view := congrArg NodeState.view hs.symm

theorem stamps_le_of_step {l : Label} (hok : Steady w s l) (hs : step w s l = some s') :
    ∀ o ∈ s.stamps w l, ∃ v, o.atom ≤ (s'.node v).view := by
  intro o ho
  obtain ⟨x, hx, rfl⟩ := List.mem_map.1 ho
  have hx := Option.mem_toList.1 hx
  have hreg := hok x hx
  obtain ⟨i, q, rfl, hq, hnode, hev⟩ := Net.of_originates hx
  cases moves_of_step hs with
  | @fire _ q' n e hq' hr _ =>
    obtain rfl : q = q' := Option.some.inj (hq.symm.trans hq')
    rw [hev, hnode] at hr
    refine ⟨x.1, ?_⟩
    rw [← w.id_eq] at hreg ⊢
    rw [Net.node_commit, if_pos hnode.symm]
    exact fire_stamps hr hreg

/-- Every stamp of a run without a regressing origination stays known. -/
theorem stamps_known (h : Steps (step w) (Steady w) s₀ ls s) :
    ∀ o ∈ stampsAlong w s₀ ls, ∃ v, o.atom ≤ (s.node v).view := by
  have hinv : ∀ o ∈ [] ++ stampsAlong w s₀ ls, ∃ v, o.atom ≤ (s.node v).view := by
    refine h.collect_invariant
      (P := fun s (os : List Gossip) => ∀ o ∈ os, ∃ v, o.atom ≤ (s.node v).view) (List.forall_mem_nil _) ?_
    intro s l s' os hos hok hs o ho
    rcases List.mem_append.1 ho with ho | ho
    · obtain ⟨v, hle⟩ := hos o ho
      exact ⟨v, hle.trans ((Network.lossFree hok hs).mono v)⟩
    · exact stamps_le_of_step hok hs o ho
  exact hinv

/-- Between all nodes gossip flows along some path. -/
def Network.AllFlow (w : Network V) : Prop := ∀ u v, Relation.ReflTransGen w.flows u v

/-- Without regressing originations the nodes together store exactly what was stamped; and
where all nodes are joined by paths that gossip flows along, after a calm round in which
every sketch ticker fires and nobody learns anything every node of a settled network stores
exactly this: for each key the newest timestamp that was originated. -/
theorem knowledge_exact (h₀ : init w events = some s₀)
    (h₁ : Steps (step w) (Steady w) s₀ ls s₁) :
    IsLUB (Set.range fun v => (s₁.node v).view) (joinOf (stampsAlong w s₀ ls)) ∧
    ∀ ls' s, Steps (step w) (Calm w) s₁ ls' s → (∀ v, (s.node v).view = (s₁.node v).view) →
      w.AllTick s₁ ls' → s.Settled → w.AllFlow →
      ∀ v, (s.node v).view = joinOf (stampsAlong w s₀ (ls ++ ls')) := by
  constructor
  · refine ⟨?_, fun b hb => supOf_le_iff.2 fun o ho => ?_⟩
    · rintro - ⟨v, rfl⟩
      exact view_le_stamps h₀ h₁.run_eq v
    · obtain ⟨v, hle⟩ := stamps_known h₁ o ho
      exact hle.trans (hb ⟨v, rfl⟩)
  · intro ls' s h₂ hv ht hs hflow v
    have hall := h₁.append (h₂.imp fun _ _ hc => hc.1)
    refine le_antisymm (view_le_stamps h₀ hall.run_eq v) (supOf_le_iff.2 fun o ho => ?_)
    obtain ⟨u, hle⟩ := stamps_known hall o ho
    have hcov := Network.covered h₀ hall
    exact hle.trans (holds_le_of_path (k := fun v => (s.node v).view)
      (fun _ _ hf => view_le_of_flows hcov h₂ hv ht hs hf) (hflow u v))

end Runs

end Provenance

/-! ## Two sketch nodes -/

section Samples

local instance provenanceHash : MsgHash := ⟨List.sum⟩

theorem nothing_forged_pair : ∃ s₀ s, init (sketchPair 16) oneUpdate = some s₀ ∧
    run (step (sketchPair 16)) s₀ exchangeRun = some s ∧
    (s.node 1).view .channelUpdate 14 = WithBot.some 1 ∧
    s.Genuine (sketchPair 16) oneUpdate (stampsAlong (sketchPair 16) s₀ exchangeRun) := by
  have hrun : ((init (sketchPair 16) oneUpdate).bind fun s =>
      run (step (sketchPair 16)) s exchangeRun).any (fun s =>
        decide ((s.node 1).view .channelUpdate 14 = WithBot.some 1)) = true := by
    decide +kernel
  obtain ⟨s, hs, hheld⟩ := (Option.any_eq_true _ _).1 hrun
  obtain ⟨s₀, h₀, hs⟩ := Option.bind_eq_some_iff.1 hs
  exact ⟨s₀, s, h₀, hs, of_decide_eq_true hheld, nothing_forged h₀ hs⟩

/-- Both nodes end up with the one stamp of the run. -/
theorem knowledge_exact_pair : ∃ s₀ s₁ s, init (sketchPair 16) oneUpdate = some s₀ ∧
    Steps (step (sketchPair 16)) (Steady (sketchPair 16)) s₀ exchangeRun s₁ ∧
    Steps (step (sketchPair 16)) (Calm (sketchPair 16)) s₁ (tickRun (21 * 10 ^ 8)) s ∧
    (s.node 1).view .channelUpdate 14 = WithBot.some 1 ∧
    IsLUB (Set.range fun v => (s₁.node v).view)
      (joinOf (stampsAlong (sketchPair 16) s₀ exchangeRun)) ∧
    ∀ v, (s.node v).view =
      joinOf (stampsAlong (sketchPair 16) s₀ (exchangeRun ++ tickRun (21 * 10 ^ 8))) := by
  have hrun : (((init (sketchPair 16) oneUpdate).bind fun s =>
      runOk (step (sketchPair 16)) (Steady (sketchPair 16)) s exchangeRun).any fun s₁ =>
        decide ((sketchPair 16).AllTick s₁ (tickRun (21 * 10 ^ 8))) &&
        (runOk (step (sketchPair 16)) (Calm (sketchPair 16)) s₁ (tickRun (21 * 10 ^ 8))).any fun s =>
          decide s.Settled && decide (∀ v, (s.node v).state = (s₁.node v).state) &&
          decide ((s.node 1).view .channelUpdate 14 = WithBot.some 1)) = true := by
    decide +kernel
  obtain ⟨s₁, hs₁, hc⟩ := (Option.any_eq_true _ _).1 hrun
  obtain ⟨s₀, h₀, hs₁⟩ := Option.bind_eq_some_iff.1 hs₁
  simp only [Bool.and_eq_true, decide_eq_true_eq, Option.any_eq_true] at hc
  obtain ⟨htick, s, hs, ⟨hset, hsame⟩, hheld⟩ := hc
  have h₁ := steps_of_runOk hs₁
  have h₂ := steps_of_runOk hs
  have hflow : (sketchPair 16).AllFlow := by
    intro u v
    rcases eq_or_ne u v with rfl | huv
    · exact .refl
    · exact .single ⟨List.mem_singleton.2 (by revert u v; decide), fun _ => rfl⟩
  obtain ⟨hlub, hexact⟩ := knowledge_exact h₀ h₁
  exact ⟨s₀, s₁, s, h₀, h₁, h₂, hheld, hlub,
    hexact _ s h₂ (fun v => congrArg NodeState.view (hsame v)) htick hset hflow⟩

end Samples

end LnConv
