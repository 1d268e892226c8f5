import LnConv.NoLoss

/-!
# Mixed populations

Cln and Lnd nodes push to every peer; a sketch node only answers the sketches of
its peers. So gossip flows along an edge unless it leads from a sketch node to a
node that sends no sketches. `Served` follows one sketch to its receiver and its
reply back; after a round in which every ticker fires and nobody learns anything,
nothing is left to flow.
-/

namespace LnConv

variable {V : Type} [DecidableEq V]

/-! ## Rounds -/

/-- Gossip flows from `u` to `v`. -/
def Network.flows (w : Network V) (u v : V) : Prop :=
  w.edge u v ∧ ((w.model u).isSketch = true → (w.model v).isSketch = true)

/-- The ticker a label fires, if any. -/
def Net.ticks (s : Net V) : Label → Option (V × Nat)
  | .fire i => match s.queue[i]? with
    | some ⟨_, u, .tickForPeer p, _⟩ => some (u, p)
    | _ => none
  | _ => none

/-- The sketch a label handles, if any. -/
def Net.handles (s : Net V) : Label → Option (V × Sketch)
  | .fire i => match s.queue[i]? with
    | some ⟨_, u, .handleSketch sk, _⟩ => some (u, sk)
    | _ => none
  | _ => none

omit [DecidableEq V] in
theorem handles_fire {s : Net V} {i : Nat} {q : Sched V} {sk : Sketch} (hq : s.queue[i]? = some q)
    (he : q.ev = .handleSketch sk) : s.handles (.fire i) = some (q.node, sk) := by
  obtain ⟨t, u, ev, p⟩ := q
  subst he
  simp [Net.handles, hq]

omit [DecidableEq V] in
theorem of_ticks {s : Net V} {l : Label} {u : V} {p : Nat} (h : s.ticks l = some (u, p)) :
    ∃ i q, l = .fire i ∧ s.queue[i]? = some q ∧ q.node = u ∧ q.ev = .tickForPeer p := by
  unfold Net.ticks at h
  split at h
  · next i =>
    split at h
    · next t u' p' per hq => cases h; exact ⟨i, _, rfl, hq, rfl, rfl⟩
    · cases h
  · cases h

section Rounds

variable [MsgHash]

omit [DecidableEq V] in
/-- The symmetric difference with the sender exceeds the capacity of the sketch. -/
def SketchNode.overflows (c : SketchCfg V) (peerState : V → NodeState) (sk : Sketch) (n : Node) :
    Bool :=
  (c.peers.peerIdToLocal.lookup sk.fromId).any fun loc => c.peers.outputs[loc]?.any fun out =>
    let diff := computeDiff (peerState out) n.state sk.kind (diffSide c)
    decide (sk.capacity < diff.aOnlyCount + diff.bOnlyCount)

def Network.overflows (w : Network V) (s : Net V) (l : Label) : Bool :=
  (s.handles l).any fun x => match w.model x.1 with
    | .sketch c => SketchNode.overflows c s.states x.2 (s.node x.1)
    | _ => false

/-- No origination regresses and no sketch overflows. -/
def Calm (w : Network V) (s : Net V) (l : Label) : Prop :=
  Steady w s l ∧ w.overflows s l = false

instance (w : Network V) (s : Net V) (l : Label) : Decidable (Calm w s l) :=
  inferInstanceAs (Decidable (_ ∧ _))

/-- The tickers that fire along a run. -/
def ticksAlong (w : Network V) : Net V → List Label → List (V × Nat)
  | _, [] => []
  | s, l :: ls => (s.ticks l).toList ++ ((step w s l).elim [] fun s' => ticksAlong w s' ls)

/-- Every ticker of every sketch node fires. -/
def Network.AllTick (w : Network V) (s : Net V) (ls : List Label) : Prop :=
  ∀ v, (w.model v).isSketch = true → ∀ i < (w.model v).base.peers.outputs.length,
    (v, i) ∈ ticksAlong w s ls

end Rounds

/-- The sketch an event is to handle. -/
def Ev.sketch? : Ev → Option Sketch
  | .handleSketch sk => some sk
  | _ => none

/-- Nothing under way and no sketch waits to be handled. -/
def Net.Settled (s : Net V) : Prop := s.Quiet ∧ ∀ q ∈ s.queue, q.ev.sketch? = none

/-! ## One sketch and its reply -/

/-- A sketch of `a` is on its way to `b`, waits there, or was answered: `a` holds
or is owed all that `b` holds. -/
inductive Served (w : Network V) (s : Net V) (a b : V) (kind : SketchKind) : Prop where
  | sent {p : Packet V} {sk : Sketch} : p ∈ s.flight → p.dst = b → p.wire = .sketch sk →
      sk.fromId = w.topo.id a → sk.kind = kind → Served w s a b kind
  | received {q : Sched V} {sk : Sketch} : q ∈ s.queue → q.node = b → q.ev = .handleSketch sk →
      sk.fromId = w.topo.id a → sk.kind = kind → Served w s a b kind
  | answered : (s.node b).view kind.toGossip ≤
      ((s.node a).view ⊔ joinOf (s.owed b a)) kind.toGossip → Served w s a b kind

theorem Served.view_le {w : Network V} {s : Net V} {a b : V} {kind : SketchKind}
    (h : Served w s a b kind) (hs : s.Settled) :
    (s.node b).view kind.toGossip ≤ (s.node a).view kind.toGossip := by
  cases h with
  | sent hp => simp [hs.1.2.1] at hp
  | received hq _ hev => have := hs.2 _ hq; rw [hev] at this; cases this
  | answered h => simpa [hs.1.owed_eq] using h

section Steps

variable [MsgHash] {w : Network V} {s s' : Net V} {l : Label} {a b : V} {ca cb : SketchCfg V}
  {kind : SketchKind}

/-- A step that teaches nobody anything keeps a sketch on its way to an answer. -/
theorem Served.step (h : Served w s a b kind) (hb : w.model b = .sketch cb) (hab : w.edge a b)
    (hc : Calm w s l) (hs : LnConv.step w s l = some s')
    (hv : ∀ v, (s'.node v).view = (s.node v).view) : Served w s' a b kind := by
  cases h with
  | answered h =>
    refine .answered ?_
    have hk : joinOf (s.owed b a) ≤ (s'.node a).view ⊔ joinOf (s'.owed b a) :=
      (Network.lossFree hc.1 hs).kept b a (w.edge_symm hab)
    have hk : (s.node a).view ⊔ joinOf (s.owed b a) ≤ (s'.node a).view ⊔ joinOf (s'.owed b a) :=
      sup_le (hv a ▸ le_sup_left) hk
    exact hv b ▸ h.trans (hk kind.toGossip)
  | @sent p sk hp hd hw hf hk =>
    cases moves_of_step hs with
    | advance _ => exact .sent hp hd hw hf hk
    | fire _ _ _ => exact .sent (List.mem_append_left _ hp) hd hw hf hk
    | @deliver i p' n e hp' hr _ =>
      rcases mem_or_mem_eraseIdx hp' hp with rfl | hp
      · obtain ⟨src, dst, wire⟩ := p
        dsimp only at hd hw hr
        subst hd hw
        rw [hb] at hr
        cases hr
        exact .received (List.mem_append_right _ (List.mem_singleton.2 rfl)) rfl rfl hf hk
      · exact .sent (List.mem_append_left _ hp) hd hw hf hk
  | @received q sk hq hn hev hf hk =>
    cases moves_of_step hs with
    | advance _ => exact .received hq hn hev hf hk
    | deliver _ _ _ => exact .received (List.mem_append_left _ hq) hn hev hf hk
    | @fire i q' n e hq' hr _ =>
      rcases mem_or_mem_eraseIdx hq' hq with rfl | hq
      · have hfit := hc.2
        rw [Network.overflows, handles_fire hq' hev, Option.any_some] at hfit
        obtain ⟨t, u, ev, per⟩ := q
        dsimp only at hn hev hr hfit hv
        subst hn hev hk
        obtain ⟨loc, hl, ho⟩ := w.lookup_peer (w.edge_symm hab)
        rw [hb] at hr hfit hl ho
        rw [← hf] at hl
        change cb.peers.peerIdToLocal.lookup sk.fromId = some loc at hl
        change cb.peers.outputs[loc]? = some a at ho
        simp only [SketchNode.overflows, hl, ho, Option.any_some, decide_eq_false_iff_not,
          not_lt] at hfit
        obtain ⟨n', e', hans, hsends⟩ := SketchNode.handleSketch_answers rfl hl ho hfit s.now
        change SketchNode.handleSketch cb s.states sk s.now (s.node u) = some (n, e) at hr
        rw [hr] at hans
        cases hans
        have hnew := newerList_bNewer (s.states a) (s.node u).state sk.kind
          (SketchNode.wantB_diffSide cb)
        have hle : (s.node u).view sk.kind.toGossip ≤ (s.node a).view sk.kind.toGossip ⊔
            joinOf _ sk.kind.toGossip := hnew.le_sup
        refine .answered ?_
        rw [hv, hv]
        refine hle.trans (sup_le_sup_left (joinOf_mono (fun g hg => ?_) sk.kind.toGossip) _)
        exact Net.dues_subset_owed _ _ _ _ _ (List.mem_append_right _
          (SketchNode.mem_sentTo_sendGossips hsends hg))
      · exact .received (List.mem_append_left _ (List.mem_append_left _ hq)) hn hev hf hk

/-- A ticker sends off the sketches of all kinds. -/
theorem served_of_tick {p : Nat} (ha : w.model a = .sketch ca) (ho : ca.peers.outputs[p]? = some b)
    (ht : s.ticks l = some (a, p)) (hs : step w s l = some s') : Served w s' a b kind := by
  obtain ⟨i, q, rfl, hq, hn, hev⟩ := of_ticks ht
  cases moves_of_step hs with
  | @fire _ q' n e hq' hr _ =>
    rw [hq] at hq'
    cases hq'
    obtain ⟨t, u, ev, per⟩ := q
    dsimp only at hn hev hr
    subst hn hev
    rw [ha] at hr
    obtain ⟨sk, hmem, hf, hk⟩ := SketchNode.tickForPeer_sends hr ho kind
    refine .sent (List.mem_append_right _ (List.mem_map_of_mem hmem)) rfl rfl ?_ hk
    rw [hf, ← w.id_eq, ha]
    rfl

theorem view_le_of_steps {ls : List Label} (h : Steps (step w) (Steady w) s ls s') (v : V) :
    (s.node v).view ≤ (s'.node v).view :=
  h.invariant (P := fun t => (s.node v).view ≤ (t.node v).view) le_rfl
    fun _ _ _ hle hok hs => hle.trans ((Network.lossFree hok hs).mono v)

/-- After a calm round in which nobody learnt anything, the sketch of a ticker
that fired is under way or answered. -/
theorem Served.round {p : Nat} {ls : List Label} (h : Steps (LnConv.step w) (Calm w) s ls s')
    (ha : w.model a = .sketch ca) (hb : w.model b = .sketch cb) (hab : w.edge a b)
    (ho : ca.peers.outputs[p]? = some b) (hv : ∀ v, (s'.node v).view = (s.node v).view)
    (ht : Served w s a b kind ∨ (a, p) ∈ ticksAlong w s ls) : Served w s' a b kind := by
  induction h with
  | nil => simpa [ticksAlong] using ht
  | @cons s t s' l ls hc hs hrest ih =>
    have hmono := view_le_of_steps (hrest.imp fun _ _ hc => hc.1)
    have hst : ∀ v, (t.node v).view = (s.node v).view := fun v =>
      le_antisymm ((hmono v).trans (hv v).le) ((Network.lossFree hc.1 hs).mono v)
    apply ih (fun v => (hv v).trans (hst v).symm)
    rcases ht with hserved | ht
    · exact .inl (hserved.step hb hab hc hs hst)
    · rw [ticksAlong, hs, List.mem_append, Option.mem_toList] at ht
      exact ht.imp (fun h => served_of_tick ha ho h hs) id

/-! ## The result -/

/-- Across an edge that gossip flows along, a settled network has nothing to teach. -/
theorem view_le_of_flows {ls : List Label} (hcov : Covered w.edge w.pushes s'.pushState)
    (h : Steps (step w) (Calm w) s ls s') (hv : ∀ v, (s'.node v).view = (s.node v).view)
    (ht : w.AllTick s ls) (hs : s'.Settled) {u v : V} (hf : w.flows u v) :
    (s'.node u).view ≤ (s'.node v).view := by
  cases hu : (w.model u).isSketch with
  | false => exact Network.view_le_of_edge hcov hs.1 hf.1 hu
  | true =>
    obtain ⟨cu, hcu⟩ := ModelCfg.sketch_of_isSketch hu
    obtain ⟨cv, hcv⟩ := ModelCfg.sketch_of_isSketch (hf.2 hu)
    obtain ⟨i, -, ho⟩ := w.lookup_peer (w.edge_symm hf.1)
    have hi := ht v (hf.2 hu) i (List.getElem?_eq_some_iff.1 ho).1
    rw [hcv] at ho
    intro kind
    rw [← SketchKind.toGossip_fromGossip kind]
    exact (Served.round h hcv hcu (w.edge_symm hf.1) ho hv (.inr hi)).view_le hs

/-- After a calm round in which every sketch ticker fires and nobody learns
anything, a settled network has nothing left to flow: along every path that
gossip flows knowledge only grows, and nodes that reach each other agree. -/
theorem settled_agree {events : List (Nat × V × Gossip)} {s₀ s₁ s₂ : Net V} {ls₁ ls₂ : List Label}
    (h₀ : init w events = some s₀) (h₁ : Steps (step w) (Steady w) s₀ ls₁ s₁)
    (h₂ : Steps (step w) (Calm w) s₁ ls₂ s₂) (hv : ∀ v, (s₂.node v).view = (s₁.node v).view)
    (ht : w.AllTick s₁ ls₂) (hs : s₂.Settled) (u v : V) (huv : Relation.ReflTransGen w.flows u v) :
    (s₂.node u).view ≤ (s₂.node v).view ∧
      (Relation.ReflTransGen w.flows v u → (s₂.node u).view = (s₂.node v).view) := by
  have hcov := Network.covered h₀ (h₁.append (h₂.imp fun _ _ hc => hc.1))
  have hle : ∀ x y, w.flows x y → (s₂.node x).view ≤ (s₂.node y).view :=
    fun _ _ hf => view_le_of_flows hcov h₂ hv ht hs hf
  have hpath : ∀ {x y}, Relation.ReflTransGen w.flows x y → (s₂.node x).view ≤ (s₂.node y).view :=
    fun hp => holds_le_of_path (k := fun v => (s₂.node v).view) hle hp
  exact ⟨hpath huv, fun hvu => le_antisymm (hpath huv) (hpath hvu)⟩

end Steps

/-! ## Where nothing flows -/

section Samples

local instance mixedHash : MsgHash := ⟨List.sum⟩

instance {n : Nat} (s : Net (Fin n)) : Decidable s.Quiet := inferInstanceAs (Decidable (_ ∧ _ ∧ _))

instance {n : Nat} (s : Net (Fin n)) : Decidable s.Settled := inferInstanceAs (Decidable (_ ∧ _))

instance {n : Nat} (w : Network (Fin n)) (s : Net (Fin n)) (ls : List Label) :
    Decidable (w.AllTick s ls) := inferInstanceAs (Decidable (∀ _, _))

/-- Node 0 originates an update after one second. -/
def oneUpdate : List (Nat × Fin 2 × Gossip) := [(10 ^ 9, 0, sampleUpdate)]

/-- Up to the origination. -/
def learnRun : List Label :=
  [.advance (10 ^ 8), .fire 0, .deliver 0, .deliver 0, .deliver 0, .fire 1, .advance (10 ^ 9), .fire 2]

/-- The tickers of the following second. -/
def calmRun : List Label :=
  [.advance (11 * 10 ^ 8), .fire 2, .deliver 0, .deliver 0, .deliver 0, .fire 2]

theorem calm_checked :
    (((init mixedPair oneUpdate).bind fun s => run (tstep mixedPair) s learnRun).any fun s₁ =>
      decide s₁.Settled && decide (mixedPair.AllTick s₁ calmRun) &&
      (runOk (tstep mixedPair) (Calm mixedPair) s₁ calmRun).any fun s₂ =>
        decide s₂.Settled && decide (∀ v, (s₂.node v).state = (s₁.node v).state) &&
        decide ((s₂.node 0).view .channelUpdate 14 ≠
          (s₂.node 1).view .channelUpdate 14)) = true := by
  decide +kernel

/-- The Cln neighbour of a sketch node ignores its sketches and never learns. -/
theorem sketch_teaches_no_cln : ∃ s₀ s₁ s₂, (∀ u v, Relation.ReflTransGen mixedPair.edge u v) ∧
    init mixedPair oneUpdate = some s₀ ∧ run (tstep mixedPair) s₀ learnRun = some s₁ ∧
    s₁.Settled ∧ Steps (tstep mixedPair) (Calm mixedPair) s₁ calmRun s₂ ∧
    mixedPair.AllTick s₁ calmRun ∧ s₂.Settled ∧ (∀ v, (s₂.node v).state = (s₁.node v).state) ∧
    (s₂.node 0).view ≠ (s₂.node 1).view := by
  obtain ⟨s₁, hs₁, hc⟩ := (Option.any_eq_true _ _).1 calm_checked
  obtain ⟨s₀, h₀, hs₁⟩ := Option.bind_eq_some_iff.1 hs₁
  simp only [Bool.and_eq_true, decide_eq_true_eq, Option.any_eq_true] at hc
  obtain ⟨⟨hset, htick⟩, s₂, hs₂, ⟨hset₂, hsame⟩, hne⟩ := hc
  refine ⟨s₀, s₁, s₂, fun u v => ?_, h₀, hs₁, hset, steps_of_runOk hs₂, htick, hset₂, hsame,
    fun he => hne (by rw [he])⟩
  rcases eq_or_ne u v with rfl | huv
  · exact .refl
  · exact .single (List.mem_singleton.2 (by revert u v; decide))

/-- One second of two sketch nodes: both tick at `t` and handle what they get. -/
def tickRun (t : Nat) : List Label :=
  [.advance t, .fire 2, .fire 2] ++ List.replicate 6 (.deliver 0) ++ [.advance (t + 10 ^ 6)] ++
    List.replicate 6 (.fire 4)

/-- The update of node 0 is found by a sketch each way, delivered and requested. -/
def exchangeRun : List Label :=
  [.advance (10 ^ 8), .fire 0, .fire 1] ++ List.replicate 6 (.deliver 0) ++
    [.advance (101 * 10 ^ 6)] ++ List.replicate 6 (.fire 5) ++ [.advance (10 ^ 9), .fire 2] ++
    tickRun (11 * 10 ^ 8) ++ [.deliver 0, .deliver 0, .advance (1102 * 10 ^ 6), .fire 4, .deliver 0]

def plainLnd {V : Type} (c : NodeCfg V) : LndCfg V :=
  { c with
    stagger := 10 ^ 9
    firstTick := 10 ^ 8
    trickle := 10 ^ 8
    minBatchSize := 1
    minBatchSize_pos := Nat.one_pos }

/-- Two sketch nodes, a Cln node and an Lnd node in a line. -/
def mixedLine : Network (Fin 4) :=
  .build (.ofNeighbors 4 ![[1], [0, 2], [1, 3], [2]] (by decide)) (10 * 10 ^ 9) 0 (fun _ => 0)
    (fun v c =>
      if v.val ≤ 1 then .sketch (plainSketch c 16)
      else if v = 2 then .cln (plainCln c)
      else .lnd (plainLnd c))
    (fun v c => by split_ifs <;> rfl)

/-- The Lnd node originates an update after one second. -/
def lineUpdate : List (Nat × Fin 4 × Gossip) := [(10 ^ 9, 3, sampleUpdate)]

/-- A second: all tick at `t`, and the sketches are handled. -/
def lineRound (t messages : Nat) : List Label :=
  .advance t :: List.replicate 5 (.fire 4) ++ List.replicate messages (.deliver 0) ++
    .advance (t + 10 ^ 6) :: List.replicate 6 (.fire 9)

/-- The update is pushed to node 1 in two ticks, and found there by the sketch of node 0. -/
def lineRun : List Label :=
  [.advance (10 ^ 8), .fire 0, .fire 1, .fire 1, .fire 2, .fire 3] ++ List.replicate 9 (.deliver 0) ++
    .advance (101 * 10 ^ 6) :: List.replicate 6 (.fire 10) ++ [.advance (10 ^ 9), .fire 4] ++
    lineRound (11 * 10 ^ 8) 10 ++ lineRound (21 * 10 ^ 8) 11 ++
    [.deliver 0, .deliver 0, .advance (2102 * 10 ^ 6), .fire 9, .deliver 0]

def lineCalm : List Label := lineRound (31 * 10 ^ 8) 9

/-- From the Lnd node the update flows to all; back from the sketch nodes nothing would. -/
theorem settled_agree_line : ∃ s₀ s₁ s₂, init mixedLine lineUpdate = some s₀ ∧
    Steps (step mixedLine) (Steady mixedLine) s₀ lineRun s₁ ∧
    Steps (step mixedLine) (Calm mixedLine) s₁ lineCalm s₂ ∧
    (s₂.node 0).view .channelUpdate 14 = WithBot.some 1 ∧
    (s₂.node 3).view ≤ (s₂.node 0).view ∧ (s₂.node 0).view = (s₂.node 1).view ∧
    (s₂.node 2).view = (s₂.node 3).view := by
  have hrun : (((init mixedLine lineUpdate).bind fun s =>
      runOk (step mixedLine) (Steady mixedLine) s lineRun).any fun s₁ =>
        decide (mixedLine.AllTick s₁ lineCalm) &&
        (runOk (step mixedLine) (Calm mixedLine) s₁ lineCalm).any fun s₂ =>
          decide s₂.Settled && decide (∀ v, (s₂.node v).state = (s₁.node v).state) &&
          decide ((s₂.node 0).view .channelUpdate 14 = WithBot.some 1)) = true := by
    decide +kernel
  obtain ⟨s₁, hs₁, hc⟩ := (Option.any_eq_true _ _).1 hrun
  obtain ⟨s₀, h₀, hs₁⟩ := Option.bind_eq_some_iff.1 hs₁
  simp only [Bool.and_eq_true, decide_eq_true_eq, Option.any_eq_true] at hc
  obtain ⟨htick, s₂, hs₂, ⟨hset, hsame⟩, hheld⟩ := hc
  have h₁ := steps_of_runOk hs₁
  have h₂ := steps_of_runOk hs₂
  have hflow : ∀ u v : Fin 4, v ∈ mixedLine.topo.neighbors u →
      ((mixedLine.model u).isSketch = true → (mixedLine.model v).isSketch = true) →
      Relation.ReflTransGen mixedLine.flows u v := fun u v hedge hkind => .single ⟨hedge, hkind⟩
  have h32 := hflow 3 2 (by decide) (by decide)
  have h10 := hflow 1 0 (by decide) (by decide)
  have h30 := (h32.trans (hflow 2 1 (by decide) (by decide))).trans h10
  have hsame' : ∀ v, (s₂.node v).view = (s₁.node v).view := fun v =>
    congrArg NodeState.view (hsame v)
  exact ⟨s₀, s₁, s₂, h₀, h₁, h₂, hheld, (settled_agree h₀ h₁ h₂ hsame' htick hset 3 0 h30).1,
    (settled_agree h₀ h₁ h₂ hsame' htick hset 0 1 (hflow 0 1 (by decide) (by decide))).2 h10,
    (settled_agree h₀ h₁ h₂ hsame' htick hset 2 3 (hflow 2 3 (by decide) (by decide))).2 h32⟩

end Samples

end LnConv
