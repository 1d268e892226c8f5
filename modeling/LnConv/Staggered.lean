import LnConv.Net
import LnConv.Node.Run

/-!
# Staggered queues

Cln and Lnd nodes keep what they accept in a queue until a tick. Nothing is lost or doubled on
the way out. An Lnd node sizes its chunks so that they are to fit the stagger window, and puts
what it originated first; both depend on how many chunks a tick gets.
-/

namespace LnConv

variable {V : Type}

/-- The kinds with a pending queue. -/
def ModelCfg.isStaggered : ModelCfg V → Bool
  | cln _ | lnd _ => true
  | flooding _ | sketch _ => false

/-- The batches that a tick cuts. -/
def ModelCfg.cut (pending : List Gossip) : ModelCfg V → List GossipBatch
  | cln _ => if pending.isEmpty then [] else [.fromMixed pending]
  | lnd c => LndNode.cut c pending
  | flooding _ | sketch _ => []

/-- A tick empties the queue, issues the first of its batches and schedules the others; together
they hold the queue, and each kind in its order. -/
structure CutsQueue (mc : ModelCfg V) (issued : List WireMessage) (n n' : Node) (e : Effects V) :
    Prop where
  emptied : n'.pending = []
  issued : issued = ((mc.cut n.pending).take 1).map .batch
  scheduled : e.schedules.map (·.2) = ((mc.cut n.pending).drop 1).map .sendBatch
  order : ∀ kind, (mc.cut n.pending).flatMap (·.ofKind kind) = n.pending.filter (·.kind = kind)

theorem LndNode.ofKind_cut {c : LndCfg V} {pending : List Gossip} {sub : Nat} (hpos : 0 < sub)
    (hsub : calculateSubBatchSize c.stagger c.trickle c.minBatchSize pending.length = some sub)
    (kind : GossipKind) :
    (cut c pending).flatMap (·.ofKind kind) = pending.filter (·.kind = kind) := by
  have hmap : ∀ l : List (List Gossip), (l.map GossipBatch.fromMixed).flatMap (·.ofKind kind) =
      l.flatten.filter (·.kind = kind) := by
    intro l
    induction l with
    | nil => rfl
    | cons chunk l ih =>
      rw [List.map_cons, List.flatMap_cons, List.flatten_cons, List.filter_append, ih,
        GossipBatch.ofKind_fromMixed]
  unfold cut
  rw [hsub, hmap, flatten_chunks pending hpos]

theorem tick_cutsQueue [MsgHash] {mc : ModelCfg V} {peerState : V → NodeState} {now : Nat}
    {n n' : Node} {e : Effects V} (hmc : mc.isStaggered = true)
    (h : mc.fire peerState .tick now n = some (n', e)) :
    CutsQueue mc (mc.issued .tick now n) n n' e := by
  cases mc with
  | flooding c => cases hmc
  | sketch c => cases hmc
  | cln c =>
    simp only [ModelCfg.fire, ClnNode.tick] at h
    split at h
    · next hnil =>
      cases h
      have hnil' := List.isEmpty_iff.1 hnil
      constructor
      · exact hnil'
      all_goals simp [ModelCfg.issued, ModelCfg.cut, hnil']
    · next hne =>
      cases h
      constructor
      · rfl
      all_goals simp [ModelCfg.issued, ModelCfg.cut, hne, GossipBatch.ofKind_fromMixed]
  | lnd c =>
    rcases LndNode.tick_cut h with
      ⟨hnil, rfl, rfl⟩ | ⟨hne, sub, first, rest, hsub, hpos, hcut, rfl, rfl⟩
    · constructor
      · exact hnil
      all_goals simp [ModelCfg.issued, ModelCfg.cut, hnil]
    · refine ⟨rfl, rfl, ?_, LndNode.ofKind_cut hpos hsub⟩
      show (rest.mapIdx fun i b => (c.trickle * ((i + 1) % 2 ^ 32), Ev.sendBatch b)).map (·.2) =
        ((LndNode.cut c n.pending).drop 1).map .sendBatch
      rw [hcut, events_mapIdx]
      rfl

/-- In every state of every run of a Cln or Lnd node, each gossip it accepted is once in the queue,
in a scheduled batch or broadcast, and a tick cuts the queue. -/
theorem queue_conserved [MsgHash] {mc : ModelCfg V} (hmc : mc.isStaggered = true)
    {ops : List (NodeOp V)} {s : NodeRun V}
    (h : run (NodeRun.step mc) { node := mc.initial } ops = some s) :
    s.Conserved mc ∧ ∀ peerState now n e, mc.fire peerState .tick now s.node = some (n, e) →
      CutsQueue mc (mc.issued .tick now s.node) s.node n e := by
  refine ⟨?_, fun _ _ _ _ => tick_cutsQueue hmc⟩
  cases mc with
  | flooding c => cases hmc
  | sketch c => cases hmc
  | cln c | lnd c => exact NodeRun.conserved_run rfl (.start rfl rfl) h

section Sample

/-- Hashes for runs on fixed inputs. -/
local instance queueHash : MsgHash := ⟨List.sum⟩

/-- Node 0 of two nodes, as an Lnd node. -/
def lndNode (stagger trickle minBatchSize : Nat) (h : 1 ≤ minBatchSize) : LndCfg (Fin 2) :=
  { ((floodPair (10 * 10 ^ 9)).model 0).base with
    stagger
    firstTick := 10 ^ 8
    trickle
    minBatchSize
    minBatchSize_pos := h }

def updateFor (scid : Scid) : Gossip := { sampleUpdate with scid := some scid }

/-- Two originations and a message between them, a tick, and the first batch it scheduled. -/
def queueOps : List (NodeOp (Fin 2)) :=
  [.fire (.originate (updateFor 7)) (fun _ => .new 1) 0, .recv (.single (updateFor 8)) 1,
    .fire (.originate (updateFor 9)) (fun _ => .new 1) 2, .fire .tick (fun _ => .new 1) (10 ^ 8),
    .due 0 (fun _ => .new 1) (5 * 10 ^ 9)]

def queueNode : ModelCfg (Fin 2) := .lnd (lndNode (90 * 10 ^ 9) (5 * 10 ^ 9) 1 le_rfl)

def queueStart : NodeRun (Fin 2) := { node := queueNode.initial }

/-- Node 1 of three nodes in a line, as a Cln node. -/
def clnNode : ModelCfg (Fin 3) :=
  .cln { ((floodLine (10 * 10 ^ 9)).model 1).base with stagger := 60 * 10 ^ 9, firstTick := 10 ^ 8 }

/-- An origination, a message, and a tick. -/
def clnOps : List (NodeOp (Fin 3)) :=
  [.fire (.originate (updateFor 7)) (fun _ => .new 1) 0, .recv (.single (updateFor 8)) 1,
    .fire .tick (fun _ => .new 1) (10 ^ 8)]

/-- To whom a node sent, and the channels of the gossips. -/
def NodeRun.sentScids (s : NodeRun V) : List (V × List (Option Scid)) :=
  s.sent.map fun x => (x.1, x.2.gossips.map (·.scid))

/-- Each batch of the Lnd node goes to its peer. The Cln node sends what it originated at once, and
what it received with the tick, to both of its peers. -/
theorem queue_conserved_sample :
    (∃ s, run (NodeRun.step queueNode) queueStart queueOps = some s ∧
      s.accepted.card = 3 ∧ s.scheduled.length = 1 ∧ s.sentScids = [(1, [some 9]), (1, [some 7])] ∧
      s.Conserved queueNode) ∧
    ∃ s, run (NodeRun.step clnNode) { node := clnNode.initial } clnOps = some s ∧
      s.accepted.card = 2 ∧
      s.sentScids = [(0, [some 7]), (2, [some 7]), (0, [some 8]), (2, [some 8])] ∧
      s.Conserved clnNode := by
  have hlnd : ((run (NodeRun.step queueNode) queueStart queueOps).any fun s =>
      s.accepted.card = 3 ∧ s.scheduled.length = 1 ∧
        s.sentScids = [(1, [some 9]), (1, [some 7])]) = true := by decide +kernel
  have hcln : ((run (NodeRun.step clnNode) { node := clnNode.initial } clnOps).any fun s =>
      s.accepted.card = 2 ∧
        s.sentScids = [(0, [some 7]), (2, [some 7]), (0, [some 8]), (2, [some 8])]) = true := by
    decide +kernel
  constructor
  · obtain ⟨s, hs, hp⟩ := (Option.any_eq_true _ _).1 hlnd
    obtain ⟨hcard, hsched, hsent⟩ := of_decide_eq_true hp
    exact ⟨s, hs, hcard, hsched, hsent, (queue_conserved rfl hs).1⟩
  · obtain ⟨s, hs, hp⟩ := (Option.any_eq_true _ _).1 hcln
    obtain ⟨hcard, hsent⟩ := of_decide_eq_true hp
    exact ⟨s, hs, hcard, hsent, (queue_conserved rfl hs).1⟩

end Sample

/-! ## Chunks in the stagger window -/

theorem length_chunksGo_le {α : Type} {size fuel : Nat} (hs : 0 < size) (l : List α) :
    (chunksGo size fuel l).length ≤ (l.length + size - 1) / size := by
  induction fuel generalizing l with
  | zero => exact Nat.zero_le _
  | succ fuel ih =>
    unfold chunksGo
    split
    · exact Nat.zero_le _
    next hne =>
    have hlen : 0 < l.length := List.length_pos_iff.2 fun hn => hne (List.isEmpty_iff.2 hn)
    have hdrop := ih (l.drop size)
    rw [List.length_drop] at hdrop
    rw [List.length_cons]
    rcases le_or_gt size l.length with hle | hlt
    · have heq : l.length + size - 1 = (l.length - size + size - 1) + size := by omega
      rw [heq, Nat.add_div_right _ hs]
      omega
    · have hzero : (l.length - size + size - 1) / size = 0 := Nat.div_eq_of_lt (by omega)
      have hone : 1 ≤ (l.length + size - 1) / size := (Nat.le_div_iff_mul_le hs).2 (by omega)
      omega

/-- So many chunks fit `q` slots exactly if their size times `q` covers the batch. -/
theorem ceil_div_le_iff {batch chunk q : Nat} (hc : 0 < chunk) :
    (batch + chunk - 1) / chunk ≤ q ↔ batch ≤ q * chunk := by
  rw [← Nat.lt_succ_iff, Nat.div_lt_iff_lt_mul hc, Nat.succ_mul]
  omega

theorem lt_ceil_div_iff {a y total : Nat} (ht : 0 < total) :
    a < (y + (total - 1)) / total ↔ total * a < y := by
  have h := Nat.le_div_iff_mul_le ht (x := a + 1) (y := y + (total - 1))
  rw [Nat.succ_mul, Nat.mul_comm] at h
  omega

namespace LndNode

/-- What the sub-batch size is for: it is found and at least the minimum, so many chunks take no
longer than the stagger, and a tick sends its last chunk before the next tick. -/
structure ChunksFit (c : LndCfg V) (batchSize : Nat) : Prop where
  sized : ∃ chunk, calculateSubBatchSize c.stagger c.trickle c.minBatchSize batchSize = some chunk ∧
    c.minBatchSize ≤ chunk ∧ (batchSize + chunk - 1) / chunk * c.trickle ≤ c.stagger
  inTime : ∀ (n n' : Node) (e : Effects V), n.pending.length = batchSize →
    tick c n = some (n', e) → ∀ x ∈ e.schedules, x.1 < c.stagger

/-- The stagger has a whole second, and its trickles are enough for chunks of the minimal size, or
the batch is long enough to make up for the fractions that whole seconds cut off. -/
def SlotsSuffice (c : LndCfg V) (batchSize : Nat) : Prop :=
  10 ^ 9 ≤ c.stagger ∧ (batchSize ≤ c.stagger / c.trickle * c.minBatchSize ∨
    c.stagger / 10 ^ 9 * ((batchSize - 1) / (c.stagger / c.trickle)) <
      batchSize * (c.trickle / 10 ^ 9) % 2 ^ 64)

theorem sized_iff {c : LndCfg V} {batchSize : Nat} (h0 : 0 < c.trickle) (h1 : c.trickle < c.stagger)
    (hb : c.minBatchSize < batchSize) :
    (∃ chunk, calculateSubBatchSize c.stagger c.trickle c.minBatchSize batchSize = some chunk ∧
      c.minBatchSize ≤ chunk ∧ (batchSize + chunk - 1) / chunk * c.trickle ≤ c.stagger) ↔
      SlotsSuffice c batchSize := by
  have hq : 0 < c.stagger / c.trickle := Nat.div_pos h1.le h0
  have hm := c.minBatchSize_pos
  unfold calculateSubBatchSize SlotsSuffice
  rw [if_neg (by omega)]
  dsimp only
  by_cases hT : c.stagger / 10 ^ 9 = 0
  · rw [if_pos hT]
    apply iff_of_false (by simp)
    intro h
    have hlt := (Nat.div_eq_zero_iff_lt (by decide)).1 hT
    omega
  have hsec : 10 ^ 9 ≤ c.stagger := by
    by_contra hlt
    exact hT (Nat.div_eq_of_lt (by omega))
  rw [if_neg hT, and_iff_right hsec]
  set x := (batchSize * (c.trickle / 10 ^ 9) % 2 ^ 64 + (c.stagger / 10 ^ 9 - 1)) / (c.stagger / 10 ^ 9)
    with hx
  have hpos : 0 < max x c.minBatchSize := Nat.lt_of_lt_of_le hm (Nat.le_max_right _ _)
  have hfits : (∃ chunk, some (max x c.minBatchSize) = some chunk ∧ c.minBatchSize ≤ chunk ∧
      (batchSize + chunk - 1) / chunk * c.trickle ≤ c.stagger) ↔
      batchSize ≤ c.stagger / c.trickle * max x c.minBatchSize := by
    rw [← ceil_div_le_iff hpos, Nat.le_div_iff_mul_le h0]
    constructor
    · rintro ⟨chunk, hchunk, -, h⟩
      cases hchunk
      exact h
    · exact fun h => ⟨_, rfl, Nat.le_max_right _ _, h⟩
  have hslots : batchSize ≤ c.stagger / c.trickle * x ↔
      (batchSize - 1) / (c.stagger / c.trickle) < x := by
    rw [Nat.div_lt_iff_lt_mul hq, Nat.mul_comm x]
    omega
  rw [hfits, ← Nat.mul_max_mul_left, le_max_iff, hslots, hx, lt_ceil_div_iff (Nat.pos_of_ne_zero hT)]
  exact or_comm

/-- The chunks of a tick fit the stagger window exactly when its slots suffice. -/
theorem chunks_fit_iff {c : LndCfg V} {batchSize : Nat} (h0 : 0 < c.trickle)
    (h1 : c.trickle < c.stagger) (hb : c.minBatchSize < batchSize) :
    ChunksFit c batchSize ↔ SlotsSuffice c batchSize := by
  rw [← sized_iff h0 h1 hb]
  refine ⟨fun h => h.sized, fun hs => ⟨hs, fun n n' e hn ht x hx => ?_⟩⟩
  obtain ⟨chunk, hchunk, -, hfit⟩ := hs
  rcases tick_cut ht with ⟨-, -, rfl⟩ | ⟨-, sub, first, rest, hsub, hpos, hcut, -, rfl⟩
  · cases hx
  · rw [hn, hchunk] at hsub
    cases hsub
    obtain ⟨i, hi, rfl⟩ := List.mem_mapIdx.1 hx
    have hlen : (cut c n.pending).length ≤ (batchSize + chunk - 1) / chunk := by
      unfold cut
      rw [hn, hchunk, ← hn, List.length_map]
      exact length_chunksGo_le hpos n.pending
    rw [hcut, List.length_cons] at hlen
    calc c.trickle * ((i + 1) % 2 ^ 32)
      _ ≤ c.trickle * (i + 1) := Nat.mul_le_mul_left _ (Nat.mod_le _ _)
      _ < c.trickle * ((batchSize + chunk - 1) / chunk) := Nat.mul_lt_mul_of_pos_left (by omega) h0
      _ ≤ c.stagger := by rwa [Nat.mul_comm]

/-- The sizes of a stagger of a second with a trickle of 100 ms: for 101 gossips eleven chunks, one
more than there are slots. A stagger below a second has no size. -/
theorem whole_seconds_overflow : ¬ChunksFit (lndNode (10 ^ 9) (10 ^ 8) 10 (by decide)) 101 ∧
    calculateSubBatchSize (5 * 10 ^ 8) (10 ^ 8) 10 30 = none := by
  refine ⟨fun h => ?_, rfl⟩
  obtain ⟨chunk, hchunk, -, hle⟩ := h.sized
  have hten : chunk = 10 := (Option.some_inj.1 hchunk).symm
  rw [hten] at hle
  exact absurd hle (by decide)

theorem chunks_fit_sample : ChunksFit (lndNode (90 * 10 ^ 9) (5 * 10 ^ 9) 10 (by decide)) 360 :=
  (chunks_fit_iff (by decide) (by decide) (by decide)).2 ⟨by decide, .inr (by decide)⟩

/-! ## Originated gossip first -/

/-- What was originated since the last tick is in the batch that the next tick sends at once, and
of every kind before what was received. -/
def OriginatedFirst (c : LndCfg V) (s : NodeRun V) : Prop :=
  s.originated = [] ∨ ∃ n e first rest, tick c s.node = some (n, e) ∧
    cut c s.node.pending = first :: rest ∧ e.sends = c.broadcast (.batch first) ∧
    ∀ kind, s.originated.reverse.filter (·.kind = kind) <+: first.ofKind kind

/-- The queue is not cut, or it is and the originated gossips are no more than the minimum or than
their share of the stagger, in whole seconds. -/
def FirstChunkSuffices (c : LndCfg V) (originated received : Nat) : Prop :=
  originated = 0 ∨ c.stagger ≤ c.trickle ∨ 10 ^ 9 ≤ c.stagger ∧ (originated ≤ c.minBatchSize ∨
    c.stagger / 10 ^ 9 * (originated - 1) <
      (originated + received) * (c.trickle / 10 ^ 9) % 2 ^ 64)

/-- No tick. -/
def BetweenTicks (s : NodeRun V) (op : NodeOp V) : Prop := s.event op ≠ some .tick

/-- Originated first, the latest before the earlier ones, then what was received, in its order. -/
def Queued (s : NodeRun V) : Prop := s.node.pending = s.originated.reverse ++ s.received

section Priority

variable [MsgHash] {c : LndCfg V} {s s' : NodeRun V}

theorem fire_pending {peerState : V → NodeState} {ev : Ev} {now : Nat} {n n' : Node} {e : Effects V}
    (h : (ModelCfg.lnd c).fire peerState ev now n = some (n', e)) (hev : ev ≠ .tick) :
    n'.pending = (NodeRun.recorded e).reverse ++ n.pending := by
  cases ev with
  | originate msg =>
    obtain ⟨⟨n₀, r⟩, hst, h⟩ := Option.bind_eq_some_iff.1 h
    obtain ⟨hp, -, -⟩ := stampOriginated_still hst
    cases r with
    | none =>
      cases h
      exact hp
    | some m =>
      cases h
      show m :: n₀.pending = _
      rw [hp]
      rfl
  | tick => exact absurd rfl hev
  | sendBatch b => cases h; rfl
  | flushSummary => cases h; rfl
  | _ => cases h

theorem Queued.step {op : NodeOp V} (hq : Queued s) (hop : BetweenTicks s op)
    (h : s.step (.lnd c) op = some s') : Queued s' := by
  have hfire : ∀ {ev peerState now n e}, (ModelCfg.lnd c).fire peerState ev now s.node = some (n, e) →
      ev ≠ .tick → n.pending = (s.originated ++ NodeRun.recorded e).reverse ++ s.received := by
    intro ev peerState now n e hf hev
    rw [fire_pending hf hev, hq, List.reverse_append, List.append_assoc]
  cases op with
  | recv wire now =>
    obtain ⟨⟨n, e⟩, hr, h⟩ := Option.bind_eq_some_iff.1 h
    cases h
    obtain ⟨fresh, dups, a, -, -⟩ := recvPending_absorbs hr
    show n.pending = s.originated.reverse ++ (s.received ++ NodeRun.recorded e)
    rw [recorded_stampSeen a.firstSeen, ← List.append_assoc, ← hq]
    exact a.pending
  | fire ev peerState now =>
    simp only [NodeRun.step] at h
    split at h
    · obtain ⟨⟨n, e⟩, hf, h⟩ := Option.bind_eq_some_iff.1 h
      cases h
      exact hfire hf fun hev => hop (congrArg some hev)
    · cases h
  | due i peerState now =>
    obtain ⟨ev, hev, h⟩ := Option.bind_eq_some_iff.1 h
    obtain ⟨⟨n, e⟩, hf, h⟩ := Option.bind_eq_some_iff.1 h
    cases h
    exact hfire hf fun he => hop (hev.trans (congrArg some he))

end Priority

theorem length_filter_kinds (gs : List Gossip) : (gs.filter (·.kind = .nodeAnnouncement)).length +
    (gs.filter (·.kind = .channelAnnouncement)).length +
    (gs.filter (·.kind = .channelUpdate)).length = gs.length := by
  induction gs with
  | nil => rfl
  | cons g gs ih =>
    cases hk : g.kind <;> simp [hk] <;> omega

/-- The chunk starts with the gossips of `own`, kind by kind, if and only if it has room for them. -/
theorem prefix_chunk_iff {own others : List Gossip} {size : Nat} :
    (∀ kind, own.filter (·.kind = kind) <+:
      (GossipBatch.fromMixed ((own ++ others).take size)).ofKind kind) ↔ own.length ≤ size := by
  simp only [GossipBatch.ofKind_fromMixed]
  constructor
  · intro h
    by_contra hlt
    have htake : (own ++ others).take size = own.take size := List.take_append_of_le_length (by omega)
    rw [htake] at h
    have h₁ := (h .nodeAnnouncement).length_le
    have h₂ := (h .channelAnnouncement).length_le
    have h₃ := (h .channelUpdate).length_le
    have hown := length_filter_kinds own
    have hcut := length_filter_kinds (own.take size)
    rw [List.length_take] at hcut
    omega
  · intro h kind
    rw [List.take_append, List.filter_append, List.take_of_length_le h]
    exact List.prefix_append _ _

theorem cut_of_sub {c : LndCfg V} {pending : List Gossip} {sub : Nat} (hne : pending ≠ [])
    (hsub : calculateSubBatchSize c.stagger c.trickle c.minBatchSize pending.length = some sub) :
    ∃ rest, cut c pending = .fromMixed (pending.take sub) :: rest := by
  unfold cut chunks
  rw [hsub]
  cases pending with
  | nil => exact absurd rfl hne
  | cons g pending => exact ⟨_, rfl⟩

/-- A tick sends the start of a queue that is not empty, as long as the sub-batch size asks for. -/
theorem tick_sends_iff {c : LndCfg V} {n : Node} (hne : n.pending ≠ []) {P : GossipBatch → Prop} :
    (∃ n' e first rest, tick c n = some (n', e) ∧ cut c n.pending = first :: rest ∧
      e.sends = c.broadcast (.batch first) ∧ P first) ↔
    ∃ sub, calculateSubBatchSize c.stagger c.trickle c.minBatchSize n.pending.length = some sub ∧
      P (.fromMixed (n.pending.take sub)) := by
  constructor
  · rintro ⟨n', e, first, rest, ht, hcut, -, hP⟩
    rcases tick_cut ht with ⟨hnil, -⟩ | ⟨-, sub, first', rest', hsub, -⟩
    · exact absurd hnil hne
    · obtain ⟨rest'', hcut'⟩ := cut_of_sub hne hsub
      rw [hcut] at hcut'
      cases hcut'
      exact ⟨sub, hsub, hP⟩
  · rintro ⟨sub, hsub, hP⟩
    obtain ⟨n', e, ht⟩ : ∃ n' e, tick c n = some (n', e) := by
      unfold tick
      rw [if_neg fun hn => hne (List.isEmpty_iff.1 hn)]
      simp only [hsub, Option.bind_eq_bind, Option.bind_some]
      split <;> exact ⟨_, _, rfl⟩
    obtain ⟨rest, hcut⟩ := cut_of_sub hne hsub
    rcases tick_cut ht with ⟨hnil, -⟩ | ⟨-, sub', first, rest', -, -, hcut', -, rfl⟩
    · exact absurd hnil hne
    · rw [hcut] at hcut'
      cases hcut'
      exact ⟨n', _, _, _, ht, hcut, rfl, hP⟩

/-- The sub-batch size reaches a number below the length of the queue. -/
theorem le_subBatchSize_iff {c : LndCfg V} {own batchSize : Nat} (h0 : 0 < own)
    (hle : own ≤ batchSize) :
    (∃ sub, calculateSubBatchSize c.stagger c.trickle c.minBatchSize batchSize = some sub ∧
      own ≤ sub) ↔ c.stagger ≤ c.trickle ∨ 10 ^ 9 ≤ c.stagger ∧ (own ≤ c.minBatchSize ∨
        c.stagger / 10 ^ 9 * (own - 1) < batchSize * (c.trickle / 10 ^ 9) % 2 ^ 64) := by
  unfold calculateSubBatchSize
  by_cases hst : c.stagger ≤ c.trickle
  · rw [if_pos hst]
    exact iff_of_true ⟨batchSize, rfl, hle⟩ (.inl hst)
  rw [if_neg hst, or_iff_right hst]
  dsimp only
  by_cases hT : c.stagger / 10 ^ 9 = 0
  · rw [if_pos hT]
    apply iff_of_false (by simp)
    intro h
    have hlt := (Nat.div_eq_zero_iff_lt (by decide)).1 hT
    omega
  have hsec : 10 ^ 9 ≤ c.stagger := by
    by_contra hlt
    exact hT (Nat.div_eq_of_lt (by omega))
  rw [if_neg hT, and_iff_right hsec, ← lt_ceil_div_iff (Nat.pos_of_ne_zero hT)]
  constructor
  · rintro ⟨sub, hsub, h⟩
    cases hsub
    rcases le_max_iff.1 h with h | h
    · right
      omega
    · exact .inl h
  · intro h
    refine ⟨_, rfl, le_max_iff.2 ?_⟩
    rcases h with h | h
    · exact .inr h
    · left
      omega

/-- All that was originated between two ticks goes out first with the second one, exactly when the
first chunk has room for it. -/
theorem originated_first_iff [MsgHash] {c : LndCfg V} {s₀ s : NodeRun V} {ops : List (NodeOp V)}
    (hp : s₀.node.pending = []) (ho : s₀.originated = []) (hr : s₀.received = [])
    (h : Steps (NodeRun.step (.lnd c)) BetweenTicks s₀ ops s) :
    OriginatedFirst c s ↔ FirstChunkSuffices c s.originated.length s.received.length := by
  have h₀ : Queued s₀ := by
    unfold Queued
    rw [hp, ho, hr]
    rfl
  have hq : Queued s := h.invariant h₀ fun _ _ _ hq hop hs => hq.step hop hs
  unfold OriginatedFirst FirstChunkSuffices
  rw [List.length_eq_zero_iff]
  apply or_congr_right'
  intro hne
  have hlen : s.node.pending.length = s.originated.length + s.received.length := by
    rw [hq, List.length_append, List.length_reverse]
  have hpend : s.node.pending ≠ [] := by
    rw [hq]
    simp [hne]
  rw [tick_sends_iff hpend]
  have hpos : 0 < s.originated.length := List.length_pos_iff.2 hne
  rw [← hlen, ← le_subBatchSize_iff hpos (by omega), hq]
  simp only [prefix_chunk_iff, List.length_reverse]

section Sample

/-- Hashes for runs on fixed inputs. -/
local instance priorityHash : MsgHash := ⟨List.sum⟩

instance decidableBetweenTicks (s : NodeRun V) (op : NodeOp V) : Decidable (BetweenTicks s op) :=
  match h : s.event op with
  | some .tick => isFalse fun hne => hne h
  | some (.originate _) | some (.doSend _) | some (.sendBatch _) | some (.tickForPeer _)
  | some (.handleSketch _) | some (.handleInventory _) | some .flushSummary | none =>
    isTrue fun heq => by rw [h] at heq; cases heq

/-- With chunks of one, the second update that the node originates pushes the first one out of the
first chunk. -/
theorem first_chunk_too_small :
    ∃ s, Steps (NodeRun.step queueNode) BetweenTicks queueStart
        (queueOps.take 3) s ∧
      s.originated.length = 2 ∧ ¬OriginatedFirst (lndNode (90 * 10 ^ 9) (5 * 10 ^ 9) 1 le_rfl) s := by
  obtain ⟨s₀, s, h₀, hs, hp⟩ := steps_of_any (NodeRun.step queueNode) BetweenTicks
    (some queueStart) (queueOps.take 3)
    (fun s => s.originated.length = 2 ∧
      (s.originated.reverse.filter (·.kind = .channelUpdate)).length = 2 ∧
      (cut (lndNode (90 * 10 ^ 9) (5 * 10 ^ 9) 1 le_rfl) s.node.pending).all
        fun b => b.chanUpdates.length = 1) (by decide +kernel)
  cases h₀
  obtain ⟨hlen, htwo, hone⟩ := of_decide_eq_true hp
  refine ⟨s, hs, hlen, fun h => ?_⟩
  rcases h with hnil | ⟨n, e, first, rest, -, hcut, -, hpre⟩
  · rw [hnil] at hlen
    cases hlen
  · have hle := (hpre .channelUpdate).length_le
    rw [hcut, List.all_cons, Bool.and_eq_true] at hone
    have hfirst : first.chanUpdates.length = 1 := of_decide_eq_true hone.1
    rw [htwo] at hle
    change 2 ≤ first.chanUpdates.length at hle
    omega

theorem originated_first_sample :
    ∃ s, Steps (NodeRun.step queueNode) BetweenTicks queueStart
        (queueOps.take 2) s ∧ s.originated.length = 1 ∧ s.received.length = 1 ∧
      OriginatedFirst (lndNode (90 * 10 ^ 9) (5 * 10 ^ 9) 1 le_rfl) s := by
  obtain ⟨s₀, s, h₀, hs, hp⟩ := steps_of_any (NodeRun.step queueNode) BetweenTicks
    (some queueStart) (queueOps.take 2)
    (fun s => s.originated.length = 1 ∧ s.received.length = 1) (by decide +kernel)
  cases h₀
  obtain ⟨hown, hrecv⟩ := of_decide_eq_true hp
  refine ⟨s, hs, hown, hrecv, (originated_first_iff rfl rfl rfl hs).2 ?_⟩
  rw [hown]
  exact .inr (.inr ⟨by decide, .inl le_rfl⟩)

end Sample

end LndNode

end LnConv
