import LnConv.Lib.Ledger
import LnConv.NoLoss
import LnConv.Node.Run
import Mathlib.Algebra.BigOperators.Ring.List

/-!
# Copies of gossip

Every gossip that a pushing node accepts goes once to each of its peers, and a copy
that arrives is accepted or counted as a duplicate. So in every state of every run the
copies of what was accepted are the ones still to be sent or in flight and the ones
that arrived, by number as well as by size. Where nothing is under way this is what
flooding wastes: all copies but the first are duplicates.
-/

namespace LnConv

/-- Gossips are counted, or weighed by their size. -/
inductive Weighing where
  | number
  | bytes

namespace Weighing

def weight : Weighing → Gossip → Nat
  | number, _ => 1
  | bytes, g => g.sizeBytes

def mass (μ : Weighing) (gs : List Gossip) : Nat := (gs.map μ.weight).sum

/-- The counter of the duplicates. -/
def duplicates : Weighing → PerNodeMetrics → Nat
  | number, m => m.duplicates
  | bytes, m => m.duplicatesBytes

variable {μ : Weighing} {gs gs' : List Gossip}

@[simp] theorem mass_nil : μ.mass [] = 0 := rfl

@[simp] theorem mass_append : μ.mass (gs ++ gs') = μ.mass gs + μ.mass gs' := by
  simp [mass]

theorem mass_number : number.mass gs = gs.length := by
  show (gs.map fun _ => 1).sum = gs.length
  simp

theorem mass_bytes : bytes.mass gs = sizeSum gs := rfl

theorem mass_congr (h : gs.Perm gs') : μ.mass gs = μ.mass gs' := (h.map _).sum_eq

theorem mass_flatMap {α : Type} (l : List α) (f : α → List Gossip) :
    μ.mass (l.flatMap f) = (l.map fun x => μ.mass (f x)).sum := by
  induction l with
  | nil => rfl
  | cons x l ih => rw [List.flatMap_cons, mass_append, ih, List.map_cons, List.sum_cons]

end Weighing

/-! ## Handlers -/

section Handlers

variable {V : Type} {μ : Weighing} {n n' : Node} {e : Effects V} {now : Nat}

/-- What arrives is recorded as first seen or counted as a duplicate. -/
theorem recv_duplicates {mc : ModelCfg V} {wire : WireMessage}
    (h : mc.recv wire now n = some (n', e)) :
    μ.duplicates n'.metricsLocal + μ.mass (NodeRun.recorded e) =
      μ.duplicates n.metricsLocal + μ.mass wire.gossips := by
  obtain ⟨fresh, dups, a, -, -⟩ := ModelCfg.recv_absorbs h
  have hsplit := μ.mass_congr a.counted
  rw [Weighing.mass_append] at hsplit
  have hcount : μ.duplicates n'.metricsLocal = μ.duplicates n.metricsLocal + μ.mass dups := by
    rw [a.metrics]
    cases μ with
    | number =>
      rw [Weighing.mass_number]
      cases mc <;> cases wire <;> rfl
    | bytes =>
      rw [Weighing.mass_bytes]
      cases mc <;> cases wire <;> rfl
  rw [recorded_stampSeen a.firstSeen]
  omega

variable [MsgHash]

/-- What the handler of an event records as first seen. -/
def ModelCfg.announced (ev : Ev) (now : Nat) (n : Node) (mc : ModelCfg V) : List Gossip :=
  match ev with
  | .originate msg => n.originated mc.base msg now
  | _ => []

theorem stampOriginated_duplicates {c : NodeCfg V} {msg : Gossip} {n₀ : Node} {r : Option Gossip}
    (h : n.stampOriginated c msg now = some (n₀, r)) :
    μ.duplicates n₀.metricsLocal = μ.duplicates n.metricsLocal := by
  obtain ⟨m, b, -, -, -, ⟨-, -, hm⟩ | ⟨-, -, hm⟩⟩ := stampOriginated_spec h
  · rw [hm]
    cases μ <;> rfl
  · rw [hm]

/-- An event of a pushing node counts no duplicates and records what it originates. -/
theorem fire_announces {mc : ModelCfg V} {peerState : V → NodeState} {ev : Ev}
    (hmc : mc.isSketch = false) (h : mc.fire peerState ev now n = some (n', e)) :
    μ.duplicates n'.metricsLocal = μ.duplicates n.metricsLocal ∧
      NodeRun.recorded e = mc.announced ev now n := by
  have hrest : ∀ {m m' : PerNodeMetrics}, m'.duplicates = m.duplicates →
      m'.duplicatesBytes = m.duplicatesBytes → μ.duplicates m' = μ.duplicates m := by
    intro m m' h₁ h₂
    cases μ
    · exact h₁
    · exact h₂
  cases ev with
  | originate msg =>
    have hall : ∀ {n₀ : Node} {r : Option Gossip}, n.stampOriginated mc.base msg now = some (n₀, r) →
        n'.metricsLocal.duplicates = n₀.metricsLocal.duplicates →
        n'.metricsLocal.duplicatesBytes = n₀.metricsLocal.duplicatesBytes →
        NodeRun.recorded e = r.toList → μ.duplicates n'.metricsLocal = μ.duplicates n.metricsLocal ∧
          NodeRun.recorded e = mc.announced (.originate msg) now n := fun hst h₁ h₂ hrec =>
      ⟨(hrest h₁ h₂).trans (stampOriginated_duplicates hst),
        hrec.trans (stampOriginated_still hst).2.2.symm⟩
    cases mc with
    | sketch c => cases hmc
    | _ =>
      obtain ⟨⟨n₀, r⟩, hst, h⟩ := Option.bind_eq_some_iff.1 h
      cases r <;> cases h <;> exact hall hst rfl rfl rfl
  | tick =>
    cases mc with
    | cln c =>
      simp only [ModelCfg.fire, ClnNode.tick] at h
      split at h <;> cases h <;> exact ⟨hrest rfl rfl, rfl⟩
    | lnd c =>
      rcases LndNode.tick_cut h with ⟨-, rfl, rfl⟩ | ⟨-, _, _, _, -, -, -, rfl, rfl⟩ <;>
        exact ⟨hrest rfl rfl, rfl⟩
    | sketch c => cases hmc
    | flooding c => cases h
  | _ =>
    cases mc with
    | sketch c => cases hmc
    | _ => cases h <;> exact ⟨hrest rfl rfl, rfl⟩

end Handlers

/-! ## The network -/

section Network

variable {V : Type} [DecidableEq V] {w : Network V} {s s' : Net V} {l : Label} {μ : Weighing}
  {o : Nat}

/-- The number of peers. -/
def Network.degree (w : Network V) (v : V) : Nat := (w.model v).base.peers.outputs.length

namespace Net

/-- The gossips a node recorded as first seen, its own ones among them. -/
def accepted (s : Net V) (v : V) : List Gossip := (s.counted v).map (·.gossip)

/-- The copies in flight, and those that scheduled events will send. -/
def underWay (w : Network V) (μ : Weighing) (s : Net V) : Nat :=
  (s.flight.map fun p => μ.mass p.wire.gossips).sum +
    (s.queue.map fun q => w.degree q.node * μ.mass q.ev.gossips).sum

/-- The copies that a node still has to send, and what arrived at it or was originated there. -/
def handled (w : Network V) (μ : Weighing) (s : Net V) (v : V) : Nat :=
  w.degree v * μ.mass (s.node v).pending + μ.duplicates (s.node v).metricsLocal +
    μ.mass (s.accepted v)

/-- With `o` originated: one copy of what was accepted for each peer is under way, waits, or has
arrived. -/
structure Copied (w : Network V) (μ : Weighing) (s : Net V) (o : Nat) : Prop where
  silent : s.Silent
  balanced : total w.topo.nodes (fun v => w.degree v * μ.mass (s.accepted v)) + o =
    s.underWay w μ + total w.topo.nodes (s.handled w μ)

theorem accepted_commit (s : Net V) (u : V) (n : Node) (e : Effects V) :
    (s.commit u n e).accepted =
      Function.update s.accepted u (s.accepted u ++ NodeRun.recorded e) := by
  funext v
  unfold accepted commit
  by_cases hv : v = u
  · subst hv
    simp [NodeRun.recorded]
  · simp [hv]

/-- What a handler puts under way. -/
theorem underWay_commit {s : Net V} {u : V} {n : Node} {e : Effects V} {out : List WireMessage}
    (hsends : e.sends = out.flatMap (w.model u).base.broadcast) :
    (s.commit u n e).underWay w μ = s.underWay w μ +
      w.degree u * (μ.mass e.scheduled + μ.mass (out.flatMap WireMessage.gossips)) := by
  have hsent : (e.sends.map fun x => μ.mass x.2.gossips).sum =
      w.degree u * μ.mass (out.flatMap WireMessage.gossips) := by
    rw [hsends]
    clear hsends
    induction out with
    | nil => rfl
    | cons wire out ih =>
      rw [List.flatMap_cons, List.map_append, List.sum_append, ih, List.flatMap_cons,
        Weighing.mass_append, Nat.mul_add]
      simp [NodeCfg.broadcast, Network.degree, Function.comp_def]
  have hsched : (e.schedules.map fun x => w.degree u * μ.mass x.2.gossips).sum =
      w.degree u * μ.mass e.scheduled := by
    rw [Effects.scheduled, Weighing.mass_flatMap, List.sum_map_mul_left]
  simp only [underWay, commit, List.map_append, List.sum_append, List.map_map, Function.comp_def]
  rw [hsent, hsched, Nat.mul_add]
  omega

/-- A handler of `u` that passes on what it is given, accepts or originates: `inp` was scheduled,
`got` arrived and `own` is originated. -/
theorem Copied.commit {s₀ : Net V} {u : V} {n : Node} {e : Effects V} {inp : List Gossip}
    {out : List WireMessage} (h : s.Copied w μ o) (got own : Nat)
    (hflow : Flows (w.model u).base inp out (s.node u) n e)
    (hdup : μ.duplicates n.metricsLocal + μ.mass (NodeRun.recorded e) =
      μ.duplicates (s.node u).metricsLocal + got + own)
    (hnode : s₀.node = s.node) (hcounted : s₀.counted = s.counted)
    (hway : s₀.underWay w μ + w.degree u * μ.mass inp + got = s.underWay w μ)
    (hsilent : (s₀.commit u n e).Silent) : (s₀.commit u n e).Copied w μ (o + own) where
  silent := hsilent
  balanced := by
    have hacc : s₀.accepted = s.accepted := by
      unfold accepted
      rw [hcounted]
    have hA := total_update w.topo.nodup (w.topo.mem_nodes u)
      (fun v => w.degree v * μ.mass (s.accepted v))
      (w.degree u * μ.mass (s.accepted u ++ NodeRun.recorded e))
    have hH := total_update w.topo.nodup (w.topo.mem_nodes u) (s.handled w μ)
      (w.degree u * μ.mass n.pending + μ.duplicates n.metricsLocal +
        μ.mass (s.accepted u ++ NodeRun.recorded e))
    have hA' : (fun v => w.degree v * μ.mass ((s₀.commit u n e).accepted v)) =
        Function.update (fun v => w.degree v * μ.mass (s.accepted v)) u
          (w.degree u * μ.mass (s.accepted u ++ NodeRun.recorded e)) := by
      funext v
      rw [accepted_commit, hacc]
      by_cases hv : v = u
      · subst hv; simp
      · simp [hv]
    have hH' : (s₀.commit u n e).handled w μ = Function.update (s.handled w μ) u
        (w.degree u * μ.mass n.pending + μ.duplicates n.metricsLocal +
          μ.mass (s.accepted u ++ NodeRun.recorded e)) := by
      funext v
      unfold handled
      rw [accepted_commit, hacc, node_commit, hnode]
      by_cases hv : v = u
      · subst hv; simp
      · simp [hv]
    have hheld := μ.mass_congr hflow.held
    simp only [Weighing.mass_append] at hheld hA hH
    have hmass := congrArg (w.degree u * ·) hheld
    simp only [Nat.mul_add] at hmass hA hH
    have hbal := h.balanced
    have hu : s.handled w μ u = w.degree u * μ.mass (s.node u).pending +
      μ.duplicates (s.node u).metricsLocal + μ.mass (s.accepted u) := rfl
    rw [hA', hH', underWay_commit hflow.sends]
    simp only [Weighing.mass_append, Nat.mul_add]
    omega

variable [MsgHash]

/-- What a step originates. -/
def originated (w : Network V) (s : Net V) : Label → List Gossip
  | .fire i => (s.queue[i]?).elim [] fun q => (w.model q.node).announced q.ev s.now (s.node q.node)
  | _ => []

theorem Copied.step (h : s.Copied w μ o) (hw : ∀ v, (w.model v).isSketch = false)
    (hs : LnConv.step w s l = some s') : s'.Copied w μ (o + μ.mass (s.originated w l)) := by
  have hsilent := h.silent.step hs
  cases moves_of_step hs with
  | advance _ => exact ⟨hsilent, h.balanced⟩
  | @deliver i p n e hp hr _ =>
    refine h.commit (μ.mass p.wire.gossips) 0 (recv_flows (hw _) hr) (recv_duplicates hr) rfl rfl
      ?_ hsilent
    have hsum := sum_eraseIdx hp fun p => μ.mass p.wire.gossips
    simp only [underWay, Weighing.mass_nil, Nat.mul_zero, Nat.add_zero]
    omega
  | @fire i q n e hq hr _ =>
    obtain ⟨hdup, hrec⟩ := fire_announces (μ := μ) (hw _) hr
    have hown : s.originated w (.fire i) = NodeRun.recorded e := by
      rw [hrec, originated, hq, Option.elim_some]
    refine h.commit 0 _ (fire_flows (hw _) hr) (by rw [hdup, hown]; rfl) rfl rfl ?_ hsilent
    have hsum := sum_eraseIdx hq fun q => w.degree q.node * μ.mass q.ev.gossips
    have hagain : (q.again.map fun q => w.degree q.node * μ.mass q.ev.gossips).sum = 0 := by
      refine List.sum_eq_zero fun x hx => ?_
      obtain ⟨q', hq', rfl⟩ := List.mem_map.1 hx
      rw [h.silent.again (List.mem_of_getElem? hq) hq', Weighing.mass_nil, Nat.mul_zero]
    simp only [underWay, List.map_append, List.sum_append, hagain]
    omega

omit [DecidableEq V] [MsgHash] in
theorem Copied.init {events : List (Nat × V × Gossip)} (h : init w events = some s) :
    s.Copied w μ 0 where
  silent := .init h
  balanced := by
    have hqueue : (s.queue.map fun q => w.degree q.node * μ.mass q.ev.gossips).sum = 0 := by
      refine List.sum_eq_zero fun x hx => ?_
      obtain ⟨q, hq, rfl⟩ := List.mem_map.1 hx
      rw [init_eq h] at hq
      rw [gossips_of_initialQueue hq, Weighing.mass_nil, Nat.mul_zero]
    have hzero : ∀ v, s.handled w μ v = 0 := by
      intro v
      rw [init_eq h]
      cases μ <;> cases hm : w.model v <;> simp [handled, accepted, Weighing.duplicates, hm,
        ModelCfg.initial, PerNodeMetrics.withSketchReservoirs]
    rw [total_congr fun v _ => hzero v]
    rw [init_eq h] at hqueue ⊢
    simp [underWay, hqueue, total, accepted]

end Net

omit [DecidableEq V] in
theorem underWay_of_quiet (hq : s.Quiet) : s.underWay w μ = 0 := by
  unfold Net.underWay
  rw [hq.2.1, List.map_nil, List.sum_nil, Nat.zero_add]
  refine List.sum_eq_zero fun x hx => ?_
  obtain ⟨q, hqm, rfl⟩ := List.mem_map.1 hx
  rw [hq.2.2 q hqm, Weighing.mass_nil, Nat.mul_zero]

variable [MsgHash]

/-- In every run without sketch nodes the copies of what was accepted, one for each peer of the
node, are under way, wait at it, or have arrived and were accepted or duplicates. Where nothing is
under way, every copy of what arrived but the first was a duplicate. -/
theorem Network.copies_conserved (hw : ∀ v, (w.model v).isSketch = false)
    {events : List (Nat × V × Gossip)} {s₀ : Net V} {ls : List Label} (h₀ : init w events = some s₀)
    (h : run (step w) s₀ ls = some s) (μ : Weighing) :
    total w.topo.nodes (fun v => w.degree v * μ.mass (s.accepted v)) +
        μ.mass (collect (step w) (Net.originated w) s₀ ls) =
      s.underWay w μ + total w.topo.nodes (s.handled w μ) ∧
    (s.Quiet → total w.topo.nodes (fun v => μ.duplicates (s.node v).metricsLocal) +
        total w.topo.nodes (fun v => μ.mass (s.accepted v)) =
      total w.topo.nodes (fun v => w.degree v * μ.mass (s.accepted v)) +
        μ.mass (collect (step w) (Net.originated w) s₀ ls)) := by
  have hcopied : s.Copied w μ (μ.mass ([] ++ collect (step w) (Net.originated w) s₀ ls)) := by
    have hstart : s₀.Copied w μ (μ.mass []) := .init h₀
    refine (steps_of_run h).collect_invariant (P := fun s os => s.Copied w μ (μ.mass os)) hstart
      fun s l s' os hc _ hs => ?_
    rw [Weighing.mass_append]
    exact hc.step hw hs
  rw [List.nil_append] at hcopied
  refine ⟨hcopied.balanced, fun hq => ?_⟩
  have hhandled : ∀ v, s.handled w μ v =
      μ.duplicates (s.node v).metricsLocal + μ.mass (s.accepted v) := by
    intro v
    rw [Net.handled, hq.1 v, Weighing.mass_nil, Nat.mul_zero, Nat.zero_add]
  rw [hcopied.balanced, underWay_of_quiet hq, Nat.zero_add, total_congr fun v _ => hhandled v]
  unfold total
  rw [← List.sum_map_add]

end Network

/-! ## Three nodes in a line -/

section Samples

local instance copiesHash : MsgHash := ⟨List.sum⟩

/-- The update of node 0 goes down the line and a copy comes back at every hop. -/
def copiesRun : List Label :=
  [.advance (10 ^ 9), .fire 3, .deliver 0, .advance (11 * 10 ^ 8), .fire 3, .deliver 0, .deliver 0,
    .advance (12 * 10 ^ 8), .fire 3, .deliver 0]

theorem copies_checked : (((init (floodLine (10 * 10 ^ 9)) [(10 ^ 9, 0, sampleUpdate)]).bind fun s =>
    run (step (floodLine (10 * 10 ^ 9))) s copiesRun).any fun s =>
      decide (∀ v, (s.node v).pending = []) && s.flight.isEmpty &&
      s.queue.all (fun q => q.ev.gossips.isEmpty)) = true := by
  decide +kernel

theorem copies_conserved_line : ∃ s₀ s, init (floodLine (10 * 10 ^ 9)) [(10 ^ 9, 0, sampleUpdate)] =
      some s₀ ∧ run (step (floodLine (10 * 10 ^ 9))) s₀ copiesRun = some s ∧
    total (floodLine (10 * 10 ^ 9)).topo.nodes (fun v => (s.node v).metricsLocal.duplicates) +
        total (floodLine (10 * 10 ^ 9)).topo.nodes (fun v => Weighing.number.mass (s.accepted v)) =
      total (floodLine (10 * 10 ^ 9)).topo.nodes (fun v =>
          (floodLine (10 * 10 ^ 9)).degree v * Weighing.number.mass (s.accepted v)) +
        Weighing.number.mass (collect (step (floodLine (10 * 10 ^ 9)))
          (Net.originated (floodLine (10 * 10 ^ 9))) s₀ copiesRun) := by
  obtain ⟨s, hs, hc⟩ := (Option.any_eq_true _ _).1 copies_checked
  obtain ⟨s₀, h₀, hs⟩ := Option.bind_eq_some_iff.1 hs
  simp only [Bool.and_eq_true, decide_eq_true_eq, List.all_eq_true, List.isEmpty_iff] at hc
  have hq : s.Quiet := ⟨hc.1.1, hc.1.2, hc.2⟩
  exact ⟨s₀, s, h₀, hs, (Network.copies_conserved (fun _ => rfl) h₀ hs .number).2 hq⟩

end Samples

end LnConv
