import LnConv.State

/-!
# Absorbing gossip

Every node kind runs the same three dedup loops on its `NodeState`, one for each
kind of gossip. `absorbLoop` is the loop, the three `put` functions its bodies.
A body answers whether the gossip was fresh; `none` is a failed `expect`.
-/

namespace LnConv

/-- Absent, or held under an older timestamp. -/
def supersedes (m : IntMap (Nat × Nat)) (key timestamp : Nat) : Bool :=
  match m.lookup key with
  | some (stored, _) => decide (timestamp > stored)
  | none => true

def putChanUpdate (s : NodeState) (g : Gossip) : Option (NodeState × Bool) := do
  let scid ← g.scid
  let key := packCuKey scid g.direction
  if supersedes s.chanUpdates key g.timestamp then
    let m := s.chanUpdates.insert key (g.timestamp, g.sizeBytes)
    some ({ s with chanUpdates := m, key_lt := insert_key_lt s.key_lt _ _ }, true)
  else some (s, false)

def putNodeAnn (s : NodeState) (g : Gossip) : Option (NodeState × Bool) := do
  let origin ← g.origin
  if supersedes s.nodeAnns origin g.timestamp then
    some ({ s with nodeAnns := s.nodeAnns.insert origin (g.timestamp, g.sizeBytes) }, true)
  else some (s, false)

/-- The insertion also happens for a known scid. -/
def putChanAnn (s : NodeState) (g : Gossip) : Option (NodeState × Bool) := do
  let scid ← g.scid
  some ({ s with chanAnns := s.chanAnns.insert scid g.sizeBytes },
    (s.chanAnns.lookup scid).isNone)

def put : GossipKind → NodeState → Gossip → Option (NodeState × Bool)
  | .channelUpdate => putChanUpdate
  | .nodeAnnouncement => putNodeAnn
  | .channelAnnouncement => putChanAnn

structure Absorbed where
  state : NodeState
  fresh : List Gossip
  dups : List Gossip

def absorbLoop (put : NodeState → Gossip → Option (NodeState × Bool)) :
    NodeState → List Gossip → Option Absorbed
  | s, [] => some ⟨s, [], []⟩
  | s, g :: gs => do
    let (s', isFresh) ← put s g
    let r ← absorbLoop put s' gs
    some (if isFresh then { r with fresh := g :: r.fresh } else { r with dups := g :: r.dups })

/-! ## One gossip -/

theorem supersedes_iff {m : IntMap (Nat × Nat)} {k t : Nat} :
    supersedes m k t = true ↔ stampView Prod.fst m k < WithBot.some t := by
  unfold supersedes
  cases h : m.lookup k with
  | none => simp [stampView_eq_bot.2 h]
  | some v => simp [stampView_of_lookup h]

/-- The atom of a gossip in the map of its kind. -/
theorem atom_eq_update (g : Gossip) (kind : GossipKind) :
    g.atom kind = if kind = g.kind then Function.update ⊥ g.stateKey (WithBot.some g.stamp)
      else ⊥ := by
  funext k
  unfold Gossip.atom
  by_cases hk : kind = g.kind
  · by_cases hs : k = g.stateKey
    · subst hs; simp [hk]
    · simp [hk, hs]
  · simp [hk]

/-- What one loop body does: it joins the gossip in, and calls it fresh when the
state did not dominate it. -/
structure PutSpec (s : NodeState) (g : Gossip) (s' : NodeState) (isFresh : Bool) : Prop where
  view : s'.view = s.view ⊔ g.atom
  fresh : isFresh = true ↔ ¬ g.atom ≤ s.view
  idx : s'.idx = s.idx

theorem putChanUpdate_spec {s s' : NodeState} {g : Gossip} {b : Bool}
    (hg : g.kind = .channelUpdate) (h : putChanUpdate s g = some (s', b)) : PutSpec s g s' b := by
  simp only [putChanUpdate, Option.bind_eq_bind, Option.bind_eq_some_iff] at h
  obtain ⟨scid, hs, h⟩ := h
  have hk : g.stateKey = packCuKey scid g.direction := stateKey_of_key? (by simp [Gossip.key?, hg, hs])
  have hst : g.stamp = g.timestamp := by simp [Gossip.stamp, hg]
  have hle : g.atom ≤ s.view ↔
      WithBot.some g.timestamp ≤ stampView Prod.fst s.chanUpdates (packCuKey scid g.direction) := by
    rw [atom_le_iff, hk, hst, hg]; rfl
  split at h
  · next hsup =>
    cases h
    have hlt := supersedes_iff.1 hsup
    refine ⟨?_, by simpa [hle] using hlt, rfl⟩
    funext kind
    rw [Pi.sup_apply, atom_eq_update, hg, hk, hst]
    cases kind with
    | channelUpdate =>
      rw [if_pos rfl]
      exact (stampView_insert _ _ _).trans (update_eq_sup hlt.le)
    | _ => simp [NodeState.view]
  · next hsup =>
    cases h
    have hge : g.atom ≤ s.view := hle.2 (not_lt.1 fun hlt => hsup (supersedes_iff.2 hlt))
    exact ⟨(sup_eq_left.2 hge).symm, by simpa using hge, rfl⟩

theorem putNodeAnn_spec {s s' : NodeState} {g : Gossip} {b : Bool}
    (hg : g.kind = .nodeAnnouncement) (h : putNodeAnn s g = some (s', b)) : PutSpec s g s' b := by
  simp only [putNodeAnn, Option.bind_eq_bind, Option.bind_eq_some_iff] at h
  obtain ⟨origin, hs, h⟩ := h
  have hk : g.stateKey = origin := stateKey_of_key? (by simp [Gossip.key?, hg, hs])
  have hst : g.stamp = g.timestamp := by simp [Gossip.stamp, hg]
  have hle : g.atom ≤ s.view ↔
      WithBot.some g.timestamp ≤ stampView Prod.fst s.nodeAnns origin := by
    rw [atom_le_iff, hk, hst, hg]; rfl
  split at h
  · next hsup =>
    cases h
    have hlt := supersedes_iff.1 hsup
    refine ⟨?_, by simpa [hle] using hlt, rfl⟩
    funext kind
    rw [Pi.sup_apply, atom_eq_update, hg, hk, hst]
    cases kind with
    | nodeAnnouncement =>
      rw [if_pos rfl]
      exact (stampView_insert _ _ _).trans (update_eq_sup hlt.le)
    | _ => simp [NodeState.view]
  · next hsup =>
    cases h
    have hge : g.atom ≤ s.view := hle.2 (not_lt.1 fun hlt => hsup (supersedes_iff.2 hlt))
    exact ⟨(sup_eq_left.2 hge).symm, by simpa using hge, rfl⟩

theorem putChanAnn_spec {s s' : NodeState} {g : Gossip} {b : Bool}
    (hg : g.kind = .channelAnnouncement) (h : putChanAnn s g = some (s', b)) :
    PutSpec s g s' b := by
  simp only [putChanAnn, Option.bind_eq_bind, Option.bind_eq_some_iff] at h
  obtain ⟨scid, hs, h⟩ := h
  cases h
  have hk : g.stateKey = scid := stateKey_of_key? (by simp [Gossip.key?, hg, hs])
  have hst : g.stamp = 0 := by simp [Gossip.stamp, hg]
  refine ⟨?_, ?_, rfl⟩
  · funext kind
    rw [Pi.sup_apply, atom_eq_update, hg, hk, hst]
    cases kind with
    | channelAnnouncement =>
      rw [if_pos rfl]
      exact (stampView_insert _ _ _).trans (update_eq_sup (scidView_le_zero _ _))
    | _ => simp [NodeState.view]
  · rw [atom_le_iff, hk, hst, hg]
    show (s.chanAnns.lookup scid).isNone = true ↔ ¬ WithBot.some 0 ≤ stampView scidStamp s.chanAnns scid
    cases hl : s.chanAnns.lookup scid with
    | none => simp [stampView_eq_bot.2 hl]
    | some v => simp [stampView_of_lookup hl, scidStamp]

theorem put_spec {s s' : NodeState} {g : Gossip} {b : Bool} (h : put g.kind s g = some (s', b)) :
    PutSpec s g s' b := by
  cases hk : g.kind <;> rw [hk] at h
  · exact putNodeAnn_spec hk h
  · exact putChanAnn_spec hk h
  · exact putChanUpdate_spec hk h

theorem put_isSome {s : NodeState} {g : Gossip} (h : g.key?.isSome) :
    ∃ r, put g.kind s g = some r := by
  obtain ⟨k, hk⟩ := Option.isSome_iff_exists.1 h
  unfold Gossip.key? at hk
  split at hk
  · next hg =>
    obtain ⟨scid, hs, -⟩ := Option.map_eq_some_iff.1 hk
    simp only [hg, put, putChanUpdate, hs, Option.bind_eq_bind, Option.bind_some]
    split <;> exact ⟨_, rfl⟩
  · next hg =>
    simp only [hg, put, putNodeAnn, hk, Option.bind_eq_bind, Option.bind_some]
    split <;> exact ⟨_, rfl⟩
  · next hg => simp [hg, put, putChanAnn, hk]

/-! ## A whole loop -/

/-- What a loop over `gs` does: the state joins all of them in, learns nothing but
the fresh ones, and every gossip is counted once, as fresh or as a duplicate. -/
structure AbsorbSpec (s : NodeState) (gs : List Gossip) (r : Absorbed) : Prop where
  view : r.state.view = s.view ⊔ joinOf gs
  learnt : r.state.view ≤ s.view ⊔ joinOf r.fresh
  counted : (r.fresh ++ r.dups).Perm gs
  fresh_nil : r.fresh = [] ↔ joinOf gs ≤ s.view
  idx : r.state.idx = s.idx

theorem absorbLoop_append {f : NodeState → Gossip → Option (NodeState × Bool)} {s : NodeState}
    {gs hs : List Gossip} : absorbLoop f s (gs ++ hs) = (absorbLoop f s gs).bind fun r =>
      (absorbLoop f r.state hs).bind fun r' =>
        some ⟨r'.state, r.fresh ++ r'.fresh, r.dups ++ r'.dups⟩ := by
  induction gs generalizing s with
  | nil =>
    simp only [List.nil_append, absorbLoop, Option.bind_some]
    cases absorbLoop f s hs <;> rfl
  | cons g gs ih =>
    simp only [List.cons_append, absorbLoop, Option.bind_eq_bind, ih, Option.bind_assoc]
    refine congrArg _ (funext fun p => ?_)
    cases p.2 <;> simp [Option.bind_some]

theorem absorbLoop_spec {kind : GossipKind} {s : NodeState} {gs : List Gossip} {r : Absorbed}
    (hg : ∀ g ∈ gs, g.kind = kind) (h : absorbLoop (put kind) s gs = some r) :
    AbsorbSpec s gs r := by
  induction gs generalizing s r with
  | nil => cases h; exact ⟨by simp, by simp, .refl _, by simp, rfl⟩
  | cons g gs ih =>
    simp only [absorbLoop, Option.bind_eq_bind, Option.bind_eq_some_iff] at h
    obtain ⟨⟨s', b⟩, hput, t, ht, h⟩ := h
    cases h
    have hp : PutSpec s g s' b := put_spec (by rwa [hg g List.mem_cons_self])
    have hl := ih (fun x hx => hg x (List.mem_cons_of_mem _ hx)) ht
    have hview : t.state.view = s.view ⊔ joinOf (g :: gs) := by
      rw [hl.view, hp.view, joinOf_cons, sup_assoc]
    cases b with
    | true =>
      have hfresh : ¬ g.atom ≤ s.view := hp.fresh.1 rfl
      refine ⟨hview, ?_, hl.counted.cons g, ?_, hl.idx.trans hp.idx⟩
      · calc t.state.view ≤ s'.view ⊔ joinOf t.fresh := hl.learnt
          _ = s.view ⊔ joinOf (g :: t.fresh) := by rw [hp.view, joinOf_cons, sup_assoc]
      · simp only [if_true, joinOf_cons, sup_le_iff, reduceCtorEq, false_iff, not_and]
        exact fun hle => absurd hle hfresh
    | false =>
      have hdup : g.atom ≤ s.view := by
        by_contra hn; simpa using hp.fresh.2 hn
      have hs : s'.view = s.view := by rw [hp.view, sup_eq_left.2 hdup]
      refine ⟨hview, ?_, ?_, ?_, hl.idx.trans hp.idx⟩
      · simpa [hs] using hl.learnt
      · exact List.perm_middle.trans (hl.counted.cons g)
      · simp only [Bool.false_eq_true, if_false, joinOf_cons, sup_le_iff]
        rw [hl.fresh_nil, hs]
        exact ⟨fun h => ⟨hdup, h⟩, fun h => h.2⟩

theorem absorbLoop_isSome {kind : GossipKind} {s : NodeState} {gs : List Gossip}
    (hg : ∀ g ∈ gs, g.kind = kind ∧ g.key?.isSome) : ∃ r, absorbLoop (put kind) s gs = some r := by
  induction gs generalizing s with
  | nil => exact ⟨_, rfl⟩
  | cons g gs ih =>
    obtain ⟨hk, hs⟩ := hg g List.mem_cons_self
    obtain ⟨⟨s', b⟩, hput⟩ := put_isSome (s := s) hs
    obtain ⟨r, hr⟩ := ih (s := s') fun x hx => hg x (List.mem_cons_of_mem _ hx)
    rw [hk] at hput
    exact ⟨_, by simp only [absorbLoop, hput, hr, Option.bind_eq_bind, Option.bind_some]; rfl⟩

end LnConv
