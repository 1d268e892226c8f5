import LnConv.Node.Base

/-!
# Flooding nodes

A fresh gossip is forwarded to every peer after `forwardDelay`.
-/

namespace LnConv

structure FloodingCfg (V : Type) extends NodeCfg V where
  forwardDelay : Nat

namespace FloodingNode

variable {V : Type} (c : FloodingCfg V)

def absorb (kind : GossipKind) (gs : List Gossip) (now : Nat) : Handler V := fun n => do
  let (n, fresh) ← n.absorbKind kind gs now
  if fresh.isEmpty then some (n, {})
  else
    let forwards := fresh.map fun g => (c.forwardDelay, Ev.doSend g)
    some (n, { schedules := forwards ++ n.maybeForceFlush, firstSeen := stampSeen fresh now })

def absorbChanUpdates (gs : List Gossip) (now : Nat) : Handler V := absorb c .channelUpdate gs now

def absorbNodeAnns (gs : List Gossip) (now : Nat) : Handler V := absorb c .nodeAnnouncement gs now

def absorbChanAnns (gs : List Gossip) (now : Nat) : Handler V :=
  absorb c .channelAnnouncement gs now

def absorbOne (g : Gossip) (now : Nat) : Handler V :=
  match g.kind with
  | .channelUpdate => absorbChanUpdates c [g] now
  | .nodeAnnouncement => absorbNodeAnns c [g] now
  | .channelAnnouncement => absorbChanAnns c [g] now

/-- Every message counts as gossip, also the two kinds that are ignored. -/
def recv (wire : WireMessage) (now : Nat) : Handler V := fun n =>
  let n := n.addBytesInGossip wire.wireSize
  match wire with
  | .single g => absorbOne c g now n
  | .batch b =>
    (absorbChanUpdates c b.chanUpdates now).seq
      ((absorbNodeAnns c b.nodeAnns now).seq (absorbChanAnns c b.chanAnns now)) n
  | .sketch _ => some (n, {})
  | .inventory _ => some (n, {})

def broadcastSingle (msg : Gossip) (n : Node) : Node × List (V × WireMessage) :=
  (n.addBytesOutGossip (msg.sizeBytes * c.peers.outputs.length), c.broadcast (.single msg))

def originate [MsgHash] (msg : Gossip) (now : Nat) : Handler V := fun n => do
  let (n, stamped) ← n.stampOriginated c.toNodeCfg msg now
  match stamped with
  | none => some (n, {})
  | some msg =>
    let (n, sends) := broadcastSingle c msg n
    some (n, { sends := sends, firstSeen := stampSeen [msg] now })

def doSend (msg : Gossip) : Handler V := fun n =>
  let (n, sends) := broadcastSingle c msg n
  some (n, { sends := sends })

def flushSummary (now : Nat) : Handler V := fun n =>
  let (n, events) := n.drain c.toNodeCfg now
  some (n, { events := events })

/-- The events armed at the start: delay, event, period. -/
def armFlush : List (Nat × Ev × Option Nat) :=
  (if c.flushInterval > 0 then [(c.flushPhase, .flushSummary, some c.flushInterval)] else []) ++
    [(c.runDuration, .flushSummary, none)]

/-! ## What receiving does -/

variable {c} {now : Nat} {n n' : Node} {e : Effects V}

theorem absorb_absorbs {kind : GossipKind} {gs : List Gossip} (hg : ∀ g ∈ gs, g.kind = kind)
    (h : absorb c kind gs now n = some (n', e)) : Absorbs .schedule gs now n n' e := by
  simp only [absorb, Option.bind_eq_bind, Option.bind_eq_some_iff] at h
  obtain ⟨⟨n₁, fresh⟩, hk, h⟩ := h
  dsimp only at h
  split at h
  · next hnil =>
    cases h
    rw [List.isEmpty_iff.1 hnil] at hk
    obtain ⟨dups, sp⟩ := absorbKind_spec (e := ({} : Effects V)) hg hk rfl rfl rfl
    exact ⟨[], dups, sp, rfl, by simp⟩
  · cases h
    obtain ⟨dups, sp⟩ := absorbKind_spec (e := ⟨[], _, [], _⟩) hg hk rfl rfl rfl
    refine ⟨fresh, dups, sp, by simp [Effects.scheduled, Forward.scheduled, List.flatMap_map],
      fun x hx => ?_⟩
    rcases List.mem_append.1 hx with hx | hx
    · obtain ⟨g, -, rfl⟩ := List.mem_map.1 hx; rfl
    · exact Node.spawned_maybeForceFlush _ x hx

theorem absorbOne_absorbs {g : Gossip} (h : absorbOne c g now n = some (n', e)) :
    Absorbs .schedule [g] now n n' e := by
  cases hk : g.kind <;> simp only [absorbOne, hk] at h <;>
    exact absorb_absorbs (by simp [hk]) h

theorem recv_absorbs {wire : WireMessage} (h : recv c wire now n = some (n', e)) :
    Absorbs .schedule wire.gossips now (n.addBytesInGossip wire.wireSize) n' e := by
  cases wire with
  | single g => exact absorbOne_absorbs h
  | batch b =>
    obtain ⟨n₁, e₁, e', h₁, h', rfl⟩ := Handler.seq_eq_some h
    obtain ⟨n₂, e₂, e₃, h₂, h₃, rfl⟩ := Handler.seq_eq_some h'
    have a := (absorb_absorbs b.kind_chanUpdates h₁).append
      ((absorb_absorbs b.kind_nodeAnns h₂).append (absorb_absorbs b.kind_chanAnns h₃))
    simpa [WireMessage.gossips, GossipBatch.gossips] using a
  | sketch _ => cases h; exact .nil _ _ _ rfl (by simp)
  | inventory _ => cases h; exact .nil _ _ _ rfl (by simp)

theorem absorb_total {kind : GossipKind} {gs : List Gossip}
    (hg : ∀ g ∈ gs, g.kind = kind ∧ g.key?.isSome) : (absorb c kind gs now).Total := by
  intro n
  obtain ⟨⟨n₁, fresh⟩, h⟩ := absorbKind_isSome (n := n) now hg
  simp only [absorb, h, Option.bind_eq_bind, Option.bind_some]
  split <;> exact ⟨_, rfl⟩

theorem recv_total {wire : WireMessage} (hg : ∀ g ∈ wire.gossips, g.key?.isSome) :
    (recv c wire now).Total := by
  intro n
  cases wire with
  | single g =>
    have hs : g.key?.isSome := hg g (List.mem_singleton.2 rfl)
    simp only [recv]
    cases hk : g.kind <;> simp only [absorbOne, hk] <;>
      exact absorb_total (by simp [hk, hs]) _
  | batch b =>
    obtain ⟨hcu, hna, hca⟩ := b.forall_gossips.1 hg
    exact (absorb_total hcu).seq ((absorb_total hna).seq (absorb_total hca)) _
  | sketch _ => exact ⟨_, rfl⟩
  | inventory _ => exact ⟨_, rfl⟩

end FloodingNode

end LnConv
