import LnConv.Node.Base

/-!
# Receiving into a pending queue

The `recv` of Cln and Lnd nodes: fresh gossip is put on `pending` and waits for
the next tick.
-/

namespace LnConv

variable {V : Type}

def absorbPending (kind : GossipKind) (gs : List Gossip) (now : Nat) : Handler V := fun n => do
  let (n, fresh) ← n.absorbKind kind gs now
  let n := { n with pending := n.pending ++ fresh }
  if fresh.isEmpty then some (n, {})
  else some (n, { schedules := n.maybeForceFlush, firstSeen := stampSeen fresh now })

def absorbOnePending (g : Gossip) (now : Nat) : Handler V :=
  match g.kind with
  | .channelUpdate => absorbPending .channelUpdate [g] now
  | .nodeAnnouncement => absorbPending .nodeAnnouncement [g] now
  | .channelAnnouncement => absorbPending .channelAnnouncement [g] now

/-- Every message counts as gossip, also the two kinds that are ignored. -/
def recvPending (wire : WireMessage) (now : Nat) : Handler V := fun n =>
  let n := n.addBytesInGossip wire.wireSize
  match wire with
  | .single g => absorbOnePending g now n
  | .batch b =>
    (absorbPending .channelAnnouncement b.chanAnns now).seq
      ((absorbPending .channelUpdate b.chanUpdates now).seq
        (absorbPending .nodeAnnouncement b.nodeAnns now)) n
  | .sketch _ => some (n, {})
  | .inventory _ => some (n, {})

variable {now : Nat} {n n' : Node} {e : Effects V} {kind : GossipKind} {gs : List Gossip}

theorem absorbPending_absorbs (hg : ∀ g ∈ gs, g.kind = kind)
    (h : absorbPending kind gs now n = some (n', e)) : Absorbs .queue gs now n n' e := by
  simp only [absorbPending, Option.bind_eq_bind, Option.bind_eq_some_iff] at h
  obtain ⟨⟨n₁, fresh⟩, hk, h⟩ := h
  dsimp only at h
  split at h
  · next hnil =>
    cases h
    rw [List.isEmpty_iff.1 hnil] at hk ⊢
    obtain ⟨dups, sp⟩ := absorbKind_spec (e := ({} : Effects V)) hg hk rfl rfl rfl
    exact ⟨[], dups, sp.queue [], rfl, by simp⟩
  · cases h
    obtain ⟨dups, sp⟩ := absorbKind_spec (e := ⟨[], _, [], _⟩) hg hk rfl rfl rfl
    exact ⟨fresh, dups, sp.queue fresh, Node.gossips_maybeForceFlush _,
      Node.spawned_maybeForceFlush _⟩

theorem absorbPending_total (hg : ∀ g ∈ gs, g.kind = kind ∧ g.key?.isSome) :
    (absorbPending kind gs now : Handler V).Total := by
  intro n
  obtain ⟨⟨n₁, fresh⟩, h⟩ := absorbKind_isSome (n := n) now hg
  simp only [absorbPending, h, Option.bind_eq_bind, Option.bind_some]
  split <;> exact ⟨_, rfl⟩

theorem recvPending_absorbs {wire : WireMessage} (h : recvPending wire now n = some (n', e)) :
    Absorbs .queue wire.gossips now (n.addBytesInGossip wire.wireSize) n' e := by
  cases wire with
  | single g =>
    simp only [recvPending] at h
    cases hk : g.kind <;> simp only [absorbOnePending, hk] at h <;>
      exact absorbPending_absorbs (by simp [WireMessage.gossips, hk]) h
  | batch b =>
    obtain ⟨n₁, e₁, e', h₁, h', rfl⟩ := Handler.seq_eq_some h
    obtain ⟨n₂, e₂, e₃, h₂, h₃, rfl⟩ := Handler.seq_eq_some h'
    have a := (absorbPending_absorbs b.kind_chanAnns h₁).append
      ((absorbPending_absorbs b.kind_chanUpdates h₂).append
        (absorbPending_absorbs b.kind_nodeAnns h₃))
    exact a.perm List.perm_append_comm
  | sketch _ => cases h; exact .nil _ _ _ rfl (by simp)
  | inventory _ => cases h; exact .nil _ _ _ rfl (by simp)

theorem recvPending_total {wire : WireMessage} (hg : ∀ g ∈ wire.gossips, g.key?.isSome) :
    (recvPending wire now : Handler V).Total := by
  intro n
  cases wire with
  | single g =>
    have hs : g.key?.isSome := hg g (List.mem_singleton.2 rfl)
    simp only [recvPending]
    cases hk : g.kind <;> simp only [absorbOnePending, hk] <;>
      exact absorbPending_total (by simp [hk, hs]) _
  | batch b =>
    obtain ⟨hcu, hna, hca⟩ := b.forall_gossips.1 hg
    exact (absorbPending_total hca).seq ((absorbPending_total hcu).seq
      (absorbPending_total hna)) _
  | sketch _ => exact ⟨_, rfl⟩
  | inventory _ => exact ⟨_, rfl⟩

end LnConv
