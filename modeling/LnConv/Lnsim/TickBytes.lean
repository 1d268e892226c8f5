import LnConv.Lnsim.Departures

/-!
# The bytes of a tick

Updates count the same in every sub-batch, and inventory entries count more in the last one.
-/

namespace LnConv.Lnsim

open Netsim

variable {n k : Nat}

namespace Sim

/-- The `DataSize` of all messages sent to a peer between two states. -/
def bytesTo (s s' : Sim n k) (p : Fin n) : UInt64 :=
  let out := s'.history.sent.drop s.history.sent.length
  .ofNat ((out.filter fun me => me.receiver = p).map fun me => me.m.dataSize.toNat).sum

/-- The messages of the last sub-batch. -/
def lastGroup (W : World n k) (batchSize : Nat) (keys : List (Fin k)) : List (Fin k) :=
  if W.algo.shouldTrickle then keys.drop ((keys.length - 1) / batchSize * batchSize) else keys

theorem getLast?_groups (W : World n k) (batchSize : Nat) (keys : List (Fin k)) :
    (groups W batchSize keys).getLast? = some (lastGroup W batchSize keys) := by
  unfold groups lastGroup
  split
  · exact getLast?_chunksFrom (.inl (Nat.zero_le _))
  · rfl

def bytesOf (ds : List (Departure n k)) : UInt64 := .ofNat (ds.map fun d => d.m.dataSize.toNat).sum

theorem bytesOf_append (ds ds' : List (Departure n k)) :
    bytesOf (ds ++ ds') = bytesOf ds + bytesOf ds' := by
  unfold bytesOf
  rw [List.map_append, List.sum_append, UInt64.ofNat_add]

theorem bytesOf_singleton (d : Departure n k) : bytesOf [d] = d.m.dataSize := UInt64.ofNat_toNat

/-- What an entry counts, in a sub-batch where an inventory entry counts `entrySize`. -/
def entryBytes (W : World n k) (entrySize : Nat) : Nat :=
  if W.algo.sendBatchUpdates then updateSize else entrySize

section plan

variable {W : World n k} {s : Sim n k} {v p : Fin n}

theorem groupDepartures_size (hmode : W.algo.sendBatchUpdates = true ∨ W.algo.sendInvs = true)
    (offset entrySize : Nat) (g : List (Fin k)) :
    bytesOf (groupDepartures W s v p offset entrySize g) =
      .ofNat (entryBytes W entrySize * g.countP ((s.nodes v).owes p)) := by
  by_cases howed : g.filter ((s.nodes v).owes p) = []
  · have hcount : g.countP ((s.nodes v).owes p) = 0 := by
      rw [List.countP_eq_length_filter, howed, List.length_nil]
    have hnone : groupDepartures W s v p offset entrySize g = [] := by
      simp [groupDepartures, howed]
    rw [hnone, hcount, Nat.mul_zero]
    rfl
  · cases hb : W.algo.sendBatchUpdates with
    | true =>
      simp only [groupDepartures, entryBytes, hb, howed, if_true, if_false, bytesOf_singleton,
        List.countP_eq_length_filter]
    | false =>
      have hi : W.algo.sendInvs = true := by simpa [hb] using hmode
      simp only [groupDepartures, entryBytes, hb, hi, howed, if_true, if_false, bytesOf_singleton,
        List.countP_eq_length_filter, Bool.false_eq_true]

/-- The last group counts by entries of 17 bytes, what is before it by entries of `InvSize`. -/
theorem groupsDepartures_size (hmode : W.algo.sendBatchUpdates = true ∨ W.algo.sendInvs = true)
    (offset : Nat) {gs : List (List (Fin k))} {g : List (Fin k)} (hg : gs.getLast? = some g) :
    bytesOf (groupsDepartures W s v p offset gs) =
      .ofNat (entryBytes W invSize * gs.flatten.countP ((s.nodes v).owes p)) +
        .ofNat ((entryBytes W 17 - entryBytes W invSize) * g.countP ((s.nodes v).owes p)) := by
  induction gs generalizing offset with
  | nil => cases hg
  | cons g' gs ih =>
    by_cases hlast : gs = []
    · subst hlast
      have hgg : g' = g := by simpa using hg
      subst hgg
      have hle : entryBytes W invSize ≤ entryBytes W 17 := by
        unfold entryBytes
        split
        · exact Nat.le_refl _
        · decide
      rw [groupsDepartures, groupDepartures_size hmode, List.flatten_singleton, ← UInt64.ofNat_add,
        ← Nat.add_mul, Nat.add_sub_cancel' hle]
    · rw [List.getLast?_cons_of_ne_nil hlast] at hg
      rw [groupsDepartures_cons _ _ _ _ hlast, bytesOf_append, ih _ hg, groupDepartures_size hmode,
        List.flatten_cons, List.countP_append, Nat.mul_add, UInt64.ofNat_add, UInt64.add_assoc]

theorem departuresTo_size (hmode : W.algo.sendBatchUpdates = true ∨ W.algo.sendInvs = true)
    (batchSize : Nat) (keys : List (Fin k)) :
    bytesOf (departuresTo W s v p batchSize keys) =
      .ofNat (entryBytes W invSize * keys.countP ((s.nodes v).owes p)) +
        .ofNat ((entryBytes W 17 - entryBytes W invSize) *
          (lastGroup W batchSize keys).countP ((s.nodes v).owes p)) := by
  have hsize := groupsDepartures_size (s := s) (v := v) (p := p) hmode 0
    (getLast?_groups W batchSize keys)
  rwa [flatten_groups] at hsize

end plan

/-! ## What the tick sends -/

theorem depart_emits {W : World n k} {time : Nat} {v : Fin n} {s s' : Sim n k} {d : Departure n k}
    (h : depart W time v s d = some s') : Emits s [⟨d.m, v, d.dst, d.hops + 1⟩] s' :=
  sendWithHops_emits h

section tick

variable {W : World n k} {s s' : Sim n k} {time : Nat} {v p : Fin n} {interval batchSize : Nat}

theorem bytesTo_staggerTick (hp : p ∈ (s.nodes v).gossipPeers)
    (hsize : calculateSubBatchSize interval W.algo.trickleTimer W.algo.minBatchSize
      (s.queue v).length = some ↑batchSize)
    (h : s.staggerTick W time v interval = some s') :
    bytesTo s s' p = bytesOf (departuresTo W s v p batchSize (s.queue v)) := by
  obtain ⟨-, size, hsize', s₁, hs₁, rfl⟩ := departs_of_staggerTick h
  rw [hsize'] at hsize
  obtain rfl := Int.ofNat_inj.1 (Option.some.inj hsize)
  have hsent : (s₁.modify v LightningNode.clearQueue).history.sent = _ :=
    congrArg History.sent (Emits.foldlM (fun _ _ _ _ => depart_emits) hs₁).history
  unfold bytesTo bytesOf
  rw [hsent, ← departures_to hp]
  dsimp only
  rw [List.drop_left, ← List.map_eq_flatMap, List.filter_map, List.map_map]
  rfl

end tick

/-- 9 has an inverse, so nine times a number is zero only when the number is. -/
theorem nine_mul_eq_zero (a : Nat) : UInt64.ofNat (9 * a) = 0 ↔ UInt64.ofNat a = 0 := by
  have hinv : (10248191152060862009 : UInt64) * 9 = 1 := by decide
  rw [UInt64.ofNat_mul]
  constructor
  · intro h
    have hone : UInt64.ofNat a = 10248191152060862009 * (9 * UInt64.ofNat a) := by
      rw [← UInt64.mul_assoc, hinv, UInt64.one_mul]
    rw [hone]
    exact (congrArg (_ * ·) h).trans UInt64.mul_zero
  · intro h
    rw [h, UInt64.mul_zero]

theorem exact_iff {W : World n k} (hmode : W.algo.sendBatchUpdates = true ∨ W.algo.sendInvs = true)
    {s s' : Sim n k} {time : Nat} {v p : Fin n} {interval batchSize : Nat}
    (hp : p ∈ (s.nodes v).gossipPeers)
    (hsize : calculateSubBatchSize interval W.algo.trickleTimer W.algo.minBatchSize
      (s.queue v).length = some ↑batchSize)
    (h : s.staggerTick W time v interval = some s') :
    bytesTo s s' p = .ofNat (entryBytes W invSize * (List.finRange k).countP ((s.nodes v).owes p)) ↔
      W.algo.sendBatchUpdates = true ∨ UInt64.ofNat
        ((lastGroup W batchSize (s.queue v)).countP ((s.nodes v).owes p)) = 0 := by
  have hcount : (s.queue v).countP ((s.nodes v).owes p) =
      (List.finRange k).countP ((s.nodes v).owes p) := by
    rw [queue, List.countP_filter]
    refine List.countP_congr fun m _ => ?_
    cases hm : (s.nodes v).bq m <;> simp [LightningNode.owes, hm]
  rw [bytesTo_staggerTick hp hsize h, departuresTo_size hmode, hcount]
  cases hb : W.algo.sendBatchUpdates with
  | true =>
    have hsame : entryBytes W 17 - entryBytes W invSize = 0 := by simp [entryBytes, hb]
    rw [hsame, Nat.zero_mul]
    exact iff_of_true (UInt64.add_zero _) (.inl rfl)
  | false =>
    have hmore : entryBytes W 17 - entryBytes W invSize = 9 := by simp [entryBytes, hb, invSize]
    rw [hmore, ← nine_mul_eq_zero]
    simp

/-- Two ticks from one state, in the same mode but with sub-batches of two sizes, send a peer the
same bytes, and as many as the entries owed to it count, if and only if they send batches or the
last sub-batches owe it nothing. -/
theorem staggerTick_bytes_iff {W₁ W₂ : World n k} {s s₁ s₂ : Sim n k} {time : Nat} {v p : Fin n}
    {interval batchSize₁ batchSize₂ : Nat}
    (hmode : W₁.algo.sendBatchUpdates = true ∨ W₁.algo.sendInvs = true)
    (hbatch : W₂.algo.sendBatchUpdates = W₁.algo.sendBatchUpdates)
    (hinvs : W₂.algo.sendInvs = W₁.algo.sendInvs)
    (hsize₁ : calculateSubBatchSize interval W₁.algo.trickleTimer W₁.algo.minBatchSize
      (s.queue v).length = some ↑batchSize₁)
    (hsize₂ : calculateSubBatchSize interval W₂.algo.trickleTimer W₂.algo.minBatchSize
      (s.queue v).length = some ↑batchSize₂)
    (h₁ : s.staggerTick W₁ time v interval = some s₁)
    (h₂ : s.staggerTick W₂ time v interval = some s₂) (hp : p ∈ (s.nodes v).gossipPeers) :
    (bytesTo s s₁ p = bytesTo s s₂ p ∧ bytesTo s s₁ p =
      .ofNat ((if W₁.algo.sendBatchUpdates then updateSize else invSize) *
        (List.finRange k).countP ((s.nodes v).owes p))) ↔
    W₁.algo.sendBatchUpdates = true ∨
      UInt64.ofNat ((lastGroup W₁ batchSize₁ (s.queue v)).countP ((s.nodes v).owes p)) = 0 ∧
      UInt64.ofNat ((lastGroup W₂ batchSize₂ (s.queue v)).countP ((s.nodes v).owes p)) = 0 := by
  have hsame : entryBytes W₂ invSize = entryBytes W₁ invSize := by
    unfold entryBytes
    rw [hbatch]
  have he₁ := exact_iff hmode hp hsize₁ h₁
  have he₂ := exact_iff (hbatch ▸ hinvs ▸ hmode) hp hsize₂ h₂
  rw [hsame, hbatch] at he₂
  rw [← entryBytes, or_and_left, ← he₁, ← he₂]
  constructor
  · rintro ⟨heq, hexact⟩
    exact ⟨hexact, heq ▸ hexact⟩
  · rintro ⟨hexact₁, hexact₂⟩
    exact ⟨hexact₁.trans hexact₂.symm, hexact₁⟩

/-- The last two of three messages came from the peer, so no last sub-batch has an entry. -/
theorem staggerTick_bytes_three : ∃ s₁ s₂,
    (waiting 3 fun m => decide (0 < m.val)).staggerTick (twoNodes 1 false) 1000 0 1000 = some s₁ ∧
    (waiting 3 fun m => decide (0 < m.val)).staggerTick (twoNodes 2 false) 1000 0 1000 = some s₂ ∧
    bytesTo (waiting 3 fun m => decide (0 < m.val)) s₁ 1 =
      bytesTo (waiting 3 fun m => decide (0 < m.val)) s₂ 1 := by
  obtain ⟨s₁, hs₁⟩ := Option.isSome_iff_exists.1 (by decide +kernel : ((waiting 3 fun m =>
    decide (0 < m.val)).staggerTick (twoNodes 1 false) 1000 0 1000).isSome = true)
  obtain ⟨s₂, hs₂⟩ := Option.isSome_iff_exists.1 (by decide +kernel : ((waiting 3 fun m =>
    decide (0 < m.val)).staggerTick (twoNodes 2 false) 1000 0 1000).isSome = true)
  have hone : calculateSubBatchSize 1000 10 (twoNodes 1 false : World 2 3).algo.minBatchSize
      ((waiting 3 fun m => decide (0 < m.val)).queue 0).length = some ↑(1 : Nat) := by
    decide
  have htwo : calculateSubBatchSize 1000 10 (twoNodes 2 false : World 2 3).algo.minBatchSize
      ((waiting 3 fun m => decide (0 < m.val)).queue 0).length = some ↑(2 : Nat) := by
    decide
  have hbatch : (twoNodes 2 false : World 2 3).algo.sendBatchUpdates =
      (twoNodes 1 false : World 2 3).algo.sendBatchUpdates := rfl
  have hiff := staggerTick_bytes_iff (p := 1) (.inr rfl) hbatch rfl hone htwo hs₁ hs₂ (by decide)
  exact ⟨s₁, s₂, hs₁, hs₂, (hiff.2 (.inr (by decide +kernel))).1⟩

/-- Two entries are 25 bytes in two sub-batches, and 34 in one. -/
theorem tick_bytes_differ : ∃ s₁ s₂,
    (waiting 2 fun _ => false).staggerTick (twoNodes 1 false) 1000 0 1000 = some s₁ ∧
    (waiting 2 fun _ => false).staggerTick (twoNodes 2 false) 1000 0 1000 = some s₂ ∧
    bytesTo (waiting 2 fun _ => false) s₁ 1 = 25 ∧ bytesTo (waiting 2 fun _ => false) s₂ 1 = 34 ∧
    ¬(bytesTo (waiting 2 fun _ => false) s₁ 1 = bytesTo (waiting 2 fun _ => false) s₂ 1 ∧
      bytesTo (waiting 2 fun _ => false) s₁ 1 = .ofNat (invSize *
        (List.finRange 2).countP (((waiting 2 fun _ => false).nodes 0).owes 1))) := by
  obtain ⟨s₁, hs₁, h₁⟩ := (Option.any_eq_true _ _).1 (by decide +kernel :
    ((waiting 2 fun _ => false).staggerTick (twoNodes 1 false) 1000 0 1000).any
      (fun s => bytesTo (waiting 2 fun _ => false) s 1 == 25) = true)
  obtain ⟨s₂, hs₂, h₂⟩ := (Option.any_eq_true _ _).1 (by decide +kernel :
    ((waiting 2 fun _ => false).staggerTick (twoNodes 2 false) 1000 0 1000).any
      (fun s => bytesTo (waiting 2 fun _ => false) s 1 == 34) = true)
  have hb₁ := beq_iff_eq.1 h₁
  have hb₂ := beq_iff_eq.1 h₂
  refine ⟨s₁, s₂, hs₁, hs₂, hb₁, hb₂, fun h => ?_⟩
  rw [hb₁, hb₂] at h
  exact absurd h.1 (by decide)

end Sim

end LnConv.Lnsim
