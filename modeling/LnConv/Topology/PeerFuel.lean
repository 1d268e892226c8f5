import LnConv.Topology.PeerSpec

/-!
# The peer graph is built

`pick_strangers` asks for no more vertices than there are, so under a fair generator every
rejection loop ends, and with enough fuel the construction has a result.
-/

namespace LnConv

/-- Every number below `k` keeps coming up. -/
def Rng.Fair (k : Nat) (rng : Rng) : Prop := ∀ n, ∀ i < k, ∃ m ≥ n, rng.outcome m % k = i

namespace Graph

open Filter

variable {n target : Nat} {excluded : Finset Nat}

theorem pickLoop_full {picked : Finset Nat} {rng : Rng} (h : target ≤ picked.card) (fuel : Nat) :
    pickLoop n excluded target fuel picked rng = some (picked, rng) := by
  cases fuel <;> exact if_neg (Nat.not_lt_of_le h)

theorem pickLoop_succ {picked : Finset Nat} {rng : Rng} (h : picked.card < target) (hn : 0 < n)
    (fuel : Nat) : pickLoop n excluded target (fuel + 1) picked rng =
      if rng.outcome rng.used % n ∈ excluded ∨ rng.outcome rng.used % n ∈ picked then
        pickLoop n excluded target fuel picked { rng with used := rng.used + 1 }
      else pickLoop n excluded target fuel (insert (rng.outcome rng.used % n) picked)
        { rng with used := rng.used + 1 } := by
  apply (if_pos h).trans
  rw [Rng.randomRange, if_neg (Nat.ne_of_gt hn)]
  rfl

/-- One candidate that the generator will come to is enough to get on. -/
theorem pickLoop_next {picked : Finset Nat} (hlt : picked.card < target) {c m : Nat} (hc : c < n)
    (hfree : c ∉ excluded ∧ c ∉ picked) {rng : Rng} (hm : rng.used ≤ m)
    (hout : rng.outcome m % n = c)
    (hnext : ∀ v < n, v ∉ excluded → v ∉ picked → ∀ used, ∃ r : Finset Nat × Rng,
      r.2.outcome = rng.outcome ∧ ∀ᶠ fuel in atTop,
        pickLoop n excluded target fuel (insert v picked) ⟨rng.outcome, used⟩ = some r) :
    ∃ r : Finset Nat × Rng, r.2.outcome = rng.outcome ∧
      ∀ᶠ fuel in atTop, pickLoop n excluded target fuel picked rng = some r := by
  have hn : 0 < n := Nat.zero_lt_of_lt hc
  -- on how far the generator is from that candidate
  induction hd : m - rng.used generalizing rng with
  | zero =>
    obtain rfl : rng.used = m := by omega
    obtain ⟨r, hr, hF⟩ := hnext c hc hfree.1 hfree.2 (rng.used + 1)
    obtain ⟨F, hF⟩ := eventually_atTop.1 hF
    refine ⟨r, hr, eventually_atTop.2 ⟨F + 1, fun fuel hfuel => ?_⟩⟩
    obtain ⟨fuel, rfl⟩ : ∃ f, fuel = f + 1 := ⟨fuel - 1, by omega⟩
    rw [pickLoop_succ hlt hn, hout, if_neg (not_or.2 hfree)]
    exact hF fuel (by omega)
  | succ d ih =>
    have hstep : ∃ r : Finset Nat × Rng, r.2.outcome = rng.outcome ∧ ∀ᶠ fuel in atTop,
        pickLoop n excluded target (fuel + 1) picked rng = some r := by
      simp only [pickLoop_succ hlt hn]
      split
      · apply @ih { rng with used := rng.used + 1 } _ hout hnext
        · show m - (rng.used + 1) = d
          omega
        · show rng.used + 1 ≤ m
          omega
      · next hv =>
        obtain ⟨hv, hv'⟩ := not_or.1 hv
        exact hnext _ (Nat.mod_lt _ hn) hv hv' (rng.used + 1)
    obtain ⟨r, hr, hF⟩ := hstep
    obtain ⟨F, hF⟩ := eventually_atTop.1 hF
    refine ⟨r, hr, eventually_atTop.2 ⟨F + 1, fun fuel hfuel => ?_⟩⟩
    obtain ⟨fuel, rfl⟩ : ∃ f, fuel = f + 1 := ⟨fuel - 1, by omega⟩
    exact hF fuel (by omega)

theorem pickLoop_eventually (h : target ≤ (Finset.range n \ excluded).card) {rng : Rng}
    (hfair : rng.Fair n) {picked : Finset Nat} (hp : picked ⊆ Finset.range n \ excluded) :
    ∃ r : Finset Nat × Rng, r.2.outcome = rng.outcome ∧
      ∀ᶠ fuel in atTop, pickLoop n excluded target fuel picked rng = some r := by
  -- on how many are missing
  induction hk : target - picked.card generalizing rng picked with
  | zero => exact ⟨(picked, rng), rfl, Eventually.of_forall (pickLoop_full (by omega))⟩
  | succ k ih =>
    have hlt : picked.card < target := by omega
    obtain ⟨c, hc, hcp⟩ := Finset.exists_mem_notMem_of_card_lt_card (hlt.trans_le h)
    obtain ⟨hcn, hce⟩ := Finset.mem_sdiff.1 hc
    obtain ⟨m, hm, hout⟩ := hfair rng.used c (Finset.mem_range.1 hcn)
    apply pickLoop_next hlt (Finset.mem_range.1 hcn) ⟨hce, hcp⟩ hm hout
    intro v hv he hp' used
    refine @ih ⟨rng.outcome, used⟩ hfair (insert v picked) ?_ ?_
    · rw [Finset.insert_subset_iff]
      exact ⟨Finset.mem_sdiff.2 ⟨Finset.mem_range.2 hv, he⟩, hp⟩
    · rw [Finset.card_insert_of_notMem hp']
      omega

theorem pickStrangers_eventually {o : HashOrder} {site : Site} {count : Nat} {rng : Rng}
    (hfair : rng.Fair n) : ∃ r : List Nat × Rng, r.2.Fair n ∧
      ∀ᶠ fuel in atTop, pickStrangers fuel o site n excluded count rng = some r := by
  have hle : min count (n - excluded.card) ≤ (Finset.range n \ excluded).card := by
    have hsdiff := Finset.le_card_sdiff excluded (Finset.range n)
    rw [Finset.card_range] at hsdiff
    omega
  obtain ⟨r, hr, hF⟩ := pickLoop_eventually hle hfair (Finset.empty_subset _)
  refine ⟨(o.iter site r.1, r.2), fun a i hi => hr ▸ hfair a i hi, ?_⟩
  filter_upwards [hF] with fuel hF
  unfold pickStrangers
  simp [hF]

variable [IndexSample] {A : Type} {o : HashOrder} {t : Topology A} {kFor maxPeerFor : A → Nat}

theorem pickNode_eventually {nx : Nat} (hnx : nx < t.nodes.length) {rng : Rng}
    (hfair : rng.Fair t.nodes.length) :
    ∃ r : NodePicks × Rng, r.2.Fair t.nodes.length ∧
      ∀ᶠ fuel in atTop, pickNode fuel o t kFor maxPeerFor nx rng = some r := by
  have hkept : ∀ (isHub : Bool) (xs : List Nat) (amount : Nat),
      (if isHub then chooseMultiple xs rng amount else (xs, rng)).2.Fair t.nodes.length := by
    intro isHub xs amount
    cases isHub with
    | false => exact hfair
    | true =>
      intro a i hi
      rw [if_pos rfl, chooseMultiple, IndexSample.outcome]
      exact hfair a i hi
  unfold pickNode
  simp only [List.getElem?_eq_getElem hnx, Option.bind_some]
  by_cases hc : strangerCount (decide ((o.iter (.counterparties nx) (t.counterparties nx)).length >
      maxPeerFor t.nodes[nx].algo)) (kFor t.nodes[nx].algo)
      (o.iter (.counterparties nx) (t.counterparties nx)).length > 0
  · simp only [hc, if_true]
    refine (pickStrangers_eventually (hkept _ _ _)).elim fun r h => ⟨_, ?_, eventually_map _ h.2⟩
    exact h.1
  · simp only [hc, if_false]
    exact ⟨_, hkept _ _ _, Eventually.of_forall fun _ => rfl⟩

theorem pickNodes_eventually {n : Nat} (hn : n ≤ t.nodes.length) {rng : Rng}
    (hfair : rng.Fair t.nodes.length) :
    ∃ r : List NodePicks × Rng, r.2.Fair t.nodes.length ∧
      ∀ᶠ fuel in atTop, pickNodes fuel o t kFor maxPeerFor n rng = some r := by
  unfold pickNodes
  refine eventually_foldlM (P := fun s : List NodePicks × Rng => s.2.Fair t.nodes.length)
    (fun s nx hx hs => ?_) hfair
  have hlt : nx < t.nodes.length := (List.mem_range.1 hx).trans_le hn
  refine (pickNode_eventually hlt hs).elim fun r h => ⟨_, ?_, eventually_map _ h.2⟩
  exact h.1

/-- A fair generator makes every rejection loop end. -/
theorem buildPeerGraph_eventually {rng : Rng} (hfair : rng.Fair t.nodes.length) {enforceHubCap : Bool} :
    ∃ r, ∀ᶠ fuel in atTop, buildPeerGraph fuel o t kFor maxPeerFor rng enforceHubCap = some r := by
  unfold buildPeerGraph
  by_cases hn : t.nodes.length < 2
  · exact ⟨_, Eventually.of_forall fun _ => if_pos hn⟩
  simp only [hn, if_false]
  obtain ⟨r, hr, hF⟩ := pickNodes_eventually (o := o) (Nat.le_refl t.nodes.length) hfair
  cases enforceHubCap with
  | false =>
    exact ⟨_, eventually_bind hF (Eventually.of_forall fun _ => rfl)⟩
  | true =>
    let f := fun fuel => replaceFor (A := A) (hubKeptOf true r.1) fuel o t.nodes.length
    let b := addPicks true (hubKeptOf true r.1) r.1 ⟨t, List.replicate t.nodes.length 0, ⟨0, 0⟩⟩
    have hstep : ∀ s, ∀ x ∈ b.droppedPerNode.zipIdx, s.2.Fair t.nodes.length →
        ∃ s', s'.2.Fair t.nodes.length ∧ ∀ᶠ fuel in atTop, f fuel s x = some s' := by
      intro s x _ hsf
      by_cases hx : x.1 = 0
      · exact ⟨s, hsf, Eventually.of_forall fun _ => if_pos hx⟩
      · simp only [f, replaceFor, hx, if_false]
        refine (pickStrangers_eventually hsf).elim fun p h =>
          ⟨_, ?_, eventually_bind h.2 (Eventually.of_forall fun _ => rfl)⟩
        exact h.1
    obtain ⟨s, -, hs⟩ := eventually_foldlM (s := ((b.topology, b.stats), r.2)) hstep hr
    exact ⟨_, eventually_bind hF (eventually_map _ hs)⟩

end Graph

end LnConv
