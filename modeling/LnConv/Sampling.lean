import LnConv.Reservoir
import Mathlib.Algebra.BigOperators.Fin
import Mathlib.Data.Finset.Powerset
import Mathlib.Data.List.GetD
import Mathlib.Data.List.Perm.Basic
import Mathlib.Data.Nat.Factorial.Basic
import Mathlib.Tactic.Ring

/-!
# Uniform samples

The draws of a run are equally likely, so the sample is uniform if each set of positions is kept
in the same number of runs. The induction is on the draws: a run with one more either leaves the
sample alone or puts the new position in the place of a kept one.
-/

namespace LnConv

namespace Reservoir

/-- The draws of `m` observations past the warm-up: observation `c + i` draws from `0..=c + i`. -/
abbrev DrawSeq (c m : Nat) : Type := (i : Fin m) → Fin (c + i + 1)

/-- A generator with these draws. -/
def ofSeq {c m : Nat} (d : DrawSeq c m) : Draws where
  draw k := if h : c ≤ k ∧ k - c < m then d ⟨k - c, h.2⟩ else 0
  draw_le k := by
    split
    · next h =>
      have := (d ⟨k - c, h.2⟩).isLt
      simp only at this
      omega
    · exact Nat.zero_le k

/-- The positions, among `n` observed, of the items kept. -/
def kept (c : Nat) (rng : Draws) (n : Nat) : List Nat :=
  ((new c rng).observeAll (List.range n)).buf

def sample {c m : Nat} (d : DrawSeq c m) : List Nat := kept c (ofSeq d) (c + m)

/-- The effect of a draw on a full buffer. -/
def replaced (l : List Nat) (j x : Nat) : List Nat := if j < l.length then l.set j x else l

/-! ## The positions kept -/

theorem kept_succ (c : Nat) (rng : Draws) (n : Nat) : kept c rng (n + 1) =
    if n < c then kept c rng n ++ [n] else replaced (kept c rng n) (rng.draw n) n := by
  obtain ⟨hcap, hseen, hrng, hlen, -⟩ := observeAll_new c rng (List.range n)
  rw [List.length_range] at hseen hlen
  rw [kept, List.range_succ, observeAll_concat]
  simp only [observe, hcap, hseen, hrng, replaced, kept, hlen]
  rcases Nat.lt_or_ge n c with hlt | hge
  · rw [if_pos (by omega), if_pos hlt]
  · simp only [Nat.min_eq_left hge, Nat.lt_irrefl, if_false, if_neg (Nat.not_lt.2 hge)]

theorem length_kept (c : Nat) (rng : Draws) (n : Nat) : (kept c rng n).length = min c n := by
  rw [kept, (observeAll_new c rng (List.range n)).2.2.2.1, List.length_range]

theorem mem_set_iff {l : List Nat} (hl : l.Nodup) {j : Nat} (hj : j < l.length) (x y : Nat) :
    y ∈ l.set j x ↔ y = x ∨ y ∈ l ∧ y ≠ l[j] := by
  rw [(List.set_perm_cons_eraseIdx hj x).mem_iff, List.mem_cons, ← hl.erase_getElem,
    hl.mem_erase_iff, and_comm]

theorem nodup_replaced {l : List Nat} (hl : l.Nodup) {x : Nat} (hx : x ∉ l) (j : Nat) :
    (replaced l j x).Nodup := by
  unfold replaced
  split
  · next hj =>
    rw [(List.set_perm_cons_eraseIdx hj x).nodup_iff, List.nodup_cons]
    exact ⟨fun h => hx (List.mem_of_mem_eraseIdx h), hl.eraseIdx j⟩
  · exact hl

theorem kept_positions (c : Nat) (rng : Draws) (n : Nat) :
    (kept c rng n).Nodup ∧ ∀ i ∈ kept c rng n, i < n := by
  induction n with
  | zero => simp [kept, new]
  | succ n ih =>
    obtain ⟨hnodup, hlt⟩ := ih
    have hfresh : n ∉ kept c rng n := fun h => Nat.lt_irrefl n (hlt n h)
    rw [kept_succ]
    split
    · refine ⟨?_, fun i hi => ?_⟩
      · simpa [List.nodup_append] using ⟨hnodup, fun i hi h => hfresh (h ▸ hi)⟩
      · rcases List.mem_append.1 hi with hi | hi
        · exact Nat.lt_succ_of_lt (hlt i hi)
        · rw [List.mem_singleton.1 hi]; exact Nat.lt_succ_self n
    · refine ⟨nodup_replaced hnodup hfresh _, fun i hi => ?_⟩
      unfold replaced at hi
      split at hi
      · rcases List.mem_or_eq_of_mem_set hi with hi | rfl
        · exact Nat.lt_succ_of_lt (hlt i hi)
        · exact Nat.lt_succ_self i
      · exact Nat.lt_succ_of_lt (hlt i hi)

/-- Only the draws past the warm-up matter. -/
theorem kept_congr {c : Nat} {rng rng' : Draws} {n : Nat}
    (h : ∀ k, c ≤ k → k < n → rng.draw k = rng'.draw k) : kept c rng n = kept c rng' n := by
  induction n with
  | zero => rfl
  | succ n ih =>
    rw [kept_succ, kept_succ, ih fun k hk hlt => h k hk (Nat.lt_succ_of_lt hlt)]
    rcases Nat.lt_or_ge n c with hlt | hge
    · rw [if_pos hlt, if_pos hlt]
    · rw [if_neg (Nat.not_lt.2 hge), if_neg (Nat.not_lt.2 hge), h n hge (Nat.lt_succ_self n)]

/-- What is kept of `xs` are the items at the positions kept. -/
theorem buf_observeAll_map {α β : Type} (f : α → β) (c : Nat) (rng : Draws) (xs : List α) :
    ((new c rng).observeAll (xs.map f)).buf = ((new c rng).observeAll xs).buf.map f := by
  induction xs using List.reverseRecOn with
  | nil => rfl
  | append_singleton xs x ih =>
    obtain ⟨hcap, hseen, hrng, -⟩ := observeAll_new c rng xs
    obtain ⟨hcap', hseen', hrng', -⟩ := observeAll_new c rng (xs.map f)
    rw [List.length_map] at hseen'
    rw [List.map_append, List.map_singleton, observeAll_concat, observeAll_concat]
    simp only [observe, hcap, hseen, hrng, hcap', hseen', hrng', ih, List.length_map]
    split
    · rw [List.map_append, List.map_singleton]
    · split
      · rw [List.map_set]
      · rfl

/-! ## One more draw -/

section draw

variable {c m : Nat}

theorem ofSeq_draw (d : DrawSeq c m) (i : Fin m) : (ofSeq d).draw (c + i) = d i := by
  have hlt : c + i.1 - c < m := by omega
  have hi : (⟨c + i.1 - c, hlt⟩ : Fin m) = i := Fin.ext (Nat.add_sub_cancel_left ..)
  simp only [ofSeq]
  rw [dif_pos ⟨Nat.le_add_right c i, hlt⟩]
  exact congrArg (fun i => (d i : Nat)) hi

theorem length_sample (d : DrawSeq c m) : (sample d).length = c := by
  rw [sample, length_kept]; omega

theorem sample_succ (d : DrawSeq c (m + 1)) :
    sample d = replaced (sample (Fin.init d)) (d (Fin.last m)) (c + m) := by
  have hold : kept c (ofSeq d) (c + m) = sample (Fin.init d : DrawSeq c m) := by
    refine kept_congr fun k hk hlt => ?_
    obtain ⟨i, rfl⟩ := Nat.exists_eq_add_of_le hk
    have hi : i < m := by omega
    exact (ofSeq_draw d (Fin.castSucc ⟨i, hi⟩)).trans
      (ofSeq_draw (Fin.init d : DrawSeq c m) ⟨i, hi⟩).symm
  have hdraw : (ofSeq d).draw (c + m) = d (Fin.last m) := ofSeq_draw d (Fin.last m)
  rw [sample, ← Nat.add_assoc, kept_succ, if_neg (Nat.not_lt.2 (Nat.le_add_right c m)), hold, hdraw]

/-- The runs with one more draw, by what they were before it. -/
theorem card_filter_succ (P : List Nat → Prop) [DecidablePred P] :
    (Finset.univ.filter fun d : DrawSeq c (m + 1) => P (sample d)).card =
      ∑ d : DrawSeq c m, (Finset.univ.filter fun j : Fin (c + m + 1) =>
        P (replaced (sample d) j (c + m))).card := by
  simp only [Finset.card_filter]
  rw [← Fintype.sum_prod_type_right' fun (j : Fin (c + m + 1)) (d : DrawSeq c m) =>
    if P (replaced (sample d) j (c + m)) then 1 else 0]
  refine (Fintype.sum_equiv (Fin.snocEquiv fun i : Fin (m + 1) => Fin (c + i + 1)) _ _ ?_).symm
  rintro ⟨j, d⟩
  rw [sample_succ]
  simp [Fin.snocEquiv, Fin.init_snoc]

end draw

/-! ## As many runs for every set -/

section count

variable {c m x : Nat} {l : List Nat} {S : Finset Nat}

theorem toFinset_replaced (hl : l.Nodup) {j : Nat} (hj : j < l.length) (x : Nat) :
    (replaced l j x).toFinset = insert x (l.toFinset.erase l[j]) := by
  ext y
  rw [replaced, if_pos hj, List.mem_toFinset, mem_set_iff hl hj, Finset.mem_insert,
    Finset.mem_erase, List.mem_toFinset, and_comm]

theorem insert_erase_eq_iff {L S : Finset Nat} {y : Nat} (hx : x ∈ S) (hxL : x ∉ L) (hy : y ∈ L) :
    insert x (L.erase y) = S ↔ y ∉ S.erase x ∧ L = insert y (S.erase x) := by
  constructor
  · rintro rfl
    have hnot : x ∉ L.erase y := fun h => hxL (Finset.mem_of_mem_erase h)
    rw [Finset.erase_insert hnot]
    exact ⟨Finset.notMem_erase y L, (Finset.insert_erase hy).symm⟩
  · rintro ⟨hnot, rfl⟩
    rw [Finset.erase_insert hnot, Finset.insert_erase hx]

/-- A set without the new position stays the sample when the draw is past the buffer. -/
theorem card_replaced_of_notMem (hl : l.Nodup) (hlen : l.length = c) (hx : x ∉ S) :
    (Finset.univ.filter fun j : Fin (c + m + 1) => (replaced l j x).toFinset = S).card =
      if l.toFinset = S then m + 1 else 0 := by
  have hiff : ∀ j : Fin (c + m + 1),
      (replaced l j x).toFinset = S ↔ l.toFinset = S ∧ ¬ (j : Nat) < c := by
    intro j
    by_cases hj : (j : Nat) < c
    · have hne : (replaced l j x).toFinset ≠ S := by
        rintro rfl
        rw [toFinset_replaced hl (hlen ▸ hj)] at hx
        exact hx (Finset.mem_insert_self ..)
      simp [hj, hne]
    · simp [replaced, hlen, hj]
  simp only [hiff]
  split
  · next h =>
    have hcard := Finset.card_filter_add_card_filter_not (s := Finset.univ)
      (fun j : Fin (c + m + 1) => (j : Nat) < c)
    rw [Fin.card_filter_val_lt, Finset.card_fin] at hcard
    simp only [h, true_and]
    omega
  · next h => simp [h]

/-- A set with the new position is the sample if a kept position was drawn that makes it so. -/
theorem card_replaced_of_mem (hl : l.Nodup) (hlen : l.length = c) (hlt : ∀ i ∈ l, i < c + m)
    (hxl : x ∉ l) (hx : x ∈ S) :
    (Finset.univ.filter fun j : Fin (c + m + 1) => (replaced l j x).toFinset = S).card =
      ((Finset.range (c + m) \ S.erase x).filter fun y => l.toFinset = insert y (S.erase x)).card := by
  have hxL : x ∉ l.toFinset := fun h => hxl (List.mem_toFinset.1 h)
  have hmem : ∀ {j : Nat} (hj : j < l.length), l[j] ∈ l.toFinset := fun hj =>
    List.mem_toFinset.2 (List.getElem_mem hj)
  have hshort : ∀ j : Fin (c + m + 1), (replaced l j x).toFinset = S → (j : Nat) < l.length := by
    intro j hS
    by_contra hj
    rw [replaced, if_neg hj] at hS
    exact hxL (hS ▸ hx)
  refine Finset.card_bij (fun j _ => l.getD j 0) ?_ ?_ ?_
  · intro j hj
    have hS := (Finset.mem_filter.1 hj).2
    have hlen := hshort j hS
    rw [toFinset_replaced hl hlen, insert_erase_eq_iff hx hxL (hmem hlen)] at hS
    rw [List.getD_eq_getElem _ _ hlen, Finset.mem_filter, Finset.mem_sdiff, Finset.mem_range]
    exact ⟨⟨hlt _ (List.getElem_mem hlen), hS.1⟩, hS.2⟩
  · intro j hj j' hj' heq
    have hlen := hshort j (Finset.mem_filter.1 hj).2
    have hlen' := hshort j' (Finset.mem_filter.1 hj').2
    rw [List.getD_eq_getElem _ _ hlen, List.getD_eq_getElem _ _ hlen'] at heq
    exact Fin.ext ((hl.getElem_inj_iff).1 heq)
  · intro y hy
    rw [Finset.mem_filter, Finset.mem_sdiff] at hy
    have hyl : y ∈ l := List.mem_toFinset.1 (hy.2 ▸ Finset.mem_insert_self ..)
    obtain ⟨j, hj, rfl⟩ := List.getElem_of_mem hyl
    refine ⟨⟨j, by omega⟩, Finset.mem_filter.2 ⟨Finset.mem_univ _, ?_⟩, List.getD_eq_getElem _ _ hj⟩
    rw [toFinset_replaced hl hj, insert_erase_eq_iff hx hxL (hmem hj)]
    exact ⟨hy.1.2, hy.2⟩

theorem sample_mem (d : DrawSeq c m) :
    (sample d).toFinset ∈ (Finset.range (c + m)).powersetCard c := by
  obtain ⟨hnodup, hlt⟩ := kept_positions c (ofSeq d) (c + m)
  rw [Finset.mem_powersetCard]
  refine ⟨fun i hi => Finset.mem_range.2 (hlt i (List.mem_toFinset.1 hi)), ?_⟩
  exact (List.toFinset_card_of_nodup hnodup).trans (length_sample d)

/-- The sets that leave room for one more position, and the position that fills it. -/
theorem card_sdiff_erase (hS : S ∈ (Finset.range (c + m + 1)).powersetCard c) (hx : c + m ∈ S) :
    (Finset.range (c + m) \ S.erase (c + m)).card = m + 1 ∧
      ∀ y ∈ Finset.range (c + m) \ S.erase (c + m),
        insert y (S.erase (c + m)) ∈ (Finset.range (c + m)).powersetCard c := by
  obtain ⟨hsub, hcard⟩ := Finset.mem_powersetCard.1 hS
  have hold : S.erase (c + m) ⊆ Finset.range (c + m) := by
    intro i hi
    have hne := Finset.ne_of_mem_erase hi
    have hlt := Finset.mem_range.1 (hsub (Finset.mem_of_mem_erase hi))
    exact Finset.mem_range.2 (by omega)
  have hone := Finset.card_erase_add_one hx
  constructor
  · rw [Finset.card_sdiff_of_subset hold, Finset.card_range]
    omega
  · intro y hy
    obtain ⟨hyr, hyS⟩ := Finset.mem_sdiff.1 hy
    rw [Finset.mem_powersetCard, Finset.card_insert_of_notMem hyS]
    exact ⟨Finset.insert_subset hyr hold, by omega⟩

theorem card_sample_eq (m : Nat) (hS : S ∈ (Finset.range (c + m)).powersetCard c) :
    (Finset.univ.filter fun d : DrawSeq c m => (sample d).toFinset = S).card = m.factorial := by
  induction m generalizing S with
  | zero =>
    have hone : (Finset.range (c + 0)).powersetCard c = {Finset.range c} := by
      simpa using Finset.powersetCard_self (Finset.range c)
    have hall : ∀ d : DrawSeq c 0, (sample d).toFinset = S := by
      intro d
      have hd := sample_mem d
      rw [hone, Finset.mem_singleton] at hS hd
      rw [hS, hd]
    simp [hall]
  | succ m ih =>
    rw [card_filter_succ fun l => l.toFinset = S]
    have hsample : ∀ d : DrawSeq c m, (sample d).Nodup ∧ (∀ i ∈ sample d, i < c + m) ∧
        c + m ∉ sample d := fun d => by
      obtain ⟨hnodup, hlt⟩ := kept_positions c (ofSeq d) (c + m)
      exact ⟨hnodup, hlt, fun h => Nat.lt_irrefl _ (hlt _ h)⟩
    by_cases hx : c + m ∈ S
    · -- one of the `m + 1` positions outside gave its place to the new one
      obtain ⟨hcard, hfill⟩ := card_sdiff_erase hS hx
      calc _ = ∑ d : DrawSeq c m, ((Finset.range (c + m) \ S.erase (c + m)).filter fun y =>
            (sample d).toFinset = insert y (S.erase (c + m))).card :=
            Finset.sum_congr rfl fun d _ => card_replaced_of_mem (hsample d).1 (length_sample d)
              (hsample d).2.1 (hsample d).2.2 hx
        _ = ∑ y ∈ Finset.range (c + m) \ S.erase (c + m), (Finset.univ.filter fun d : DrawSeq c m =>
            (sample d).toFinset = insert y (S.erase (c + m))).card := by
            simp only [Finset.card_filter]
            exact Finset.sum_comm
        _ = ∑ y ∈ Finset.range (c + m) \ S.erase (c + m), m.factorial :=
            Finset.sum_congr rfl fun y hy => ih (hfill y hy)
        _ = (m + 1).factorial := by
            rw [Finset.sum_const, hcard, smul_eq_mul, Nat.factorial_succ]
    · -- the sample was there already, and the draw left it alone
      have hold : S ∈ (Finset.range (c + m)).powersetCard c := by
        obtain ⟨hsub, hcard⟩ := Finset.mem_powersetCard.1 hS
        refine Finset.mem_powersetCard.2 ⟨fun i hi => ?_, hcard⟩
        have hlt := Finset.mem_range.1 (hsub hi)
        have hne : i ≠ c + m := fun h => hx (h ▸ hi)
        exact Finset.mem_range.2 (by omega)
      calc _ = ∑ d : DrawSeq c m, if (sample d).toFinset = S then m + 1 else 0 :=
            Finset.sum_congr rfl fun d _ =>
              card_replaced_of_notMem (hsample d).1 (length_sample d) hx
        _ = (m + 1) * (Finset.univ.filter fun d : DrawSeq c m => (sample d).toFinset = S).card := by
            rw [Finset.card_filter, Finset.mul_sum]
            exact Finset.sum_congr rfl fun d _ => by split <;> simp
        _ = (m + 1).factorial := by rw [ih hold, Nat.factorial_succ]

theorem card_sample_mem (m : Nat) {T : Finset (Finset Nat)}
    (hT : T ⊆ (Finset.range (c + m)).powersetCard c) :
    (Finset.univ.filter fun d : DrawSeq c m => (sample d).toFinset ∈ T).card =
      T.card * m.factorial := by
  have hmaps : ∀ d ∈ Finset.univ.filter fun d : DrawSeq c m => (sample d).toFinset ∈ T,
      (sample d).toFinset ∈ T := fun d hd => (Finset.mem_filter.1 hd).2
  rw [Finset.card_eq_sum_card_fiberwise hmaps, ← smul_eq_mul, ← Finset.sum_const]
  refine Finset.sum_congr rfl fun S hS => ?_
  rw [← card_sample_eq m (hT hS), Finset.filter_filter]
  refine congrArg Finset.card (Finset.filter_congr fun d _ => ?_)
  exact ⟨fun h => h.2, fun h => ⟨h ▸ hS, h⟩⟩

theorem card_drawSeq (c m : Nat) :
    Fintype.card (DrawSeq c m) = (c + m).choose c * m.factorial := by
  have hall := card_sample_mem m (Finset.Subset.refl ((Finset.range (c + m)).powersetCard c))
  rw [Finset.card_powersetCard, Finset.card_range] at hall
  rw [← hall, ← Finset.card_univ]
  exact congrArg Finset.card (Finset.filter_true_of_mem fun d _ => sample_mem d).symm

/-- The runs that lose a position are those that keep a set without it. -/
theorem card_sample_notMem (m : Nat) {i : Nat} (hi : i < c + m) :
    (Finset.univ.filter fun d : DrawSeq c m => i ∉ sample d).card =
      (c + m - 1).choose c * m.factorial := by
  have hsub : ((Finset.range (c + m)).erase i).powersetCard c ⊆
      (Finset.range (c + m)).powersetCard c := Finset.powersetCard_mono (Finset.erase_subset ..)
  have hcard := Finset.card_erase_of_mem (Finset.mem_range.2 hi)
  rw [Finset.card_range] at hcard
  rw [← hcard, ← Finset.card_powersetCard, ← card_sample_mem m hsub]
  refine congrArg Finset.card (Finset.filter_congr fun d _ => ?_)
  obtain ⟨hsample, hsize⟩ := Finset.mem_powersetCard.1 (sample_mem d)
  rw [Finset.mem_powersetCard, Finset.subset_erase, List.mem_toFinset]
  exact ⟨fun h => ⟨⟨hsample, h⟩, hsize⟩, fun h => h.1.2⟩

theorem card_sample_position (m : Nat) {i : Nat} (hi : i < c + m) :
    (Finset.univ.filter fun d : DrawSeq c m => i ∈ sample d).card * (c + m) =
      c * Fintype.card (DrawSeq c m) := by
  have hsplit := Finset.card_filter_add_card_filter_not (s := Finset.univ)
    (fun d : DrawSeq c m => i ∈ sample d)
  rw [Finset.card_univ, card_sample_notMem m hi, card_drawSeq] at hsplit
  rw [card_drawSeq]
  obtain ⟨k, hk⟩ : ∃ k, c + m = k + 1 := ⟨c + m - 1, by omega⟩
  rw [hk, Nat.add_sub_cancel] at hsplit
  rw [hk]
  generalize (Finset.univ.filter fun d : DrawSeq c m => i ∈ sample d).card = kept at hsplit ⊢
  have hchoose : k.choose c * (k + 1) = (k + 1).choose c * m := by
    rw [Nat.choose_mul_succ_eq, ← hk, Nat.add_sub_cancel_left]
  -- of all the runs, `m` of every `k + 1` lose the position
  have htotal : kept * (k + 1) + (k + 1).choose c * m * m.factorial =
      (k + 1).choose c * m.factorial * (k + 1) := by
    rw [← hchoose, ← hsplit]
    ring
  have hexpand : (k + 1).choose c * m.factorial * (k + 1) =
      c * ((k + 1).choose c * m.factorial) + (k + 1).choose c * m * m.factorial := by
    nth_rewrite 2 [← hk]
    ring
  omega

end count

/-- Every generator keeps items at different positions, and counts them all. -/
theorem observeAll_positions {α : Type} (c : Nat) (rng : Draws) (xs : List α) :
    ((new c rng).observeAll xs).buf.map some = (kept c rng xs.length).map fun i => xs[i]? := by
  have hxs : xs.map some = (List.range xs.length).map fun i => xs[i]? := by
    apply List.ext_getElem <;> simp
  rw [← buf_observeAll_map, hxs, buf_observeAll_map, kept]

/-- After `c + m` observations every set of `c` positions is the sample in `m!` of the draw
sequences, so each position is kept in `c` of every `c + m`. Whatever is drawn, the buffer holds
the items at different positions, as many as there is room for, and `seen` counts them all. -/
theorem sampling_uniform (c m : Nat) :
    (∀ S ⊆ Finset.range (c + m), S.card = c →
      (Finset.univ.filter fun d : DrawSeq c m => (sample d).toFinset = S).card = m.factorial) ∧
    (∀ i < c + m, (Finset.univ.filter fun d : DrawSeq c m => i ∈ sample d).card * (c + m) =
      c * Fintype.card (DrawSeq c m)) ∧
    (∀ {α : Type} (xs : List α) (d : DrawSeq c m), xs.length = c + m →
      ((new c (ofSeq d)).observeAll xs).buf.map some = (sample d).map fun i => xs[i]?) ∧
    ∀ {α : Type} (xs : List α) (rng : Draws),
      ((new c rng).observeAll xs).buf.length = min c xs.length ∧
      ((new c rng).observeAll xs).seen = xs.length ∧
      ∃ positions : List Nat, positions.Nodup ∧ (∀ i ∈ positions, i < xs.length) ∧
        ((new c rng).observeAll xs).buf.map some = positions.map fun i => xs[i]? := by
  refine ⟨fun S hsub hcard => card_sample_eq m (Finset.mem_powersetCard.2 ⟨hsub, hcard⟩),
    fun i hi => card_sample_position m hi, fun xs d hlen => ?_, fun xs rng => ?_⟩
  · rw [observeAll_positions, hlen, sample]
  · obtain ⟨-, hseen, -, hlen, -⟩ := observeAll_new c rng xs
    obtain ⟨hnodup, hlt⟩ := kept_positions c rng xs.length
    exact ⟨hlen, hseen, _, hnodup, hlt, observeAll_positions c rng xs⟩

end Reservoir

end LnConv
