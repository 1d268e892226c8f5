import LnConv.Tracker

/-!
# Runs of one key

The tracker treats each channel key on its own. Along a run a message collects its
tuples until it is closed, and once the newest version of a key has been seen nothing
of this key is superseded any more.
-/

namespace LnConv

namespace Tracker

variable {n : Nat} {I : Identity} {t t' : Tracker n} {x : Sighting n} {i id : MsgId} {k : Nat}

/-! ## Keys do not interfere -/

def ofKey (I : Identity) (k : Nat) (l : List (Sighting n)) : List (Sighting n) :=
  l.filter fun x => I.key x.gossip.id = some k

theorem ofKey_append (l m : List (Sighting n)) : ofKey I k (l ++ m) = ofKey I k l ++ ofKey I k m :=
  List.filter_append ..

theorem ofKey_cons (x : Sighting n) (l : List (Sighting n)) : ofKey I k (x :: l) =
    if I.key x.gossip.id = some k then x :: ofKey I k l else ofKey I k l := by
  simp [ofKey, List.filter_cons]

theorem mem_ofKey {l : List (Sighting n)} : x ∈ ofKey I k l ↔ x ∈ l ∧ I.key x.gossip.id = some k := by
  simp [ofKey]

structure AgreeAt (I : Identity) (k : Nat) (t t' : Tracker n) : Prop where
  latest : t.latest k = t'.latest k
  phase : ∀ i, I.key i = some k → t.phase i = t'.phase i

theorem AgreeAt.advance (h : AgreeAt I k t t') (hid : I.key id = some k) :
    AgreeAt I k (t.advance I id) (t'.advance I id) := by
  simp only [Tracker.advance, hid, h.latest]
  split
  · refine ⟨by simp [supersede], fun i hi => ?_⟩
    simp only [supersede, h.phase i hi]
  · exact h

theorem agreeAt_advance (hid : I.key id ≠ some k) : AgreeAt I k (t.advance I id) t := by
  unfold Tracker.advance
  split
  · next k' hk' =>
    have hne : k ≠ k' := by rintro rfl; exact hid hk'
    split
    · refine ⟨by simp [supersede, hne], fun i hi => ?_⟩
      simp [supersede, hi, hne]
    · exact ⟨rfl, fun _ _ => rfl⟩
  · exact ⟨rfl, fun _ _ => rfl⟩

theorem AgreeAt.step (h : AgreeAt I k t t') (hx : I.key x.gossip.id = some k) :
    AgreeAt I k (t.step I x) (t'.step I x) := by
  simp only [Tracker.step, h.phase _ hx]
  split
  · exact h
  · have ha := h.advance hx
    refine ⟨ha.latest, fun i hi => ?_⟩
    by_cases hix : i = x.gossip.id
    · subst hix; simp [ha.phase _ hi]
    · simp [hix, ha.phase i hi]

theorem agreeAt_step (hx : I.key x.gossip.id ≠ some k) : AgreeAt I k (t.step I x) t := by
  unfold Tracker.step
  dsimp only
  split
  · exact ⟨rfl, fun _ _ => rfl⟩
  · have ha := agreeAt_advance (t := t) hx
    refine ⟨ha.latest, fun i hi => ?_⟩
    have hne : i ≠ x.gossip.id := by rintro rfl; exact hx hi
    simp [hne, ha.phase i hi]

/-- What happens to a key is decided by its own sightings. -/
theorem agreeAt_ofKey (l : List (Sighting n)) : AgreeAt I k (run I l) (run I (ofKey I k l)) := by
  induction l using List.reverseRecOn with
  | nil => exact ⟨rfl, fun _ _ => rfl⟩
  | append_singleton l x ih =>
    rw [run_concat, ofKey_append, ofKey_cons]
    by_cases hx : I.key x.gossip.id = some k
    · rw [if_pos hx, show ofKey I k [] = ([] : List (Sighting n)) from rfl, run_concat]
      exact ih.step hx
    · have hstep := agreeAt_step (t := run I l) hx
      rw [if_neg hx, show ofKey I k [] = ([] : List (Sighting n)) from rfl, List.append_nil]
      exact ⟨hstep.latest.trans ih.latest, fun i hi => (hstep.phase i hi).trans (ih.phase i hi)⟩

theorem phase_advance_of_key_none (hi : I.key i = none) : (t.advance I id).phase i = t.phase i := by
  unfold Tracker.advance
  split
  · split
    · simp [supersede, hi]
    · rfl
  · rfl

/-- A message without a channel key is not superseded. -/
theorem isSuperseded_of_key_none (hi : I.key i = none) (l : List (Sighting n)) :
    ((run I l).phase i).isSuperseded = false := by
  induction l using List.reverseRecOn with
  | nil => rfl
  | append_singleton l x ih =>
    rw [run_concat]
    by_cases hc : ((run I l).phase x.gossip.id).isClosed
    · simpa [step, hc] using ih
    · simp only [Bool.not_eq_true] at hc
      by_cases hix : i = x.gossip.id
      · subst hix
        rw [phase_step_self hc, isSuperseded_record hc]
      · rw [phase_step_of_ne hc hix, phase_advance_of_key_none hi, ih]

end Tracker

/-! ## What a message collects -/

section Seen

variable {n : Nat} {I : Identity}

/-- The entry of a message that was recorded for the tuples `xs`. -/
structure Seen (xs : List (Sighting n)) (m : MsgInflight n) : Prop where
  coverage : m.coverage = xs.length
  times : ∀ x ∈ xs, m.times x.node = x.timeNs
  rest : ∀ v, (∀ x ∈ xs, x.node ≠ v) → m.times v = NOT_SEEN
  origin_le : ∀ x ∈ xs, m.originNs ≤ x.timeNs
  origin_mem : ∃ x ∈ xs, m.originNs = x.timeNs
  size : ∃ x ∈ xs.head?, m.sizeBytes = x.gossip.sizeBytes

theorem Seen.length_pos {xs : List (Sighting n)} {m : MsgInflight n} (h : Seen xs m) :
    0 < xs.length := by
  obtain ⟨x, hx, -⟩ := h.size
  exact List.length_pos_of_mem (List.mem_of_mem_head? hx)

theorem Seen.new (x : Sighting n) :
    Seen [x] ((MsgInflight.new n x.timeNs x.gossip.sizeBytes).see x.node x.timeNs) where
  coverage := rfl
  times := by simp [MsgInflight.see]
  rest v hv := by
    have : v ≠ x.node := (hv x (List.mem_singleton.2 rfl)).symm
    simp [MsgInflight.see, MsgInflight.new, this]
  origin_le := by simp [MsgInflight.see, MsgInflight.new]
  origin_mem := ⟨x, by simp, by simp [MsgInflight.see, MsgInflight.new]⟩
  size := ⟨x, rfl, rfl⟩

theorem Seen.see {xs : List (Sighting n)} {m : MsgInflight n} (h : Seen xs m) {x : Sighting n}
    (hx : ∀ y ∈ xs, y.node ≠ x.node) : Seen (xs ++ [x]) (m.see x.node x.timeNs) where
  coverage := by simp [MsgInflight.see, h.coverage]
  times y hy := by
    rcases List.mem_append.1 hy with hy | hy
    · simp [MsgInflight.see, hx y hy, h.times y hy]
    · cases List.mem_singleton.1 hy; simp [MsgInflight.see]
  rest v hv := by
    have hne : v ≠ x.node := (hv x (by simp)).symm
    simp [MsgInflight.see, hne, h.rest v fun y hy => hv y (List.mem_append_left _ hy)]
  origin_le y hy := by
    simp only [MsgInflight.see]
    rcases List.mem_append.1 hy with hy | hy
    · have := h.origin_le y hy
      split <;> omega
    · cases List.mem_singleton.1 hy
      split <;> omega
  origin_mem := by
    simp only [MsgInflight.see]
    split
    · exact ⟨x, by simp, rfl⟩
    · obtain ⟨y, hy, he⟩ := h.origin_mem
      exact ⟨y, List.mem_append_left _ hy, he⟩
  size := by
    obtain ⟨y, hy, he⟩ := h.size
    refine ⟨y, ?_, he⟩
    rw [List.head?_append, Option.mem_def.1 hy]
    rfl

/-- The order of the tuples does not matter, if they agree on the size. -/
theorem Seen.eq_of_perm {xs ys : List (Sighting n)} {m m' : MsgInflight n} (h : Seen xs m)
    (h' : Seen ys m') (hp : xs.Perm ys)
    (hsize : ∀ x ∈ xs, ∀ y ∈ xs, x.gossip.sizeBytes = y.gossip.sizeBytes) : m = m' := by
  have htimes : m.times = m'.times := by
    funext v
    by_cases hv : ∃ x ∈ xs, x.node = v
    · obtain ⟨x, hx, rfl⟩ := hv
      rw [h.times x hx, h'.times x (hp.mem_iff.1 hx)]
    · push Not at hv
      rw [h.rest v hv, h'.rest v fun y hy => hv y (hp.mem_iff.2 hy)]
  have horigin : m.originNs = m'.originNs := by
    obtain ⟨x, hx, ex⟩ := h.origin_mem
    obtain ⟨y, hy, ey⟩ := h'.origin_mem
    have h₁ := h.origin_le y (hp.mem_iff.2 hy)
    have h₂ := h'.origin_le x (hp.mem_iff.1 hx)
    omega
  obtain ⟨x, hx, ex⟩ := h.size
  obtain ⟨y, hy, ey⟩ := h'.size
  have hxy := hsize x (List.mem_of_mem_head? hx) y (hp.mem_iff.2 (List.mem_of_mem_head? hy))
  have hcov : m.coverage = m'.coverage := by rw [h.coverage, h'.coverage, hp.length_eq]
  cases m; cases m'
  simp_all

/-- A phase of a message with the tuples `xs`: it stopped collecting when it was closed. -/
def Phase.Traces (xs : List (Sighting n)) : Phase n → Prop
  | unseen => xs = []
  | live m => Seen xs m ∧ m.coverage ≠ n
  | closed m b => ∃ xs', xs' <+: xs ∧ Seen xs' m ∧ (b = false → m.coverage = n)

theorem Phase.traces_ofInflight {xs : List (Sighting n)} {m : MsgInflight n} (h : Seen xs m) :
    (Phase.ofInflight m).Traces xs := by
  unfold ofInflight
  split
  · next hc => exact ⟨xs, List.prefix_refl xs, h, fun _ => hc⟩
  · next hc => exact ⟨h, hc⟩

theorem Phase.Traces.record {xs : List (Sighting n)} {p : Phase n} (h : p.Traces xs)
    {x : Sighting n} (hx : ∀ y ∈ xs, y.node ≠ x.node) : (p.record x).Traces (xs ++ [x]) := by
  cases p with
  | unseen =>
    cases (h : xs = [])
    exact traces_ofInflight (.new x)
  | live m =>
    simp only [Phase.record, h.1.rest x.node hx, ne_eq, not_true_eq_false, if_false]
    exact traces_ofInflight (h.1.see hx)
  | closed m b =>
    obtain ⟨xs', hpre, hs⟩ := h
    exact ⟨xs', hpre.trans (List.prefix_append _ _), hs⟩

theorem Phase.Traces.append_of_closed {xs : List (Sighting n)} {p : Phase n} (h : p.Traces xs)
    (hp : p.isClosed) (ys : List (Sighting n)) : p.Traces (xs ++ ys) := by
  cases p with
  | closed m b =>
    obtain ⟨xs', hpre, hs⟩ := h
    exact ⟨xs', hpre.trans (List.prefix_append _ _), hs⟩
  | unseen => cases hp
  | live m => cases hp

theorem Phase.Traces.close {xs : List (Sighting n)} {p : Phase n} (h : p.Traces xs) :
    p.close.Traces xs := by
  cases p with
  | live m => exact ⟨xs, List.prefix_refl xs, h.1, fun hb => nomatch hb⟩
  | unseen => exact h
  | closed m b => exact h

/-- The tuples of one message. -/
def ofId (i : MsgId) (l : List (Sighting n)) : List (Sighting n) := l.filter fun x => x.gossip.id = i

theorem ofId_append (i : MsgId) (l m : List (Sighting n)) : ofId i (l ++ m) = ofId i l ++ ofId i m :=
  List.filter_append ..

theorem ofId_cons (i : MsgId) (x : Sighting n) (l : List (Sighting n)) :
    ofId i (x :: l) = if x.gossip.id = i then x :: ofId i l else ofId i l := by
  simp [ofId, List.filter_cons]

theorem mem_ofId {i : MsgId} {l : List (Sighting n)} {x : Sighting n} :
    x ∈ ofId i l ↔ x ∈ l ∧ x.gossip.id = i := by
  simp [ofId]

theorem ofId_eq_singleton {l : List (Sighting n)} (h : (l.map fun y => y.gossip.id).Nodup)
    {x : Sighting n} (hx : x ∈ l) : ofId x.gossip.id l = [x] := by
  induction l with
  | nil => cases hx
  | cons z l ih =>
    obtain ⟨hz, hl⟩ := List.nodup_cons.1 h
    rw [ofId_cons]
    rcases List.mem_cons.1 hx with rfl | hx
    · have hnil : ofId x.gossip.id l = [] := List.filter_eq_nil_iff.2 fun y hy hid =>
        hz (List.mem_map.2 ⟨y, hy, by simpa using hid⟩)
      rw [if_pos rfl, hnil]
    · have hne : z.gossip.id ≠ x.gossip.id := fun hid => hz (List.mem_map.2 ⟨x, hx, hid.symm⟩)
      rw [if_neg hne, ih hl hx]

/-- At most one tuple for a message from a node. -/
def OncePerNode (l : List (Sighting n)) : Prop := (l.map fun x => (x.node, x.gossip.id)).Nodup

theorem OncePerNode.sublist {l l' : List (Sighting n)} (h : OncePerNode l) (hs : l'.Sublist l) :
    OncePerNode l' := List.Nodup.sublist (hs.map _) h

theorem OncePerNode.nodup_nodes {l : List (Sighting n)} (h : OncePerNode l) (i : MsgId) :
    ((ofId i l).map Sighting.node).Nodup := by
  have h' : OncePerNode (ofId i l) := h.sublist List.filter_sublist
  have hnd : (ofId i l).Nodup := List.Nodup.of_map _ h'
  rw [OncePerNode, List.nodup_map_iff_inj_on hnd] at h'
  rw [List.nodup_map_iff_inj_on hnd]
  intro x hx y hy hxy
  exact h' x hx y hy (by rw [(mem_ofId.1 hx).2, (mem_ofId.1 hy).2, hxy])

theorem OncePerNode.length_ofId_le {l : List (Sighting n)} (h : OncePerNode l) (i : MsgId) :
    (ofId i l).length ≤ n := by
  have := (h.nodup_nodes i).length_le_card
  simpa using this

theorem OncePerNode.node_ne {l : List (Sighting n)} {x y : Sighting n} (h : OncePerNode (l ++ [x]))
    (hy : y ∈ l) (hid : y.gossip.id = x.gossip.id) : y.node ≠ x.node := by
  intro hnode
  rw [OncePerNode, List.map_append, List.nodup_append] at h
  exact h.2.2 (y.node, y.gossip.id) (List.mem_map_of_mem hy) (x.node, x.gossip.id) (by simp)
    (by rw [hnode, hid])

theorem traces_run {l : List (Sighting n)} (h : OncePerNode l) (i : MsgId) :
    ((Tracker.run I l).phase i).Traces (ofId i l) := by
  induction l using List.reverseRecOn with
  | nil => rfl
  | append_singleton l x ih =>
    have ih := ih (h.sublist (List.sublist_append_left _ _))
    rw [Tracker.run_concat, ofId_append]
    by_cases hc : ((Tracker.run I l).phase i).isClosed
    · rw [Tracker.phase_step_of_closed hc]
      exact ih.append_of_closed hc _
    · simp only [Bool.not_eq_true] at hc
      by_cases hix : i = x.gossip.id
      · subst hix
        rw [Tracker.phase_step_self hc, ofId_cons, if_pos rfl]
        exact ih.record fun y hy => h.node_ne (mem_ofId.1 hy).1 (mem_ofId.1 hy).2
      · rw [ofId_cons, if_neg (Ne.symm hix), show ofId i [] = ([] : List (Sighting n)) from rfl,
          List.append_nil]
        by_cases hcx : ((Tracker.run I l).phase x.gossip.id).isClosed
        · simpa [Tracker.step, hcx] using ih
        · rw [Tracker.phase_step_of_ne (by simpa using hcx) hix]
          rcases Tracker.phase_advance I (Tracker.run I l) x.gossip.id i with ha | ha <;> rw [ha]
          · exact ih
          · exact ih.close

/-- A message that was not superseded collected all its tuples. -/
theorem Phase.Traces.of_not_superseded {xs : List (Sighting n)} {p : Phase n} (h : p.Traces xs)
    (hp : p.isSuperseded = false) (hxs : xs.length ≤ n) :
    xs = [] ∧ p = .unseen ∨ ∃ m, Seen xs m ∧ p = .ofInflight m := by
  cases p with
  | unseen => exact .inl ⟨h, rfl⟩
  | live m => exact .inr ⟨m, h.1, by rw [ofInflight, if_neg h.2]⟩
  | closed m b =>
    cases (hp : b = false)
    obtain ⟨xs', hpre, hs, hc⟩ := h
    have hlen : xs'.length = n := by rw [← hs.coverage, hc rfl]
    cases hpre.eq_of_length (le_antisymm hpre.length_le (by omega))
    exact .inr ⟨m, hs, by rw [ofInflight, if_pos (hc rfl)]⟩

end Seen

/-! ## What the newest version overtakes -/

section Overtaken

variable {n : Nat} {I : Identity} {k : Nat}

/-- The newest version of the key has been seen; the messages `ids` were superseded
after one tuple each, the others of the key were not. -/
structure Overtaken (I : Identity) (k M : Nat) (ids : List MsgId) (t : Tracker n) : Prop where
  latest : t.latest k = some M
  closed : ∀ i ∈ ids, ∃ m, t.phase i = .closed m true ∧ m.coverage = 1
  rest : ∀ i, I.key i = some k → i ∉ ids → (t.phase i).isSuperseded = false

theorem Overtaken.step {M : Nat} {ids : List MsgId} {t : Tracker n} (h : Overtaken I k M ids t)
    {x : Sighting n} (hx : I.key x.gossip.id = some k) (hv : I.version x.gossip.id ≤ M) :
    Overtaken I k M ids (t.step I x) := by
  have hadv : t.advance I x.gossip.id = t := by
    simp only [Tracker.advance, hx, h.latest, Option.all_some, decide_eq_true_eq]
    exact if_neg (not_lt.2 hv)
  by_cases hc : (t.phase x.gossip.id).isClosed
  · simpa [Tracker.step, hc] using h
  · simp only [Bool.not_eq_true] at hc
    refine ⟨?_, fun i hi => ?_, fun i hk hi => ?_⟩
    · simp [Tracker.step, hc, hadv, h.latest]
    · obtain ⟨m, hm, hcov⟩ := h.closed i hi
      exact ⟨m, by rw [Tracker.phase_step_of_closed (by rw [hm]; rfl), hm], hcov⟩
    · by_cases hix : i = x.gossip.id
      · subst hix
        rw [Tracker.phase_step_self hc, Tracker.isSuperseded_record hc]
      · rw [Tracker.phase_step_of_ne hc hix, hadv]
        exact h.rest i hk hi

/-- The latest version of a key is one that was seen. -/
theorem Tracker.exists_of_latest {l : List (Sighting n)} {v : Nat}
    (h : (Tracker.run I l).latest k = some v) :
    ∃ x ∈ l, I.key x.gossip.id = some k ∧ I.version x.gossip.id = v := by
  induction l using List.reverseRecOn with
  | nil => cases h
  | append_singleton l x ih =>
    have hold : (run I l).latest k = some v → ∃ y ∈ l ++ [x],
        I.key y.gossip.id = some k ∧ I.version y.gossip.id = v := fun h => by
      obtain ⟨y, hy, hyk⟩ := ih h
      exact ⟨y, List.mem_append_left _ hy, hyk⟩
    rw [run_concat] at h
    by_cases hc : ((run I l).phase x.gossip.id).isClosed
    · exact hold (by simpa [step, hc] using h)
    · have hlatest : ((run I l).advance I x.gossip.id).latest k = some v := by
        simpa [step, hc] using h
      unfold advance at hlatest
      split at hlatest
      · next k' hk' =>
        split at hlatest
        · by_cases hk : k = k'
          · subst hk
            exact ⟨x, by simp, hk', by simpa [supersede] using hlatest⟩
          · exact hold (by simpa [supersede, hk] using hlatest)
        · exact hold hlatest
      · exact hold hlatest

/-- The first tuple of the newest version supersedes what was seen before it. -/
theorem overtaken_run {P R : List (Sighting n)} {x : Sighting n}
    (hkey : ∀ y ∈ P ++ x :: R, I.key y.gossip.id = some k) (honce : OncePerNode P)
    (hids : (P.map fun y => y.gossip.id).Nodup)
    (hP : ∀ y ∈ P, I.version y.gossip.id < I.version x.gossip.id)
    (hR : ∀ y ∈ R, I.version y.gossip.id ≤ I.version x.gossip.id) (hn : P ≠ [] → 2 ≤ n) :
    Overtaken I k (I.version x.gossip.id) (P.map fun y => y.gossip.id)
      (Tracker.run I (P ++ x :: R)) := by
  have hx : I.key x.gossip.id = some k := hkey x (by simp)
  have hxP : x.gossip.id ∉ P.map fun y => y.gossip.id := by
    rintro hmem
    obtain ⟨y, hy, hid⟩ := List.mem_map.1 hmem
    have := hP y hy
    rw [hid] at this
    omega
  have hunseen : ∀ i, i ∉ (P.map fun y => y.gossip.id) → (Tracker.run I P).phase i = .unseen :=
    fun i hi => Tracker.phase_run_eq_unseen.2 fun y hy hid => hi (List.mem_map.2 ⟨y, hy, hid⟩)
  -- what was seen before is live or superseded, with one tuple
  have hseen : ∀ i ∈ P.map fun y => y.gossip.id,
      ∃ m, ((Tracker.run I P).phase i).close = .closed m true ∧ m.coverage = 1 := by
    intro i hi
    obtain ⟨y, hy, rfl⟩ := List.mem_map.1 hi
    have hone : ofId y.gossip.id P = [y] := ofId_eq_singleton hids hy
    have htr := traces_run (I := I) honce y.gossip.id
    rw [hone] at htr
    cases hp : (Tracker.run I P).phase y.gossip.id with
    | unseen => rw [hp] at htr; cases htr
    | live m => rw [hp] at htr; exact ⟨m, rfl, htr.1.coverage⟩
    | closed m b =>
      rw [hp] at htr
      obtain ⟨xs', hpre, hs, hb⟩ := htr
      have hcov : m.coverage = 1 := by
        have hpos := hs.length_pos
        have hle : xs'.length ≤ 1 := hpre.length_le
        rw [hs.coverage]
        omega
      cases b with
      | true => exact ⟨m, rfl, hcov⟩
      | false =>
        have := hn (List.ne_nil_of_mem hy)
        have := hb rfl
        omega
  have hopen : ((Tracker.run I P).phase x.gossip.id).isClosed = false := by
    rw [hunseen _ hxP]; rfl
  have hnew : ((Tracker.run I P).latest k).all (· < I.version x.gossip.id) = true := by
    cases hl : (Tracker.run I P).latest k with
    | none => rfl
    | some v =>
      obtain ⟨y, hy, -, rfl⟩ := Tracker.exists_of_latest hl
      simpa using hP y hy
  have hfirst : Overtaken I k (I.version x.gossip.id) (P.map fun y => y.gossip.id)
      ((Tracker.run I P).step I x) := by
    have hadv : (Tracker.run I P).advance I x.gossip.id =
        (Tracker.run I P).supersede I k x.gossip.id := by
      simp only [Tracker.advance, hx, hnew, if_true]
    refine ⟨?_, fun i hi => ?_, fun i hk hi => ?_⟩
    · simp [Tracker.step, hopen, hadv, Tracker.supersede]
    · have hne : i ≠ x.gossip.id := by rintro rfl; exact hxP hi
      obtain ⟨m, hm, hcov⟩ := hseen i hi
      obtain ⟨y, hy, rfl⟩ := List.mem_map.1 hi
      have hk : I.key y.gossip.id = some k := hkey y (by simp [hy])
      refine ⟨m, ?_, hcov⟩
      rw [Tracker.phase_step_of_ne hopen hne, hadv]
      simp [Tracker.supersede, hne, hk, hm]
    · by_cases hne : i = x.gossip.id
      · subst hne
        rw [Tracker.phase_step_self hopen, Tracker.isSuperseded_record hopen]
      · rw [Tracker.phase_step_of_ne hopen hne, hadv]
        simp [Tracker.supersede, hunseen i hi, Phase.close, Phase.isSuperseded]
  -- nothing newer follows
  induction R using List.reverseRecOn with
  | nil => rw [Tracker.run_concat]; exact hfirst
  | append_singleton R y ih =>
    rw [← List.cons_append, ← List.append_assoc, Tracker.run_concat]
    have hsub : ∀ z ∈ P ++ x :: R, z ∈ P ++ x :: (R ++ [y]) := fun z hz => by
      simp only [List.mem_append, List.mem_cons] at hz ⊢
      tauto
    exact (ih (fun z hz => hkey z (hsub z hz)) (fun z hz => hR z (List.mem_append_left _ hz))).step
      (hkey y (by simp)) (hR y (by simp))

/-! ## Two tuples in a row -/

/-- The coverage of a message that was seen. -/
def Phase.coverage : Phase n → Nat
  | unseen => 0
  | live m => m.coverage
  | closed m _ => m.coverage

theorem Phase.coverage_ofInflight (m : MsgInflight n) : (Phase.ofInflight m).coverage = m.coverage := by
  unfold ofInflight
  split <;> rfl

theorem Phase.coverage_le_record (p : Phase n) (x : Sighting n) :
    p.coverage ≤ (p.record x).coverage := by
  cases p with
  | unseen => exact Nat.zero_le _
  | live m =>
    simp only [record]
    split
    · exact le_rfl
    · rw [coverage_ofInflight]; exact Nat.le_succ _
  | closed m b => exact le_rfl

theorem Tracker.coverage_le_step {t : Tracker n} {x : Sighting n} (i : MsgId) :
    (t.phase i).coverage ≤ ((t.step I x).phase i).coverage := by
  by_cases hc : (t.phase x.gossip.id).isClosed
  · simp [step, hc]
  · simp only [Bool.not_eq_true] at hc
    by_cases hi : i = x.gossip.id
    · subst hi
      rw [phase_step_self hc]
      exact (t.phase _).coverage_le_record x
    · rw [phase_step_of_ne hc hi]
      rcases phase_advance I t x.gossip.id i with ha | ha <;> rw [ha]
      cases t.phase i <;> exact le_rfl

/-- A message with a second tuple right after its first covers two nodes. -/
theorem two_le_coverage {P R : List (Sighting n)} {x y : Sighting n}
    (hP : ∀ z ∈ P, z.gossip.id ≠ x.gossip.id) (hid : y.gossip.id = x.gossip.id)
    (hnode : x.node ≠ y.node) :
    2 ≤ ((Tracker.run I (P ++ x :: y :: R)).phase x.gossip.id).coverage := by
  have hn : n ≠ 1 := by
    rintro rfl
    exact hnode (Subsingleton.elim _ _)
  induction R using List.reverseRecOn with
  | nil =>
    have hun : (Tracker.run I P).phase x.gossip.id = .unseen :=
      Tracker.phase_run_eq_unseen.2 hP
    have hx : ((Tracker.run I (P ++ [x])).phase x.gossip.id) =
        .live ((MsgInflight.new n x.timeNs x.gossip.sizeBytes).see x.node x.timeNs) := by
      rw [Tracker.run_concat, Tracker.phase_step_self (by rw [hun]; rfl), hun]
      exact if_neg (Ne.symm hn)
    have hslot : ((MsgInflight.new n x.timeNs x.gossip.sizeBytes).see x.node x.timeNs).times
        y.node = NOT_SEEN := by
      simp [MsgInflight.see, MsgInflight.new, hnode.symm]
    rw [List.append_cons, Tracker.run_concat, ← hid, Tracker.phase_step_self (by rw [hid, hx]; rfl),
      hid, hx]
    simp only [Phase.record, hslot, ne_eq, not_true_eq_false, if_false, Phase.coverage_ofInflight]
    exact le_rfl
  | append_singleton R z ih =>
    rw [← List.cons_append, ← List.cons_append, ← List.append_assoc, Tracker.run_concat]
    exact ih.trans (Tracker.coverage_le_step _)

end Overtaken

end LnConv
