import LnConv.Lib.Ledger
import LnConv.Lib.Run
import Mathlib.Combinatorics.SimpleGraph.DegreeSum
import Mathlib.Combinatorics.SimpleGraph.Metric

/-!
# Floods

One message spreads over a graph. A vertex passes it on to all its neighbours at one instant, after
a delay from when it has it, and time does not pass while a copy is under way. On a connected graph
every vertex is then reached after as many delays as it is far from the origin.
-/

namespace LnConv

variable {V : Type*}

/-- `due` is when a vertex that has the message passes it on, `sent` lists those that did, and
`flight` the copies under way, with their two ends. The last two fields count what has arrived, and
at which vertex it was a repetition. -/
structure Flood (V : Type*) where
  now : Nat
  due : V → Option Nat
  sent : List V
  flight : List (V × V)
  delivered : Nat
  repeats : V → Nat

namespace Flood

variable {G : SimpleGraph V} {nbrs : V → List V} {delay t₀ : Nat} {o : V} {f f' : Flood V}

/-- When a vertex passes the message on, by its distance from the origin. -/
noncomputable def sendTime (G : SimpleGraph V) (o : V) (t₀ delay : Nat) (v : V) : Nat :=
  t₀ + G.dist o v * delay

/-- When a vertex has the message. -/
noncomputable def hearTime (G : SimpleGraph V) (o : V) (t₀ delay : Nat) (v : V) : Nat :=
  t₀ + (G.dist o v - 1) * delay

/-- The vertex has the message: the origin from when it passes it on, another one from when it
hears it. -/
def Has (o : V) (f : Flood V) (v : V) : Prop := f.due v ≠ none ∧ (v = o → o ∈ f.sent)

/-- Every vertex is on time, and nothing is lost. -/
structure OnTime (G : SimpleGraph V) (o : V) (t₀ delay : Nat) (f : Flood V) : Prop where
  origin : f.due o = some t₀
  due : ∀ v x, f.due v = some x → x = sendTime G o t₀ delay v
  after : ∀ v, f.due v ≠ none → v = o ∨ o ∈ f.sent
  unheard : ∀ v, f.due v = none → f.now + delay ≤ sendTime G o t₀ delay v
  sent : ∀ v ∈ f.sent, f.due v ≠ none ∧ sendTime G o t₀ delay v ≤ f.now
  unsent : ∀ v, v ∉ f.sent → f.now ≤ sendTime G o t₀ delay v
  flight : ∀ e ∈ f.flight, e.1 ∈ f.sent ∧ G.Adj e.1 e.2 ∧ f.now = sendTime G o t₀ delay e.1
  covered : ∀ u ∈ f.sent, ∀ v, G.Adj u v → f.due v = none → (u, v) ∈ f.flight

/-- A copy is under way only once the origin has passed the message on. -/
theorem OnTime.origin_sent (h : OnTime G o t₀ delay f) {e : V × V} (he : e ∈ f.flight) :
    o ∈ f.sent := by
  have hu := (h.flight e he).1
  rcases h.after e.1 (h.sent e.1 hu).1 with ho | ho
  · exact ho ▸ hu
  · exact ho

/-! ## Distances -/

/-- A vertex other than the origin has a neighbour one step nearer. -/
theorem exists_nearer (hc : G.Connected) {v : V} (hv : v ≠ o) :
    ∃ u, G.Adj u v ∧ G.dist o v = G.dist o u + 1 := by
  obtain ⟨p, hp⟩ := hc.exists_walk_length_eq_dist v o
  cases p with
  | nil => exact absurd rfl hv
  | @cons _ u _ hadj q =>
    have hle : G.dist o u ≤ q.length := by
      rw [SimpleGraph.dist_comm]
      exact SimpleGraph.dist_le q
    have hge : G.dist o v ≤ G.dist o u + G.dist u v := hc.dist_triangle
    rw [SimpleGraph.dist_eq_one_iff_adj.2 hadj.symm] at hge
    rw [SimpleGraph.Walk.length_cons, SimpleGraph.dist_comm] at hp
    exact ⟨u, hadj.symm, by omega⟩

theorem sendTime_le_of_adj (hc : G.Connected) {u v : V} (h : G.Adj u v) :
    sendTime G o t₀ delay v ≤ sendTime G o t₀ delay u + delay := by
  have hge : G.dist o v ≤ G.dist o u + G.dist u v := hc.dist_triangle
  rw [SimpleGraph.dist_eq_one_iff_adj.2 h] at hge
  unfold sendTime
  calc t₀ + G.dist o v * delay
    _ ≤ t₀ + (G.dist o u + 1) * delay := Nat.add_le_add_left (Nat.mul_le_mul_right delay hge) t₀
    _ = t₀ + G.dist o u * delay + delay := by rw [Nat.succ_mul, Nat.add_assoc]

theorem sendTime_eq_of_nearer {u v : V} (h : G.dist o v = G.dist o u + 1) :
    sendTime G o t₀ delay v = sendTime G o t₀ delay u + delay := by
  unfold sendTime
  rw [h, Nat.succ_mul, Nat.add_assoc]

/-! ## Being on time -/

/-- Where no copy is under way, time may pass only up to the next vertex to pass on the message. -/
theorem OnTime.le_of_idle (h : OnTime G o t₀ delay f) (hc : G.Connected) (hidle : f.flight = [])
    {t : Nat} (ht : ∀ v x, f.due v = some x → v ∉ f.sent → t ≤ x) {v : V} (hv : v ∉ f.sent) :
    t ≤ sendTime G o t₀ delay v ∧
      (f.due v = none → t + delay ≤ sendTime G o t₀ delay v) := by
  -- by induction on the distance: the nearer neighbour has not passed it on either
  generalize hk : G.dist o v = k
  induction k generalizing v with
  | zero =>
    have ho : o = v := hc.dist_eq_zero_iff.1 hk
    subst ho
    have hd := h.due o t₀ h.origin
    refine ⟨hd ▸ ht o t₀ h.origin hv, fun hnone => ?_⟩
    rw [h.origin] at hnone
    cases hnone
  | succ k ih =>
    have hne : v ≠ o := by
      rintro rfl
      rw [SimpleGraph.dist_self] at hk
      omega
    obtain ⟨u, hadj, hu⟩ := exists_nearer hc hne
    cases hd : f.due v with
    | some x =>
      refine ⟨h.due v x hd ▸ ht v x hd hv, fun hnone => by cases hnone⟩
    | none =>
      have hus : u ∉ f.sent := by
        intro hus
        have hin := h.covered u hus v hadj hd
        rw [hidle] at hin
        cases hin
      have hle : t ≤ sendTime G o t₀ delay u := (ih hus (by omega)).1
      rw [sendTime_eq_of_nearer hu]
      exact ⟨by omega, fun _ => by omega⟩

/-- A vertex that hears the message for the first time hears it at its time. -/
theorem OnTime.first (h : OnTime G o t₀ delay f) (hc : G.Connected) {u v : V}
    (he : (u, v) ∈ f.flight) (hv : f.due v = none) :
    f.now + delay = sendTime G o t₀ delay v := by
  obtain ⟨-, hadj, hnow⟩ := h.flight _ he
  have hle := h.unheard v hv
  have hge : sendTime G o t₀ delay v ≤ sendTime G o t₀ delay u + delay := sendTime_le_of_adj hc hadj
  have hnow' : f.now = sendTime G o t₀ delay u := hnow
  omega

theorem OnTime.hearTime_eq (h : OnTime G o t₀ delay f) (hc : G.Connected) {u v : V}
    (he : (u, v) ∈ f.flight) (hv : f.due v = none) : f.now = hearTime G o t₀ delay v := by
  have hfirst := h.first hc he hv
  have hne : v ≠ o := by
    rintro rfl
    rw [h.origin] at hv
    cases hv
  obtain ⟨x, -, hx⟩ := exists_nearer hc hne
  rw [sendTime_eq_of_nearer hx] at hfirst
  rw [hearTime, hx, Nat.add_sub_cancel]
  exact Nat.add_right_cancel hfirst

/-! ## Steps -/

section Steps

variable [DecidableEq V]

inductive Step (nbrs : V → List V) (delay : Nat) (f : Flood V) : Flood V → Prop where
  | advance {t : Nat} : f.now ≤ t → f.flight = [] →
      (∀ v x, f.due v = some x → v ∉ f.sent → t ≤ x) → Step nbrs delay f { f with now := t }
  | pass {v : V} : f.due v = some f.now → v ∉ f.sent →
      Step nbrs delay f
        { f with sent := f.sent ++ [v], flight := f.flight ++ (nbrs v).map fun w => (v, w) }
  | hear {i : Nat} {u v : V} : f.flight[i]? = some (u, v) → f.due v = none →
      Step nbrs delay f
        { f with
          flight := f.flight.eraseIdx i
          due := Function.update f.due v (some (f.now + delay))
          delivered := f.delivered + 1 }
  | hearAgain {i : Nat} {u v : V} : f.flight[i]? = some (u, v) → f.due v ≠ none →
      Step nbrs delay f
        { f with
          flight := f.flight.eraseIdx i
          delivered := f.delivered + 1
          repeats := Function.update f.repeats v (f.repeats v + 1) }

/-- The origin is to pass the message on at `t₀`, and nobody else has it. -/
def start (o : V) (t₀ now : Nat) : Flood V where
  now := now
  due := Function.update (fun _ => none) o (some t₀)
  sent := []
  flight := []
  delivered := 0
  repeats := fun _ => 0

@[simp] theorem start_due_self {now : Nat} : (start o t₀ now).due o = some t₀ := by
  simp [start]

theorem start_due_of_ne {now : Nat} {v : V} (hv : v ≠ o) : (start o t₀ now).due v = none := by
  simp [start, hv]

theorem OnTime.start (hc : G.Connected) {now : Nat} (hnow : now ≤ t₀) :
    OnTime G o t₀ delay (start o t₀ now) where
  origin := start_due_self
  due v x hx := by
    by_cases hv : v = o
    · subst hv
      rw [start_due_self, Option.some.injEq] at hx
      rw [sendTime, SimpleGraph.dist_self, Nat.zero_mul, Nat.add_zero, hx]
    · rw [start_due_of_ne hv] at hx
      cases hx
  after v hv := .inl (by_contra fun hne => hv (start_due_of_ne hne))
  unheard v hv := by
    have hne : v ≠ o := by
      rintro rfl
      rw [start_due_self] at hv
      cases hv
    obtain ⟨u, -, hu⟩ := exists_nearer hc hne
    rw [sendTime_eq_of_nearer hu]
    exact Nat.add_le_add_right (hnow.trans (Nat.le_add_right t₀ _)) delay
  sent v hv := by cases hv
  unsent v _ := hnow.trans (Nat.le_add_right t₀ _)
  flight e he := by cases he
  covered u hu := by cases hu

theorem OnTime.step (h : OnTime G o t₀ delay f) (hc : G.Connected)
    (hn : ∀ u v, v ∈ nbrs u ↔ G.Adj u v) (hs : Step nbrs delay f f') : OnTime G o t₀ delay f' := by
  cases hs with
  | @advance t hle hidle ht =>
    refine ⟨h.origin, h.due, h.after, fun v hv => ?_, fun v hv => ?_, fun v hv => ?_,
      fun e he => ?_, h.covered⟩
    · by_cases hvs : v ∈ f.sent
      · exact absurd hv (h.sent v hvs).1
      · exact (h.le_of_idle hc hidle ht hvs).2 hv
    · exact ⟨(h.sent v hv).1, (h.sent v hv).2.trans hle⟩
    · exact (h.le_of_idle hc hidle ht hv).1
    · exact absurd (hidle ▸ he) (List.not_mem_nil)
  | @pass v hv hvs =>
    have hnow := h.due v f.now hv
    refine ⟨h.origin, h.due, fun x hx => (h.after x hx).imp id (List.mem_append_left _), h.unheard,
      fun u hu => ?_, fun u hu => ?_, fun e he => ?_, fun u hu x hx hd => ?_⟩
    · rcases List.mem_append.1 hu with hu | hu
      · exact h.sent u hu
      · obtain rfl := List.mem_singleton.1 hu
        exact ⟨by rw [hv]; exact Option.some_ne_none _, hnow.ge⟩
    · exact h.unsent u fun hm => hu (List.mem_append_left _ hm)
    · rcases List.mem_append.1 he with he | he
      · obtain ⟨h₁, h₂, h₃⟩ := h.flight e he
        exact ⟨List.mem_append_left _ h₁, h₂, h₃⟩
      · obtain ⟨x, hx, rfl⟩ := List.mem_map.1 he
        exact ⟨List.mem_append_right _ (List.mem_singleton_self v), (hn v x).1 hx, hnow⟩
    · rcases List.mem_append.1 hu with hu | hu
      · exact List.mem_append_left _ (h.covered u hu x hx hd)
      · obtain rfl := List.mem_singleton.1 hu
        exact List.mem_append_right _ (List.mem_map.2 ⟨x, (hn u x).2 hx, rfl⟩)
  | @hear i u v hi hv =>
    have hfirst := h.first hc (List.mem_of_getElem? hi) hv
    have hvo : v ≠ o := by
      rintro rfl
      rw [h.origin] at hv
      cases hv
    have hold : ∀ x, x ≠ v → Function.update f.due v (some (f.now + delay)) x = f.due x :=
      fun x hx => Function.update_of_ne hx _ _
    have hself : Function.update f.due v (some (f.now + delay)) v = some (f.now + delay) :=
      Function.update_self _ _ _
    have hos := h.origin_sent (List.mem_of_getElem? hi)
    refine ⟨(hold o hvo.symm).trans h.origin, fun x y hy => ?_, fun _ _ => .inr hos, fun x hx => ?_,
      fun x hx => ?_, h.unsent, fun e he => h.flight e (List.mem_of_mem_eraseIdx he),
      fun a ha x hx hd => ?_⟩
    · by_cases hxv : x = v
      · subst hxv
        exact (Option.some.inj (hself.symm.trans hy)).symm.trans hfirst
      · exact h.due x y ((hold x hxv).symm.trans hy)
    · by_cases hxv : x = v
      · subst hxv
        exact absurd (hself.symm.trans hx) (Option.some_ne_none _)
      · exact h.unheard x ((hold x hxv).symm.trans hx)
    · have hxv : x ≠ v := fun hxv => (h.sent x hx).1 (hxv ▸ hv)
      exact ⟨fun hd => (h.sent x hx).1 ((hold x hxv).symm.trans hd), (h.sent x hx).2⟩
    · have hxv : x ≠ v := by
        rintro rfl
        exact absurd (hself.symm.trans hd) (Option.some_ne_none _)
      rcases mem_or_mem_eraseIdx hi (h.covered a ha x hx ((hold x hxv).symm.trans hd)) with he | he
      · exact absurd (congrArg Prod.snd he) hxv
      · exact he
  | @hearAgain i u v hi hv =>
    refine ⟨h.origin, h.due, h.after, h.unheard, h.sent, h.unsent,
      fun e he => h.flight e (List.mem_of_mem_eraseIdx he), fun a ha x hx hd => ?_⟩
    rcases mem_or_mem_eraseIdx hi (h.covered a ha x hx hd) with he | he
    · have hxv : x = v := congrArg Prod.snd he
      exact absurd (hxv ▸ hd) hv
    · exact he

/-! ## Counting -/

/-- Of `vs`, how many have the message or are to have it. -/
def reached (vs : List V) (f : Flood V) : Nat := total vs fun v => if (f.due v).isSome then 1 else 0

/-- Every vertex that passed the message on sent one copy to each neighbour, and of the copies that
arrived all are repetitions but those that reached a vertex first. -/
structure Counts (vs : List V) (nbrs : V → List V) (f : Flood V) : Prop where
  nodup : f.sent.Nodup
  copies : f.delivered + f.flight.length = total f.sent fun v => (nbrs v).length
  repeats : total vs f.repeats + f.reached vs = f.delivered + 1

variable {vs : List V}

theorem Counts.start (hvs : vs.Nodup) (ho : o ∈ vs) (now : Nat) :
    Counts vs nbrs (start o t₀ now) where
  nodup := List.nodup_nil
  copies := rfl
  repeats := by
    have hind : (fun v => if ((Flood.start o t₀ now).due v).isSome then 1 else 0) =
        Function.update (fun _ => 0) o 1 := by
      funext v
      by_cases hv : v = o
      · subst hv
        simp
      · simp [start_due_of_ne hv, hv]
    have hone := total_update hvs ho (fun _ => 0) 1
    have hzero : total vs (fun _ : V => 0) = 0 := by simp [total]
    rw [reached, hind]
    show total vs (fun _ => 0) + _ = 0 + 1
    omega

theorem length_eraseIdx_succ {α : Type*} {l : List α} {i : Nat} {x : α} (h : l[i]? = some x) :
    (l.eraseIdx i).length + 1 = l.length := by
  obtain ⟨hi, -⟩ := List.getElem?_eq_some_iff.1 h
  exact (List.length_eraseIdx_add_one hi)

theorem Counts.step (h : Counts vs nbrs f) (hvs : vs.Nodup) (hmem : ∀ v, v ∈ vs)
    (hs : Step nbrs delay f f') : Counts vs nbrs f' := by
  cases hs with
  | advance _ _ _ => exact ⟨h.nodup, h.copies, h.repeats⟩
  | @pass v hv hvs =>
    refine ⟨?_, ?_, h.repeats⟩
    · rw [List.nodup_append]
      refine ⟨h.nodup, List.nodup_singleton v, fun a ha b hb hab => ?_⟩
      rw [List.mem_singleton] at hb
      exact hvs (hb ▸ hab ▸ ha)
    · have hc := h.copies
      simp only [total, List.map_append, List.sum_append, List.length_append, List.length_map,
        List.map_singleton, List.sum_singleton] at hc ⊢
      omega
  | @hear i u v hi hv =>
    refine ⟨h.nodup, ?_, ?_⟩
    · have hc := h.copies
      have hlen := length_eraseIdx_succ hi
      dsimp only
      omega
    · have hind : (fun x => if (Function.update f.due v (some (f.now + delay)) x).isSome then 1
          else 0) = Function.update (fun x => if (f.due x).isSome then 1 else 0) v 1 := by
        funext x
        by_cases hx : x = v
        · subst hx
          simp
        · simp [hx]
      have hr := h.repeats
      have hup := total_update hvs (hmem v) (fun x => if (f.due x).isSome then 1 else 0) 1
      simp only [hv, Option.isSome_none, Bool.false_eq_true, if_false] at hup
      simp only [reached] at hr ⊢
      rw [hind]
      omega
  | @hearAgain i u v hi hv =>
    refine ⟨h.nodup, ?_, ?_⟩
    · have hc := h.copies
      have hlen := length_eraseIdx_succ hi
      dsimp only
      omega
    · have hr := h.repeats
      have hup := total_update hvs (hmem v) f.repeats (f.repeats v + 1)
      simp only [reached] at hr ⊢
      omega

end Steps

/-! ## Quiet -/

/-- No copy is under way, and whoever has the message has passed it on. -/
def Quiet (f : Flood V) : Prop := f.flight = [] ∧ ∀ v, f.due v ≠ none → v ∈ f.sent

theorem OnTime.all_sent (h : OnTime G o t₀ delay f) (hc : G.Connected) (hq : f.Quiet) (v : V) :
    v ∈ f.sent := by
  generalize hk : G.dist o v = k
  induction k generalizing v with
  | zero =>
    obtain rfl : o = v := hc.dist_eq_zero_iff.1 hk
    exact hq.2 o (by rw [h.origin]; exact Option.some_ne_none _)
  | succ k ih =>
    have hne : v ≠ o := by
      rintro rfl
      rw [SimpleGraph.dist_self] at hk
      omega
    obtain ⟨u, hadj, hu⟩ := exists_nearer hc hne
    apply hq.2 v
    intro hd
    have hin := h.covered u (ih u (by omega)) v hadj hd
    rw [hq.1] at hin
    cases hin

/-- Past the last time to pass on the message the flood is quiet. -/
theorem OnTime.quiet_of_lt (h : OnTime G o t₀ delay f)
    (hlt : ∀ v, sendTime G o t₀ delay v < f.now) : f.Quiet := by
  refine ⟨List.eq_nil_iff_forall_not_mem.2 fun e he => ?_, fun v _ => ?_⟩
  · exact absurd (h.flight e he).2.2 (hlt e.1).ne'
  · by_contra hv
    exact absurd (h.unsent v hv) (not_le.2 (hlt v))

/-- In a quiet flood every vertex has the message, passed on once. -/
theorem OnTime.due_eq (h : OnTime G o t₀ delay f) (hc : G.Connected) (hq : f.Quiet) (v : V) :
    f.due v = some (sendTime G o t₀ delay v) := by
  obtain ⟨x, hx⟩ := Option.ne_none_iff_exists'.1 (h.sent v (h.all_sent hc hq v)).1
  rw [hx, h.due v x hx]

section Totals

variable {vs : List V}

theorem sent_perm (h : OnTime G o t₀ delay f) (hcount : Counts vs nbrs f) (hc : G.Connected)
    (hq : f.Quiet) (hvs : vs.Nodup) (hmem : ∀ v, v ∈ vs) : f.sent.Perm vs :=
  (List.perm_ext_iff_of_nodup hcount.nodup hvs).2 fun v =>
    iff_of_true (h.all_sent hc hq v) (hmem v)

/-- All copies have arrived, and all but one for each vertex other than the origin are repetitions. -/
theorem totals (h : OnTime G o t₀ delay f) (hcount : Counts vs nbrs f) (hc : G.Connected)
    (hq : f.Quiet) (hvs : vs.Nodup) (hmem : ∀ v, v ∈ vs) :
    f.delivered = total vs (fun v => (nbrs v).length) ∧
      total vs f.repeats + vs.length = f.delivered + 1 := by
  constructor
  · have hcopies := hcount.copies
    rw [hq.1, List.length_nil, Nat.add_zero] at hcopies
    rw [hcopies]
    exact ((sent_perm h hcount hc hq hvs hmem).map _).sum_eq
  · have hreached : f.reached vs = vs.length := by
      have hall : ∀ v ∈ vs, (if (f.due v).isSome then 1 else 0) = 1 := fun v _ => by
        rw [h.due_eq hc hq v]
        rfl
      rw [reached, total_congr hall]
      simp [total]
    rw [← hcount.repeats, hreached]

/-- The neighbours of all vertices are the edges, each from both ends. -/
theorem total_neighbors [Fintype V] [DecidableEq V] [DecidableRel G.Adj]
    (hn : ∀ u v, v ∈ nbrs u ↔ G.Adj u v) (hnd : ∀ v, (nbrs v).Nodup) (hvs : vs.Nodup) (hmem : ∀ v, v ∈ vs) :
    total vs (fun v => (nbrs v).length) = 2 * G.edgeFinset.card := by
  have hdeg : ∀ v, (nbrs v).length = G.degree v := by
    intro v
    rw [← List.toFinset_card_of_nodup (hnd v), ← G.card_neighborFinset_eq_degree]
    congr 1
    ext w
    rw [List.mem_toFinset, hn, SimpleGraph.mem_neighborFinset]
  have huniv : (Finset.univ : Finset V) = vs.toFinset := by
    ext v
    simp [hmem v]
  rw [total_congr fun v _ => hdeg v, ← G.sum_degrees_eq_twice_card_edges, huniv,
    List.sum_toFinset _ hvs]
  rfl

end Totals

end Flood

end LnConv
