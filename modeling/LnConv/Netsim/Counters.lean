import LnConv.Lib.Ledger
import LnConv.Netsim.Network

/-!
# Traffic counters

A node's counters are to equal the number and the size of the messages in flight that it sent,
and of those addressed to it, sizes added up as the counters are. Sending keeps this. A
delivery takes the size off the number of outgoing messages instead of off their bytes, so it
keeps it if and only if the message has no size.
-/

namespace LnConv.Netsim

variable {n : Nat} {M Q : Type}

def EventData.inFlight : EventData n M Q → Option (MessageEvent n M)
  | .message me => some me
  | _ => none

namespace Network

variable {calcArrivalTime : ArrivalTime}

section Weigh

/-- What is counted of the messages in flight with `P`. -/
def weigh (s : Network n M Q) (P : MessageEvent n M → Bool) (f : MessageEvent n M → Nat) : Nat :=
  (s.eq.map fun e => (e.data.inFlight).elim 0 fun me => if P me then f me else 0).sum

/-- The number of messages in flight with `P`. -/
def number (s : Network n M Q) (P : MessageEvent n M → Bool) : Nat := s.weigh P fun _ => 1

/-! ## What an action does to the queue and to the counters -/

theorem weigh_append {s s' : Network n M Q} {e : Event n M Q} (h : s'.eq = s.eq ++ [e])
    (P : MessageEvent n M → Bool) (f : MessageEvent n M → Nat) : s'.weigh P f = s.weigh P f +
      (e.data.inFlight).elim 0 fun me => if P me then f me else 0 := by
  unfold weigh
  rw [h, List.map_append, List.sum_append]
  rfl

theorem weigh_eraseIdx {s s' : Network n M Q} {i : Nat} {e : Event n M Q} (he : s.eq[i]? = some e)
    (h : s'.eq = s.eq.eraseIdx i) (P : MessageEvent n M → Bool) (f : MessageEvent n M → Nat) :
    s.weigh P f = s'.weigh P f + (e.data.inFlight).elim 0 fun me => if P me then f me else 0 := by
  unfold weigh
  rw [h, ← sum_eraseIdx he]

theorem number_le {s : Network n M Q} (P : MessageEvent n M → Bool) : s.number P ≤ s.eq.length := by
  unfold number weigh
  induction s.eq with
  | nil => exact Nat.le_refl 0
  | cons e l ih =>
    rw [List.map_cons, List.sum_cons, List.length_cons]
    refine (Nat.add_le_add ?_ ih).trans_eq (Nat.add_comm _ _)
    cases e.data.inFlight with
    | none => exact Nat.zero_le 1
    | some me =>
      show (if P me then 1 else 0) ≤ 1
      split <;> omega

theorem push_eq {s s' : Network n M Q} {e : Event n M Q} (h : s.push e = some s') :
    s'.nodes = s.nodes ∧ s'.eq = s.eq ++ [e] ∧ s'.eq.length ≤ maxInt := by
  unfold push at h
  split at h
  · next hlt =>
    cases h
    refine ⟨rfl, rfl, ?_⟩
    rw [List.length_append]
    exact hlt
  · cases h

/-- Nobody sends to itself, and the queue is a slice. -/
structure Sound (s : Network n M Q) : Prop where
  apart : ∀ e ∈ s.eq, ∀ me ∈ EventData.hop e.data, me.sender ≠ me.receiver
  length : s.eq.length ≤ maxInt

theorem Sound.append {s s' : Network n M Q} (h : s.Sound) {e : Event n M Q}
    (hq : s'.eq = s.eq ++ [e]) (hlen : s'.eq.length ≤ maxInt)
    (he : ∀ me ∈ EventData.hop e.data, me.sender ≠ me.receiver) : s'.Sound where
  apart x hx := by
    rw [hq, List.mem_append, List.mem_singleton] at hx
    rcases hx with hx | rfl
    · exact h.apart x hx
    · exact he
  length := hlen

theorem Sound.erase {s : Network n M Q} (h : s.Sound) (i : Nat) :
    ({ s with eq := s.eq.eraseIdx i } : Network n M Q).Sound where
  apart e he := h.apart e (List.mem_of_mem_eraseIdx he)
  length := (List.length_eraseIdx_le s.eq i).trans h.length

/-- A push of what is no message in flight changes no count. -/
theorem weigh_of_quiet {s s' : Network n M Q} {e : Event n M Q} (hq : s'.eq = s.eq ++ [e])
    (he : e.data.inFlight = none) (P : MessageEvent n M → Bool) (f : MessageEvent n M → Nat) :
    s'.weigh P f = s.weigh P f := by
  rw [weigh_append hq, he]
  rfl

end Weigh

variable [Message M]

/-- The bytes in flight with `P`. -/
def bytes (s : Network n M Q) (P : MessageEvent n M → Bool) : Nat :=
  s.weigh P fun me => (Message.size me.m).toNat

/-- The counters of a node match the queue. -/
structure Counted (s : Network n M Q) (v : Fin n) : Prop where
  outBytes : (s.nodes v).numOutgoingBytes = .ofNat (s.bytes fun me => me.sender = v)
  outMessages : (s.nodes v).numOutgoingMessages.toNat = s.number fun me => me.sender = v
  inBytes : (s.nodes v).numIncommingBytes = .ofNat (s.bytes fun me => me.receiver = v)
  inMessages : (s.nodes v).numIncommingMessages.toNat = s.number fun me => me.receiver = v

/-- No counter is decremented by more than it holds. -/
def NoWrap (s : Network n M Q) : Action n M Q → Prop
  | .fire i => ∀ e me, s.eq[i]? = some e → e.data = .message me →
      Message.size me.m ≤ (s.nodes me.receiver).numIncommingBytes ∧
      1 ≤ (s.nodes me.receiver).numIncommingMessages ∧
      (Message.size me.m).toNat + 1 ≤ (s.nodes me.sender).numOutgoingMessages.toNat
  | _ => True

/-- A message delivered has no size. -/
def Weightless (s : Network n M Q) : Action n M Q → Prop
  | .fire i => ∀ e me, s.eq[i]? = some e → e.data = .message me → Message.size me.m = 0
  | _ => True

theorem pushMessageEvent_eq {s s' : Network n M Q} {me : MessageEvent n M} {time : Nat}
    (hne : me.sender ≠ me.receiver) (h : s.pushMessageEvent calcArrivalTime me time = some s') :
    (∃ t, s'.eq = s.eq ++ [⟨t, .message me⟩]) ∧ s'.eq.length ≤ maxInt ∧
      s'.nodes me.receiver = countIncomming me.m (s.nodes me.receiver) ∧
      s'.nodes me.sender = countOutgoing me.m (s.nodes me.sender) ∧
      ∀ v, v ≠ me.sender → v ≠ me.receiver → s'.nodes v = s.nodes v := by
  obtain ⟨hn, hq, hlen⟩ := push_eq h
  refine ⟨⟨_, hq⟩, hlen, ?_, ?_, fun v hs hr => ?_⟩
  · rw [hn]
    simp [modify, Function.update_of_ne hne.symm]
  · rw [hn]
    simp [modify, Function.update_of_ne hne]
  · rw [hn]
    simp [modify, Function.update_of_ne hs, Function.update_of_ne hr]

/-! ## One action -/

theorem ofNat_add_toNat (a : Nat) (x : UInt64) : UInt64.ofNat (a + x.toNat) = UInt64.ofNat a + x := by
  rw [UInt64.ofNat_add, UInt64.ofNat_toNat]

theorem toNat_add_one {x : UInt64} (h : x.toNat + 1 < 2 ^ 64) : (x + 1).toNat = x.toNat + 1 := by
  rw [UInt64.toNat_add, UInt64.toNat_one, Nat.mod_eq_of_lt h]

theorem Counted.congr {s s' : Network n M Q} {v : Fin n} (h : s.Counted v)
    (hn : s'.nodes v = s.nodes v) (hw : ∀ P f, s'.weigh P f = s.weigh P f) : s'.Counted v := by
  obtain ⟨ho, hom, hi, him⟩ := h
  exact ⟨by rw [hn, ho, bytes, bytes, hw], by rw [hn, hom, number, number, hw],
    by rw [hn, hi, bytes, bytes, hw], by rw [hn, him, number, number, hw]⟩

/-- Pushing a message in flight is counted at both ends. -/
theorem counted_pushMessageEvent {s s' : Network n M Q} {me : MessageEvent n M} {time : Nat}
    (hne : me.sender ≠ me.receiver) (h : s.pushMessageEvent calcArrivalTime me time = some s')
    (hc : ∀ v, s.Counted v) (v : Fin n) : s'.Counted v := by
  obtain ⟨⟨t, hq⟩, hlen, hr, hs, hother⟩ := pushMessageEvent_eq hne h
  have hsum : ∀ P f, s'.weigh P f = s.weigh P f + if P me then f me else 0 :=
    fun P f => weigh_append hq P f
  -- the new number is that of a queue, so it is no overflow
  have hbound : ∀ P, s.number P + (if P me then 1 else 0) < 2 ^ 64 := by
    intro P
    have hle := (number_le (s := s') P).trans hlen
    rw [number, hsum] at hle
    exact Nat.lt_of_le_of_lt hle (by decide)
  obtain ⟨hob, hom, hib, him⟩ := hc v
  by_cases hvs : v = me.sender
  · subst hvs
    have hsnd : (decide (me.sender = me.sender)) = true := decide_eq_true rfl
    have hrcv : ¬(decide (me.receiver = me.sender)) = true := by simpa using hne.symm
    refine ⟨?_, ?_, ?_, ?_⟩
    · rw [hs, bytes, hsum, if_pos hsnd, ofNat_add_toNat]
      exact congrArg (· + _) hob
    · have hb := hbound fun e => e.sender = me.sender
      rw [if_pos hsnd, ← hom] at hb
      rw [hs, number, hsum, if_pos hsnd]
      exact (toNat_add_one hb).trans (congrArg (· + 1) hom)
    · rw [hs, bytes, hsum, if_neg hrcv]
      exact hib
    · rw [hs, number, hsum, if_neg hrcv]
      exact him
  · have hsnd : ¬(decide (me.sender = v)) = true := by simpa using Ne.symm hvs
    by_cases hvr : v = me.receiver
    · subst hvr
      have hrcv : (decide (me.receiver = me.receiver)) = true := decide_eq_true rfl
      refine ⟨?_, ?_, ?_, ?_⟩
      · rw [hr, bytes, hsum, if_neg hsnd]
        exact hob
      · rw [hr, number, hsum, if_neg hsnd]
        exact hom
      · rw [hr, bytes, hsum, if_pos hrcv, ofNat_add_toNat]
        exact congrArg (· + _) hib
      · have hb := hbound fun e => e.receiver = me.receiver
        rw [if_pos hrcv, ← him] at hb
        rw [hr, number, hsum, if_pos hrcv]
        exact (toNat_add_one hb).trans (congrArg (· + 1) him)
    · have hrcv : ¬(decide (me.receiver = v)) = true := by simpa using Ne.symm hvr
      have hn := hother v hvs hvr
      refine ⟨?_, ?_, ?_, ?_⟩
      · rw [hn, bytes, hsum, if_neg hsnd]
        exact hob
      · rw [hn, number, hsum, if_neg hsnd]
        exact hom
      · rw [hn, bytes, hsum, if_neg hrcv]
        exact hib
      · rw [hn, number, hsum, if_neg hrcv]
        exact him

/-- The counters before the delivery of a message, and after it. -/
theorem arrive_eq {s : Network n M Q} {me : MessageEvent n M} (hne : me.sender ≠ me.receiver) :
    (s.arrive me).eq = s.eq ∧
      (s.arrive me).nodes me.receiver = arriveIncomming me.m (s.nodes me.receiver) ∧
      (s.arrive me).nodes me.sender = arriveOutgoing me.m (s.nodes me.sender) ∧
      ∀ v, v ≠ me.sender → v ≠ me.receiver → (s.arrive me).nodes v = s.nodes v := by
  refine ⟨rfl, ?_, ?_, fun v hs hr => ?_⟩
  · simp [arrive, modify, Function.update_of_ne hne.symm]
  · simp [arrive, modify, Function.update_of_ne hne]
  · simp [arrive, modify, Function.update_of_ne hs, Function.update_of_ne hr]

theorem toNat_sub_one {x : UInt64} (h : 1 ≤ x.toNat) : (x - 1).toNat = x.toNat - 1 := by
  rw [UInt64.toNat_sub_of_le]
  · rfl
  · exact UInt64.le_iff_toNat_le.2 h

theorem ofNat_toNat_inj {a b : Nat} {x : UInt64} (h : UInt64.ofNat a = UInt64.ofNat b)
    (hs : a = b + x.toNat) : x = 0 := by
  rw [hs, ofNat_add_toNat] at h
  simpa using h

/-- A delivery keeps the counters right and wraps none, exactly if the message has no size. -/
theorem counted_arrive {s : Network n M Q} {i : Nat} {e : Event n M Q} {me : MessageEvent n M}
    (he : s.eq[i]? = some e) (hd : e.data = .message me) (hne : me.sender ≠ me.receiver)
    (hc : ∀ v, s.Counted v) :
    (((∀ v, (({ s with eq := s.eq.eraseIdx i } : Network n M Q).arrive me).Counted v) ∧
      Message.size me.m ≤ (s.nodes me.receiver).numIncommingBytes ∧
      1 ≤ (s.nodes me.receiver).numIncommingMessages ∧
      (Message.size me.m).toNat + 1 ≤ (s.nodes me.sender).numOutgoingMessages.toNat) ↔
    Message.size me.m = 0) := by
  obtain ⟨hq, hr, hs, hother⟩ := arrive_eq (s := { s with eq := s.eq.eraseIdx i }) hne
  have hsum : ∀ P f, s.weigh P f = (({ s with eq := s.eq.eraseIdx i } : Network n M Q).arrive
      me).weigh P f + if P me then f me else 0 := by
    intro P f
    rw [weigh_eraseIdx he hq P f, hd]
    rfl
  generalize ({ s with eq := s.eq.eraseIdx i } : Network n M Q).arrive me = s' at *
  have hsnd : (decide (me.sender = me.sender)) = true := decide_eq_true rfl
  have hrcv : (decide (me.receiver = me.receiver)) = true := decide_eq_true rfl
  have hout : 1 ≤ (s.nodes me.sender).numOutgoingMessages.toNat := by
    rw [(hc me.sender).outMessages, number, hsum, if_pos hsnd]
    exact Nat.le_add_left 1 _
  have hin : 1 ≤ (s.nodes me.receiver).numIncommingMessages.toNat := by
    rw [(hc me.receiver).inMessages, number, hsum, if_pos hrcv]
    exact Nat.le_add_left 1 _
  constructor
  · rintro ⟨hc', -⟩
    -- the bytes out are not booked out
    have hbytes := (hc' me.sender).outBytes
    rw [hs] at hbytes
    apply ofNat_toNat_inj ((hc me.sender).outBytes.symm.trans hbytes)
    rw [bytes, hsum, if_pos hsnd]
    rfl
  · intro h0
    refine ⟨fun v => ?_, by rw [h0]; exact UInt64.zero_le, UInt64.le_iff_toNat_le.2 hin,
      by rw [h0]; exact hout⟩
    have hsame : ∀ P : MessageEvent n M → Bool, s'.bytes P = s.bytes P := by
      intro P
      rw [bytes, bytes, hsum, h0]
      cases P me <;> rfl
    obtain ⟨hob, hom, hib, him⟩ := hc v
    have hnum : ∀ P : MessageEvent n M → Bool, s.number P = s'.number P + if P me then 1 else 0 :=
      fun P => hsum P _
    rw [← hsame] at hob hib
    rw [hnum] at hom him
    by_cases hvs : v = me.sender
    · subst hvs
      have hr' : ¬(decide (me.receiver = me.sender)) = true := by simpa using hne.symm
      rw [if_pos hsnd] at hom
      rw [if_neg hr'] at him
      refine ⟨by rw [hs]; exact hob, ?_, by rw [hs]; exact hib, by rw [hs]; exact him⟩
      rw [hs, arriveOutgoing, h0, UInt64.sub_zero, toNat_sub_one hout, hom, Nat.add_sub_cancel]
    · have hs' : ¬(decide (me.sender = v)) = true := by simpa using Ne.symm hvs
      rw [if_neg hs'] at hom
      by_cases hvr : v = me.receiver
      · subst hvr
        rw [if_pos hrcv] at him
        refine ⟨by rw [hr]; exact hob, by rw [hr]; exact hom, ?_, ?_⟩
        · rw [hr, arriveIncomming, h0, UInt64.sub_zero]
          exact hib
        · rw [hr, arriveIncomming, toNat_sub_one hin, him, Nat.add_sub_cancel]
      · have hr' : ¬(decide (me.receiver = v)) = true := by simpa using Ne.symm hvr
        rw [if_neg hr'] at him
        have hn := hother v hvs hvr
        exact ⟨by rw [hn]; exact hob, by rw [hn]; exact hom, by rw [hn]; exact hib,
          by rw [hn]; exact him⟩

/-! ## Runs -/

/-- What an action can do. -/
inductive Moves (calcArrivalTime : ArrivalTime) (s : Network n M Q) (a : Action n M Q) :
    Network n M Q → Prop where
  | pushed {s₀ s' : Network n M Q} {me : MessageEvent n M} {time : Nat} : s₀.Sound →
      s₀.nodes = s.nodes → (∀ P f, s₀.weigh P f = s.weigh P f) → me.sender ≠ me.receiver →
      s₀.pushMessageEvent calcArrivalTime me time = some s' → s.NoWrap a → s.Weightless a →
      Moves calcArrivalTime s a s'
  | quiet {s' : Network n M Q} : s'.Sound → s'.nodes = s.nodes →
      (∀ P f, s'.weigh P f = s.weigh P f) → s.NoWrap a → s.Weightless a → Moves calcArrivalTime s a s'
  | delivered {i : Nat} {e : Event n M Q} {me : MessageEvent n M} : a = .fire i → s.eq[i]? = some e →
      e.data = .message me → me.sender ≠ me.receiver →
      Moves calcArrivalTime s a (({ s with eq := s.eq.eraseIdx i } : Network n M Q).arrive me)

omit [Message M] in
theorem weigh_eraseIdx_quiet {s : Network n M Q} {i : Nat} {e : Event n M Q}
    (he : s.eq[i]? = some e) (hd : e.data.inFlight = none) (P : MessageEvent n M → Bool)
    (f : MessageEvent n M → Nat) :
    ({ s with eq := s.eq.eraseIdx i } : Network n M Q).weigh P f = s.weigh P f := by
  have hw := weigh_eraseIdx he (rfl : ({ s with eq := s.eq.eraseIdx i } : Network n M Q).eq = _) P f
  rw [hw, hd]
  rfl

theorem moves_of_step {s s' : Network n M Q} {a : Action n M Q} (h : s.Sound)
    (hs : step calcArrivalTime s a = some s') : Moves calcArrivalTime s a s' := by
  cases a with
  | send currTime time src dst m hops =>
    simp only [step, sendMessageWithHops] at hs
    split at hs
    · cases hs
    next hne =>
    split at hs
    · exact .pushed h rfl (fun _ _ => rfl) hne hs trivial trivial
    · obtain ⟨hn, hq, hlen⟩ := push_eq hs
      refine .quiet (h.append hq hlen fun me hme => ?_) hn (weigh_of_quiet hq rfl) trivial trivial
      cases hme
      exact hne
  | push e =>
    simp only [step] at hs
    split at hs
    · next hd =>
      obtain ⟨hn, hq, hlen⟩ := push_eq hs
      refine .quiet (h.append hq hlen fun me hme => ?_) hn
        (weigh_of_quiet hq (by rw [hd]; rfl)) trivial trivial
      rw [hd] at hme
      cases hme
    · cases hs
  | fire i =>
    obtain ⟨e, he, hs⟩ := Option.bind_eq_some_iff.1 hs
    have hmem := List.mem_of_getElem? he
    split at hs
    · next me hd =>
      cases hs
      exact .delivered rfl he hd (h.apart e hmem me (by rw [hd]; rfl))
    · next me hd =>
      refine .pushed (h.erase i) rfl (weigh_eraseIdx_quiet he (by rw [hd]; rfl))
        (h.apart e hmem me (by rw [hd]; rfl)) hs ?_ ?_
      all_goals
        intro e' me' he' hd'
        rw [he, Option.some.injEq] at he'
        rw [← he', hd] at hd'
        cases hd'
    · next q hd =>
      cases hs
      refine .quiet (h.erase i) rfl (weigh_eraseIdx_quiet he (by rw [hd]; rfl)) ?_ ?_
      all_goals
        intro e' me' he' hd'
        rw [he, Option.some.injEq] at he'
        rw [← he', hd] at hd'
        cases hd'

theorem Moves.sound {s s' : Network n M Q} {a : Action n M Q} (h : s.Sound)
    (hm : Moves calcArrivalTime s a s') : s'.Sound := by
  cases hm with
  | pushed h₀ _ _ hne hp =>
    obtain ⟨⟨t, hq⟩, hlen, -⟩ := pushMessageEvent_eq hne hp
    apply h₀.append hq hlen
    intro me hme
    cases hme
    exact hne
  | quiet h' => exact h'
  | @delivered i _ _ _ _ _ _ => exact ⟨(h.erase i).apart, (h.erase i).length⟩

/-- An action keeps the counters right and wraps none, exactly if it delivers no size. -/
theorem Moves.counted {s s' : Network n M Q} {a : Action n M Q} (hc : ∀ v, s.Counted v)
    (hm : Moves calcArrivalTime s a s') : (∀ v, s'.Counted v) ∧ s.NoWrap a ↔ s.Weightless a := by
  cases hm with
  | pushed _ hn hw hne hp hnw hwl =>
    refine iff_of_true ⟨fun v => ?_, hnw⟩ hwl
    exact counted_pushMessageEvent hne hp (fun v => (hc v).congr (by rw [hn]) hw) v
  | quiet _ hn hw hnw hwl => exact iff_of_true ⟨fun v => (hc v).congr (by rw [hn]) hw, hnw⟩ hwl
  | @delivered i e me ha he hd hne =>
    subst ha
    have hiff := counted_arrive he hd hne hc
    have hfire : ∀ (e' : Event n M Q) me', s.eq[i]? = some e' → e'.data = .message me' →
        me' = me := by
      intro e' me' he' hd'
      rw [he, Option.some.injEq] at he'
      rw [← he', hd, EventData.message.injEq] at hd'
      exact hd'.symm
    constructor
    · rintro ⟨hc', hnw⟩ e' me' he' hd'
      rw [hfire e' me' he' hd']
      exact hiff.1 ⟨hc', hnw _ _ he hd⟩
    · intro hwl
      obtain ⟨hc', hnw⟩ := hiff.2 (hwl _ _ he hd)
      refine ⟨hc', fun e' me' he' hd' => ?_⟩
      rw [hfire e' me' he' hd']
      exact hnw

theorem counted_new (b : Fin n → Bandwidth) (v : Fin n) : (new b : Network n M Q).Counted v :=
  ⟨rfl, rfl, rfl, rfl⟩

omit [Message M] in
theorem sound_new (b : Fin n → Bandwidth) : (new b : Network n M Q).Sound :=
  ⟨fun _ h => absurd h List.not_mem_nil, Nat.zero_le _⟩

theorem counted_run {as : List (Action n M Q)} {s s' : Network n M Q} (h : s.Sound)
    (hc : ∀ v, s.Counted v) (hr : run (step calcArrivalTime) s as = some s') :
    (Steps (step calcArrivalTime) (fun s a => (∀ v, s.Counted v) ∧ s.NoWrap a) s as s' ∧
      ∀ v, s'.Counted v) ↔ Steps (step calcArrivalTime) Weightless s as s' := by
  induction as generalizing s with
  | nil =>
    cases hr
    exact iff_of_true ⟨.nil _, hc⟩ (.nil _)
  | cons a as ih =>
    obtain ⟨t, ht, hr⟩ := Option.bind_eq_some_iff.1 hr
    have hm := moves_of_step h ht
    constructor
    · rintro ⟨hsteps, hend⟩
      cases hsteps with
      | cons hok hs hrest =>
        rw [ht, Option.some.injEq] at hs
        subst hs
        -- the counters are right in the next state: it is the last one, or one with an action
        have hct : ∀ v, t.Counted v := by
          cases hrest with
          | nil => exact hend
          | cons hok' _ _ => exact hok'.1
        exact .cons ((hm.counted hc).1 ⟨hct, hok.2⟩) ht ((ih (hm.sound h) hct hr).1 ⟨hrest, hend⟩)
    · intro hsteps
      cases hsteps with
      | cons hwl hs hrest =>
        rw [ht, Option.some.injEq] at hs
        subst hs
        obtain ⟨hct, hnw⟩ := (hm.counted hc).2 hwl
        obtain ⟨hrest, hend⟩ := (ih (hm.sound h) hct hr).2 hrest
        exact ⟨.cons ⟨hc, hnw⟩ ht hrest, hend⟩

/-- In a run the counters match the queue in every state, and none is wrapped, if and only if
every message delivered has no size. -/
theorem counters_match_iff {b : Fin n → Bandwidth} {as : List (Action n M Q)} {s : Network n M Q}
    (h : run (step calcArrivalTime) (new b) as = some s) :
    (Steps (step calcArrivalTime) (fun s a => (∀ v, s.Counted v) ∧ s.NoWrap a) (new b) as s ∧
      ∀ v, s.Counted v) ↔
    Steps (step calcArrivalTime) Weightless (new b) as s :=
  counted_run (sound_new b) (counted_new b) h

end Network

/-! ## Two nodes -/

instance : Message UInt64 := ⟨id⟩

/-- Node 0 sends a message of the given size to node 1, where it arrives. -/
def oneMessage (size : UInt64) : List (Action 2 UInt64 Empty) := [.send 0 0 0 1 size 0, .fire 0]

def slow : Fin 2 → Bandwidth := fun _ => ⟨1000000, 1000000⟩

/-- An update leaves its bytes booked, and wraps the number of messages. -/
theorem delivery_miscounts : ∃ s, run (step instant) (Network.new slow) (oneMessage 128) = some s ∧
    s.eq = [] ∧ (s.nodes 0).numOutgoingBytes = 128 ∧
    (s.nodes 0).numOutgoingMessages = 0 - 128 ∧ ¬s.Counted 0 := by
  refine ⟨_, rfl, rfl, by decide, by decide, fun h => ?_⟩
  exact absurd h.outBytes (by decide)

/-- A replayed message has no size. -/
theorem counters_match_weightless :
    ∃ s, run (step instant) (Network.new slow) (oneMessage 0) = some s ∧ ∀ v, s.Counted v := by
  have hiff := @Network.counters_match_iff 2 UInt64 Empty instant _ slow (oneMessage 0) _ rfl
  refine ⟨_, rfl, (hiff.2 ?_).2⟩
  refine .cons trivial rfl (.cons (fun e me he hd => ?_) rfl (.nil _))
  cases he
  cases hd
  rfl

end LnConv.Netsim
