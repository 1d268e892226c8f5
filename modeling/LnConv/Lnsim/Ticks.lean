import LnConv.Lnsim.Departures
import LnConv.Lnsim.Grid
import LnConv.Lnsim.SpanningTree

/-!
# The ticks of a run

In stagger mode every node has one tick in the queue or none, on its grid, and no event is dated
before the clock.
-/

namespace LnConv.Lnsim

open Netsim

variable {n k : Nat}

namespace World

/-- Connections are with other nodes, and gossip is requested from peers. -/
structure Chosen (W : World n k) : Prop where
  connections : ∀ c ∈ W.connections, c.1 ≠ c.2
  syncers : ∀ c ∈ W.syncers, c.2 ∈ W.peers c.1

/-- No message arrives before it is sent. -/
def ArrivesLater (W : World n k) : Prop :=
  ∀ sender receiver time bytesOut bytesIn messageSize,
    time ≤ W.calcArrivalTime sender receiver time bytesOut bytesIn messageSize

end World

/-- Gossip messages, as they are sent in stagger mode. -/
inductive Body.Gossips : Body k → List (Fin k) → Prop where
  | gossip (m : Fin k) : Gossips (.gossip m) [m]
  | batch (batch : List (Fin k)) (answer : Bool) :
      Gossips (.channelUpdateBatch batch false answer) batch

namespace Sim

variable {W : World n k} {s s' : Sim n k} {now : Nat}

def tickOf (v : Fin n) (e : Event n (LightningMessage k) (Ticker n k)) : Option (Nat × Nat) :=
  match e.data with
  | .other (.stagger w interval) => if w = v then some (e.time, interval) else none
  | _ => none

/-- The stagger ticks that wait for a node, with their intervals. -/
def ticks (s : Sim n k) (v : Fin n) : List (Nat × Nat) := s.net.eq.filterMap (tickOf v)

theorem tickOf_eq_some {v : Fin n} {e : Event n (LightningMessage k) (Ticker n k)} {p : Nat × Nat}
    (h : tickOf v e = some p) : e = ⟨p.1, .other (.stagger v p.2)⟩ := by
  obtain ⟨t, d⟩ := e
  unfold tickOf at h
  split at h
  · next w i hd =>
    split at h
    · next hw =>
      cases h
      exact congrArg (Event.mk t) (hw ▸ hd)
    · cases h
  · cases h

theorem tickOf_hop {v : Fin n} {e : Event n (LightningMessage k) (Ticker n k)}
    (h : e.data.hop ≠ none) : tickOf v e = none := by
  unfold tickOf
  split
  · next hd =>
    rw [hd] at h
    exact absurd rfl h
  · rfl

/-- The state at time `now`. -/
structure OnGrid (W : World n k) (now : Nat) (s : Sim n k) : Prop where
  time : s.time = now
  future : ∀ e ∈ s.net.eq, now ≤ e.time
  broadcasts : ∀ e ∈ s.net.eq, ∀ m, e.data = .other (.broadcast m) →
    e.time = (s.messages m).broadcastTime
  nodes : ∀ v, Timed W now v (s.ticks v) (s.nodes v)

/-! ## Messages sent -/

/-- From `s` to `s'` messages were sent, none of them into the past. -/
structure Sends (now : Nat) (s s' : Sim n k) : Prop where
  nodes : s'.nodes = s.nodes
  messages : s'.messages = s.messages
  time : s'.time = s.time
  eq : ∃ es, s'.net.eq = s.net.eq ++ es ∧ ∀ e ∈ es, now ≤ e.time ∧ e.data.hop ≠ none

namespace Sends

theorem refl (now : Nat) (s : Sim n k) : Sends now s s :=
  ⟨rfl, rfl, rfl, [], (List.append_nil _).symm, by simp⟩

theorem trans {s₁ : Sim n k} (h : Sends now s s₁) (h' : Sends now s₁ s') : Sends now s s' := by
  obtain ⟨es, heq, hes⟩ := h.eq
  obtain ⟨es', heq', hes'⟩ := h'.eq
  refine ⟨h'.nodes.trans h.nodes, h'.messages.trans h.messages, h'.time.trans h.time, es ++ es', ?_, ?_⟩
  · rw [heq', heq, List.append_assoc]
  · intro e he
    exact (List.mem_append.1 he).elim (hes e) (hes' e)

theorem foldlM {α : Type} {f : Sim n k → α → Option (Sim n k)} {l : List α}
    (hf : ∀ s, ∀ x ∈ l, ∀ s', s.time = now → f s x = some s' → Sends now s s') (hs : s.time = now)
    (h : l.foldlM f s = some s') : Sends now s s' :=
  (foldlM_invariant (P := fun s₁ => Sends now s s₁)
    (fun s₁ x hx s₂ h₁ hstep => h₁.trans (hf s₁ x hx s₂ (h₁.time.trans hs) hstep)) (refl now s) h)

theorem modify (h : Sends now s s') (v : Fin n) (f : LightningNode n k → LightningNode n k) :
    Sends now (s.modify v f) (s'.modify v f) := by
  refine ⟨?_, h.messages, h.time, h.eq⟩
  unfold Sim.modify
  rw [h.nodes]

end Sends

theorem sendWithHops_sends (hW : W.ArrivesLater) {currTime time : Nat} (htime : now ≤ time)
    {src dst : Fin n} {m : LightningMessage k} {hops : Nat}
    (h : s.sendWithHops W currTime time src dst m hops = some s') : Sends now s s' := by
  obtain ⟨net, hnet, h⟩ := Option.bind_eq_some_iff.1 h
  have heq : ∃ e, net.eq = s.net.eq ++ [e] ∧ now ≤ e.time ∧ e.data.hop ≠ none := by
    unfold Network.sendMessageWithHops at hnet
    split at hnet
    · cases hnet
    split at hnet
    · exact ⟨_, (Network.push_eq hnet).2.1, htime.trans (hW ..), Option.some_ne_none _⟩
    · exact ⟨_, (Network.push_eq hnet).2.1, htime, Option.some_ne_none _⟩
  obtain ⟨e, he, hfuture, hhop⟩ := heq
  cases h
  refine ⟨rfl, rfl, rfl, [e], he, fun e' he' => ?_⟩
  rw [List.mem_singleton.1 he']
  exact ⟨hfuture, hhop⟩

theorem send_sends (hW : W.ArrivesLater) {currTime time : Nat} (htime : now ≤ time) {src dst : Fin n}
    {m : LightningMessage k} (h : s.send W currTime time src dst m = some s') : Sends now s s' :=
  sendWithHops_sends hW htime h

namespace OnGrid

theorem sends (h : OnGrid W now s) (hs : Sends now s s') : OnGrid W now s' := by
  obtain ⟨es, heq, hes⟩ := hs.eq
  refine ⟨hs.time.trans h.time, fun e he => ?_, fun e he m hm => ?_, fun v => ?_⟩
  · rw [heq] at he
    exact (List.mem_append.1 he).elim (h.future e) fun he => (hes e he).1
  · rw [heq] at he
    rw [hs.messages]
    rcases List.mem_append.1 he with he | he
    · exact h.broadcasts e he m hm
    · have hhop := (hes e he).2
      rw [hm] at hhop
      exact absurd rfl hhop
  · have hticks : s'.ticks v = s.ticks v := by
      unfold ticks
      rw [heq, List.filterMap_append, List.filterMap_eq_nil_iff.2 fun e he => tickOf_hop (hes e he).2,
        List.append_nil]
    rw [hticks, hs.nodes]
    exact h.nodes v

theorem modify (h : OnGrid W now s) {v : Fin n} {f : LightningNode n k → LightningNode n k}
    (hf : Timed W now v (s.ticks v) (f (s.nodes v))) : OnGrid W now (s.modify v f) := by
  refine ⟨h.time, h.future, h.broadcasts, fun w => ?_⟩
  change Timed W now w (s.ticks w) _
  by_cases hw : w = v
  · subst hw
    rw [modify_self]
    exact hf
  · rw [modify_of_ne _ _ hw]
    exact h.nodes w

/-- A change of other fields. -/
theorem modify_same (h : OnGrid W now s) {v : Fin n} {f : LightningNode n k → LightningNode n k}
    (hf : ∀ ln, (f ln).tickOffset = ln.tickOffset ∧ (f ln).gossipPeers = ln.gossipPeers ∧
      (f ln).willTick = ln.willTick ∧ (f ln).bq = ln.bq ∧ (f ln).seen = ln.seen) :
    OnGrid W now (s.modify v f) := by
  obtain ⟨h₁, h₂, h₃, h₄, h₅⟩ := hf (s.nodes v)
  refine h.modify ((h.nodes v).same h₁ ?_ h₃ h₄ h₅)
  rw [h₂]
  exact (h.nodes v).peers

theorem messages (h : OnGrid W now s) {messages : Fin k → Gossip n}
    (hm : ∀ m, (messages m).broadcastTime = (s.messages m).broadcastTime) :
    OnGrid W now { s with messages := messages } :=
  ⟨h.time, h.future, fun e he m hd => (h.broadcasts e he m hd).trans (hm m).symm, h.nodes⟩

/-! ## Gossip messages received -/

end OnGrid

/-- `HandleUpdate` in stagger mode. -/
theorem handleUpdate_eq (hmode : W.algo.reconcilTimer = 0) (s : Sim n k) (time : Nat) (m : Fin k)
    (v sender : Fin n) (hops : Nat) : s.handleUpdate W time m v sender hops =
      if n ≤ (s.messages m).seen then some s
      else if s.count v m ≠ 0 then some ((s.counted m v).modify v (·.noteSender m sender hops))
      else if n ≤ (s.messages m).seen + 1 then some ((s.noted time m v hops).deleteMessage m)
      else if (s.stored time m v hops).2.2 = false then
        some ((s.noted time m v hops).modify v fun _ => (s.stored time m v hops).1)
      else ((s.noted time m v hops).modify v fun _ => (s.stored time m v hops).1.enqueue m
        ⟨{sender}, hops, time⟩).scheduleStaggerTick W v time := by
  have hnew : (s.nodes v).isNewMessage m = decide (s.count v m = 0) := by
    rw [Bool.eq_iff_iff, (s.nodes v).isNewMessage_iff, decide_eq_true_iff]
    rfl
  have hseen := s.noted_seen time m v hops
  unfold handleUpdate
  simp only [hnew]
  by_cases hcount : s.count v m = 0
  · change (if n ≤ (s.messages m).seen then some s
      else if !decide (s.count v m = 0) && W.algo.reconcilTimer == 0 then _
      else if !decide (s.count v m = 0) then _
      else if n ≤ ((s.noted time m v hops).messages m).seen then
        some ((s.noted time m v hops).deleteMessage m)
      else if !(s.stored time m v hops).2.2 then
        some ((s.noted time m v hops).modify v fun _ => (s.stored time m v hops).1)
      else if 0 < W.algo.reconcilTimer then _
      else (((s.noted time m v hops).modify v fun _ => (s.stored time m v hops).1).modify v
        (·.enqueue m ⟨{sender}, hops, time⟩)).scheduleStaggerTick W v time) = _
    rw [hseen]
    simp [hcount, hmode, modify_modify]
  · simp [hcount, hmode]
    rfl

theorem scheduleStaggerTick_eq (hmode : W.algo.reconcilTimer = 0) {s : Sim n k} {v : Fin n}
    (ho : (s.nodes v).tickOffset = W.tickOffset v) (time : Nat) :
    s.scheduleStaggerTick W v time = if (s.nodes v).willTick then some s
      else (getNextTick time (lastTick W.algo.staggerTimer (W.tickOffset v) time)
        W.algo.staggerTimer).bind fun t => (s.newTicker (t - time) 0 (.stagger v (t - time))).map
          (·.modify v fun ln => { ln with willTick := true }) := by
  unfold scheduleStaggerTick lastTick
  dsimp only
  rw [ho]
  cases hwill : (s.nodes v).willTick with
  | true => simp
  | false =>
    simp only [hmode, true_and, if_true, Option.bind_eq_bind, Option.map_eq_bind, Bool.false_eq_true,
      if_false]
    rfl

namespace OnGrid

/-- A node that waits for no tick is given one. -/
theorem schedule (h : OnGrid W now s) {v : Fin n} {t interval : Nat} (hnow : now ≤ t)
    {net : Network n (LightningMessage k) (Ticker n k)}
    (hnet : s.net.push ⟨t, .other (.stagger v interval)⟩ = some net) (hnone : s.ticks v = [])
    {ln : LightningNode n k} (hv : Timed W now v [(t, interval)] ln) :
    OnGrid W now (({ s with net := net } : Sim n k).modify v fun _ => ln) := by
  have heq : net.eq = s.net.eq ++ [⟨t, .other (.stagger v interval)⟩] := (Network.push_eq hnet).2.1
  have hmem : ∀ e ∈ net.eq, e ∈ s.net.eq ∨ e = ⟨t, .other (.stagger v interval)⟩ := by
    intro e he
    rw [heq] at he
    exact (List.mem_append.1 he).imp id List.mem_singleton.1
  refine ⟨h.time, fun e he => ?_, fun e he m hm => ?_, fun w => ?_⟩
  · rcases hmem e he with he | rfl
    · exact h.future e he
    · exact hnow
  · rcases hmem e he with he | rfl
    · exact h.broadcasts e he m hm
    · cases hm
  · have hticks : (({ s with net := net } : Sim n k).modify v fun _ => ln).ticks w =
        s.ticks w ++ if v = w then [(t, interval)] else [] := by
      show net.eq.filterMap _ = _
      rw [heq, List.filterMap_append]
      by_cases hw : v = w <;> simp [ticks, tickOf, hw]
    rw [hticks]
    by_cases hw : w = v
    · subst hw
      rw [modify_self, if_pos rfl, hnone]
      exact hv
    · rw [modify_of_ne _ _ hw, if_neg (Ne.symm hw), List.append_nil]
      exact h.nodes w

theorem counted (h : OnGrid W now s) (m : Fin k) (v : Fin n) : OnGrid W now (s.counted m v) :=
  h.modify ((h.nodes v).countSeen m)

theorem noted (h : OnGrid W now s) (time : Nat) (m : Fin k) (v : Fin n) (hops : Nat) :
    OnGrid W now (s.noted time m v hops) := by
  have hsame : ∀ m', ((s.noted time m v hops).messages m').broadcastTime =
      ((s.counted m v).messages m').broadcastTime := by
    intro m'
    rw [stays_noted.messages m']
    rfl
  have hm := (h.counted m v).messages hsame
  exact ⟨hm.time, hm.future, hm.broadcasts, hm.nodes⟩

theorem deleteMessage (h : OnGrid W now s) (m : Fin k) : OnGrid W now (s.deleteMessage m) :=
  ⟨h.time, h.future, h.broadcasts, fun v => (h.nodes v).cleanup m⟩

/-- The node of a message handled for the first time: it has counted the message, and not sent it. -/
theorem stored (h : OnGrid W now s) {m : Fin k} {v : Fin n} (hnew : s.count v m = 0) (time hops : Nat) :
    Timed W now v (s.ticks v) (s.stored time m v hops).1 ∧
      (((s.stored time m v hops).1.metaData m).broadcast = false ∧
        ((s.stored time m v hops).1.metaData m).count ≠ 0) ∧
      (s.stored time m v hops).1.willTick = (s.nodes v).willTick := by
  have hcounted := (h.nodes v).countSeen m
  have hmeta : (s.stored time m v hops).1.metaData m = ((s.nodes v).countSeen m).metaData m := by
    rw [stored_node]
    rfl
  refine ⟨?_, ⟨?_, ?_⟩, ?_⟩
  · rw [stored_node]
    exact hcounted.same rfl hcounted.peers rfl rfl rfl
  · rw [hmeta, Timed.countSeen_broadcast, Bool.eq_false_iff]
    exact fun hb => (h.nodes v).marked m hb hnew
  · rw [hmeta, LightningNode.countSeen_self]
    exact Nat.succ_ne_zero _
  · rw [stored_node]
    rfl

variable {m : Fin k} {v sender : Fin n} {hops : Nat}

/-- A message is handled: if it is queued without a tick, a tick is scheduled on the grid. -/
theorem handleUpdate_cases (h : OnGrid W now s) (hmode : W.algo.reconcilTimer = 0)
    (hs : s.handleUpdate W now m v sender hops = some s') :
    OnGrid W now s' ∧ (s'.net.eq = s.net.eq ∨ s.ticks v = [] ∧ ∃ t, now < t ∧
      t ≤ now + W.algo.staggerTimer ∧
      s'.net.eq = s.net.eq ++ [⟨t, .other (.stagger v (t - now))⟩]) := by
  rw [handleUpdate_eq hmode] at hs
  split at hs
  · cases hs
    exact ⟨h, .inl rfl⟩
  split at hs
  · cases hs
    have hc := h.counted m v
    exact ⟨hc.modify ((hc.nodes v).noteSender m sender hops), .inl rfl⟩
  next hnew =>
  have hnew := not_not.1 hnew
  split at hs
  · cases hs
    exact ⟨(h.noted now m v hops).deleteMessage m, .inl rfl⟩
  obtain ⟨hln, hfresh, hwill⟩ := h.stored hnew now hops
  split at hs
  · cases hs
    exact ⟨(h.noted now m v hops).modify hln, .inl rfl⟩
  have hoffset : (((s.noted now m v hops).modify v fun _ => (s.stored now m v hops).1.enqueue m
      ⟨{sender}, hops, now⟩).nodes v).tickOffset = W.tickOffset v := by
    rw [modify_self]
    exact hln.tickOffset
  rw [scheduleStaggerTick_eq hmode hoffset, modify_self] at hs
  split at hs
  · next hon =>
    cases hs
    exact ⟨(h.noted now m v hops).modify (hln.enqueue hon hfresh rfl), .inl rfl⟩
  · next hoff =>
    have hoff : (s.stored now m v hops).1.willTick = false := Bool.not_eq_true _ ▸ hoff
    have ho : W.tickOffset v < W.algo.staggerTimer := Nat.lt_of_succ_lt (W.tickOffset_lt v)
    have harrival : (⟨{sender}, hops, now⟩ : MessageWithSenders n).arrivalTime = now := rfl
    obtain ⟨hnone, harm⟩ := hln.arm ho hoff hfresh harrival
    have harmed := hln.armed
    rw [hoff] at harmed
    obtain ⟨-, hfirst⟩ := harmed.of_off
    obtain ⟨hle, hlt⟩ := lastTick_le ho hfirst
    rw [getNextTick_lastTick ho hfirst, Option.bind_some] at hs
    obtain ⟨s₁, hs₁, hs⟩ := Option.map_eq_some_iff.1 hs
    obtain ⟨net, hnet, hs₁⟩ := Option.bind_eq_some_iff.1 hs₁
    have htime :
        s.time + (lastTick W.algo.staggerTimer (W.tickOffset v) now + W.algo.staggerTimer - now) - 0 =
        lastTick W.algo.staggerTimer (W.tickOffset v) now + W.algo.staggerTimer := by
      rw [h.time]
      omega
    change s.net.push ⟨s.time + _ - 0, _⟩ = some net at hnet
    rw [htime] at hnet
    have hgrid := (h.noted now m v hops).schedule (Nat.le_of_lt hlt) hnet hnone harm
    cases hs₁
    subst hs
    refine ⟨?_, .inr ⟨hnone, _, hlt, by omega, (Network.push_eq hnet).2.1⟩⟩
    change OnGrid W now ((({ s.noted now m v hops with net := net } : Sim n k).modify v fun _ =>
      (s.stored now m v hops).1.enqueue m ⟨{sender}, hops, now⟩).modify v fun ln =>
        { ln with willTick := true })
    rw [modify_modify]
    exact hgrid

end OnGrid

/-! ## Messages received -/

/-- At `now` the handler has come from `s` to `s'`; where a node waited for no tick it may have
scheduled one. -/
structure Handled (W : World n k) (now : Nat) (s s' : Sim n k) : Prop where
  grid : OnGrid W now s'
  ticks : ∀ v, s'.ticks v = s.ticks v ∨ s.ticks v = [] ∧ ∃ t, now < t ∧
    t ≤ now + W.algo.staggerTimer ∧ s'.ticks v = [(t, t - now)]

theorem Sends.ticks (h : Sends now s s') (v : Fin n) : s'.ticks v = s.ticks v := by
  obtain ⟨es, heq, hes⟩ := h.eq
  unfold Sim.ticks
  rw [heq, List.filterMap_append, List.filterMap_eq_nil_iff.2 fun e he => tickOf_hop (hes e he).2,
    List.append_nil]

namespace Handled

/-- Nothing is scheduled. -/
theorem of_grid (h : OnGrid W now s') (hticks : ∀ v, s'.ticks v = s.ticks v) : Handled W now s s' :=
  ⟨h, fun v => .inl (hticks v)⟩

theorem trans {s₁ : Sim n k} (h : Handled W now s s₁) (h' : Handled W now s₁ s') :
    Handled W now s s' := by
  refine ⟨h'.grid, fun v => ?_⟩
  rcases h'.ticks v with hsame | ⟨hnone, t, ht, hle, hticks⟩
  · rw [hsame]
    exact h.ticks v
  · right
    rcases h.ticks v with hsame | ⟨-, t', -, -, hticks'⟩
    · exact ⟨hsame ▸ hnone, t, ht, hle, hticks⟩
    · rw [hticks'] at hnone
      cases hnone

theorem sends (h : Handled W now s s') {s'' : Sim n k} (hs : Sends now s' s'') :
    Handled W now s s'' :=
  h.trans (of_grid (h.grid.sends hs) hs.ticks)

end Handled

namespace OnGrid

theorem handleUpdate (h : OnGrid W now s) (hmode : W.algo.reconcilTimer = 0) {m : Fin k}
    {v sender : Fin n} {hops : Nat} (hs : s.handleUpdate W now m v sender hops = some s') :
    Handled W now s s' := by
  obtain ⟨hgrid, hcase⟩ := h.handleUpdate_cases hmode hs
  refine ⟨hgrid, fun w => ?_⟩
  unfold ticks
  rcases hcase with heq | ⟨hnone, t, ht, hle, heq⟩
  · rw [heq]
    exact .inl rfl
  · rw [heq, List.filterMap_append]
    by_cases hw : v = w
    · subst hw
      refine .inr ⟨hnone, t, ht, hle, ?_⟩
      change s.ticks v ++ _ = _
      rw [hnone]
      simp [tickOf]
    · left
      simp [tickOf, hw]

theorem handleUpdates (h : OnGrid W now s) (hmode : W.algo.reconcilTimer = 0) {ms : List (Fin k)}
    {v sender : Fin n} {hops : Nat}
    (hs : ms.foldlM (fun s m => s.handleUpdate W now m v sender hops) s = some s') :
    Handled W now s s' :=
  foldlM_invariant (P := fun s₁ => Handled W now s s₁)
    (fun _ _ _ _ h₁ hstep => h₁.trans (h₁.grid.handleUpdate hmode hstep)) (.of_grid h fun _ => rfl) hs

theorem clearOnSuccess (h : OnGrid W now s) {v peerID : Fin n} {success : Bool}
    (hs : s.clearOnSuccess v peerID success = some s') : Handled W now s s' := by
  rw [(clearOnSuccess_spec hs).1]
  unfold cleared
  split
  · exact .of_grid (h.modify_same fun ln => ⟨rfl, rfl, rfl, rfl, rfl⟩) fun _ => rfl
  · exact .of_grid h fun _ => rfl

theorem sendQuery (h : OnGrid W now s) (hW : W.ArrivesLater) {invs : List (ChannelInv k)}
    {v dst : Fin n} (hs : s.sendQuery W invs now v dst = some s') : Handled W now s s' := by
  simp only [Sim.sendQuery] at hs
  split at hs
  · cases hs
    exact .of_grid h fun _ => rfl
  · have h₁ := h.modify_same (v := v) (f := (·.request (invs.filter ((s.nodes v).asks s.messages))))
      fun ln => ⟨rfl, rfl, rfl, rfl, rfl⟩
    have h₂ : Handled W now s (s.modify v _) := .of_grid h₁ fun _ => rfl
    exact h₂.sends (send_sends hW (Nat.le_refl _) hs)

theorem handleSketch (h : OnGrid W now s) (hW : W.ArrivesLater) {v sender : Fin n}
    (hs : s.handleSketch W now v sender = some s') : Handled W now s s' := by
  obtain ⟨lnSet, -, hs⟩ := Option.bind_eq_some_iff.1 hs
  obtain ⟨senderSet, -, hs⟩ := Option.bind_eq_some_iff.1 hs
  obtain ⟨s₁, hs₁, hs⟩ := Option.bind_eq_some_iff.1 hs
  obtain ⟨s₂, hs₂, hs⟩ := Option.bind_eq_some_iff.1 hs
  have h₂ := (h.sendQuery hW hs₁).sends (send_sends hW (Nat.le_add_right now 2) hs₂)
  cases hs
  exact h₂.trans (.of_grid (h₂.grid.modify_same fun ln => ⟨rfl, rfl, rfl, rfl, rfl⟩) fun _ => rfl)

theorem receive (h : OnGrid W now s) (hmode : W.algo.reconcilTimer = 0) (hW : W.ArrivesLater)
    {me : Packet n k} (hs : s.receive W now me = some s') : Handled W now s s' := by
  unfold Sim.receive at hs
  dsimp only at hs
  split at hs
  · exact h.handleUpdate hmode hs
  · simp only [receiveQuery] at hs
    split at hs
    · cases hs
    · obtain ⟨batch, -, hs⟩ := Option.bind_eq_some_iff.1 hs
      split at hs
      · cases hs
        exact .of_grid h fun _ => rfl
      · exact Handled.sends (.of_grid h fun _ => rfl) (send_sends hW (Nat.le_refl _) hs)
  · obtain ⟨s₁, hs₁, hs⟩ := Option.bind_eq_some_iff.1 hs
    have h₁ := h.clearOnSuccess hs₁
    exact h₁.trans (h₁.grid.handleUpdates hmode hs)
  · obtain ⟨s₁, hs₁, hs⟩ := Option.bind_eq_some_iff.1 hs
    have h₁ := h.clearOnSuccess hs₁
    exact h₁.trans (h₁.grid.sendQuery hW hs)
  · exact h.handleSketch hW hs
  · obtain ⟨lnSet, -, hs⟩ := Option.bind_eq_some_iff.1 hs
    exact Handled.sends (.of_grid h fun _ => rfl) (send_sends hW (Nat.le_refl _) hs)

/-! ## Broadcasts -/

/-- A message goes out at the time it is broadcast, and its origin does not wait with it. -/
theorem broadcastTo (h : OnGrid W now s) (hW : W.ArrivesLater) {v : Fin n} {m : Fin k}
    {dests : Finset (Fin n)} (htime : (s.messages m).broadcastTime = now)
    (hbq : (s.nodes v).bq m = none) (hs : s.broadcastTo W v m dests = some s') :
    Handled W now s s' := by
  obtain ⟨s₁, hs₁, hs⟩ := Option.bind_eq_some_iff.1 hs
  have hsends : Sends now s s₁ := Sends.foldlM
    (fun _ _ _ _ _ hsend => send_sends hW (Nat.le_of_eq htime.symm) hsend) h.time hs₁
  have h₁ := h.sends hsends
  rw [← hsends.nodes] at hbq
  have h₂ := h₁.modify (f := (·.markSeen m)) ((h₁.nodes v).markSeen hbq)
  have hstore : ∀ ln : LightningNode n k, (ln.storeNew s₁.messages m).1 =
      { ln with seenByChannel := (ln.storeNew s₁.messages m).1.seenByChannel } := fun ln =>
    (LightningNode.storeNew_spec s₁.messages ln m).node
  have h₃ := h₂.modify_same (v := v) (f := fun ln => (ln.storeNew s₁.messages m).1) fun ln => by
    rw [hstore ln]
    exact ⟨rfl, rfl, rfl, rfl, rfl⟩
  cases hs
  exact .of_grid ⟨h₃.time, h₃.future, h₃.broadcasts, h₃.nodes⟩ hsends.ticks

theorem fireBroadcast (h : OnGrid W now s) (hW : W.ArrivesLater) {l : Label n} {m : Fin k}
    (htime : (s.messages m).broadcastTime = now) (hbq : ∀ v, (s.nodes v).bq m = none)
    (hs : s.fireBroadcast W l m = some s') : Handled W now s s' := by
  unfold Sim.fireBroadcast at hs
  split at hs
  · split at hs
    · obtain ⟨⟨channelID, direction⟩, -, hs⟩ := Option.bind_eq_some_iff.1 hs
      have hsame : ∀ m', (Function.update s.messages m { s.messages m with
          channelID := channelID, type := .channelUpdate,
          lastUpdate := (s.messages m).broadcastTime, origin := some l.node,
          direction := direction } m').broadcastTime = (s.messages m').broadcastTime := by
        intro m'
        by_cases hm : m' = m
        · subst hm
          rw [Function.update_self]
        · rw [Function.update_of_ne hm]
      have h₁ := (h.messages hsame).broadcastTo hW ((hsame m).trans htime) (hbq l.node) hs
      exact ⟨h₁.grid, h₁.ticks⟩
    · cases hs
  · obtain ⟨v, -, hs⟩ := Option.bind_eq_some_iff.1 hs
    unfold broadcastMessage at hs
    split at hs
    · cases hs
      exact .of_grid h fun _ => rfl
    · exact h.broadcastTo hW htime (hbq v) hs

end OnGrid

/-! ## Events -/

/-- An event leaves the ticks of a node, if it is one of them, and the others stay. -/
theorem ticks_pop {i : Nat} {e : Event n (LightningMessage k) (Ticker n k)}
    (he : s.net.eq[i]? = some e) (v : Fin n) : ∃ l₁ l₂,
      s.ticks v = l₁ ++ (tickOf v e).toList ++ l₂ ∧ (s.pop i e).ticks v = l₁ ++ l₂ := by
  obtain ⟨hi, rfl⟩ := List.getElem?_eq_some_iff.1 he
  refine ⟨(s.net.eq.take i).filterMap (tickOf v), (s.net.eq.drop (i + 1)).filterMap (tickOf v), ?_, ?_⟩
  · unfold ticks
    conv_lhs => rw [← List.take_append_drop i s.net.eq, List.drop_eq_getElem_cons hi]
    rw [List.filterMap_append, List.filterMap_cons]
    cases htick : tickOf v s.net.eq[i] <;> simp
  · unfold ticks pop
    rw [List.eraseIdx_eq_take_drop_succ, List.filterMap_append]

/-- The event that fires is an earliest of the heap. -/
def IsEarliest (s : Sim n k) (l : Label n) : Prop :=
  ∃ e ∈ s.net.eq[l.event]?, ∀ e' ∈ s.net.eq, e.time ≤ e'.time

instance (s : Sim n k) (l : Label n) : Decidable (s.IsEarliest l) :=
  match he : s.net.eq[l.event]? with
  | none => isFalse (by simp [IsEarliest, he])
  | some e => decidable_of_iff (∀ e' ∈ s.net.eq, e.time ≤ e'.time) (by simp [IsEarliest, he])

namespace OnGrid

section event

variable {i : Nat} {e : Event n (LightningMessage k) (Ticker n k)}

theorem now_le (h : OnGrid W now s) (he : s.net.eq[i]? = some e) : now ≤ e.time :=
  h.future e (List.mem_of_getElem? he)

/-- An event that is not a stagger tick leaves the queue. -/
theorem pop (h : OnGrid W now s) (he : s.net.eq[i]? = some e)
    (hleast : ∀ e' ∈ s.net.eq, e.time ≤ e'.time) (hnot : ∀ v, tickOf v e = none) :
    OnGrid W e.time (s.pop i e) ∧ ∀ v, (s.pop i e).ticks v = s.ticks v := by
  have hticks : ∀ v, (s.pop i e).ticks v = s.ticks v := by
    intro v
    obtain ⟨l₁, l₂, hs, hpop⟩ := ticks_pop he v
    rw [hpop, hs, hnot v, Option.toList_none, List.append_nil]
  have hmem : ∀ e' ∈ (s.pop i e).net.eq, e' ∈ s.net.eq := fun e' he' => List.mem_of_mem_eraseIdx he'
  refine ⟨⟨rfl, fun e' he' => hleast e' (hmem e' he'), fun e' he' => h.broadcasts e' (hmem e' he'),
    fun v => ?_⟩, hticks⟩
  rw [hticks]
  exact (h.nodes v).later (h.now_le he)

/-- The tick that fires is the one of its node. -/
theorem ticks_eq (h : OnGrid W now s) (he : s.net.eq[i]? = some e) {v : Fin n} {interval : Nat}
    (hd : e.data = .other (.stagger v interval)) :
    s.ticks v = [(e.time, interval)] ∧ (s.pop i e).ticks v = [] := by
  have htick : tickOf v e = some (e.time, interval) := by
    unfold tickOf
    rw [hd]
    exact if_pos rfl
  obtain ⟨l₁, l₂, hs, hpop⟩ := ticks_pop he v
  rw [htick, Option.toList_some] at hs
  have hone := (h.nodes v).armed.of_mem (p := (e.time, interval)) (by rw [hs]; simp)
  rw [hs] at hone
  have hlen := congrArg List.length hone
  rw [List.length_append, List.length_append, List.length_singleton] at hlen
  have hl₁ : l₁ = [] := List.eq_nil_of_length_eq_zero (by omega)
  have hl₂ : l₂ = [] := List.eq_nil_of_length_eq_zero (by omega)
  rw [hs, hpop, hl₁, hl₂]
  exact ⟨rfl, rfl⟩

/-- A stagger tick leaves the queue, and its node's queue is emptied. -/
theorem popTick (h : OnGrid W now s) (he : s.net.eq[i]? = some e)
    (hleast : ∀ e' ∈ s.net.eq, e.time ≤ e'.time) {v : Fin n} {interval : Nat}
    (hd : e.data = .other (.stagger v interval)) :
    OnGrid W e.time ((s.pop i e).modify v LightningNode.clearQueue) ∧
      ∀ w, (s.pop i e).ticks w = if w = v then [] else s.ticks w := by
  obtain ⟨hv, hpop⟩ := h.ticks_eq he hd
  have hticks : ∀ w, (s.pop i e).ticks w = if w = v then [] else s.ticks w := by
    intro w
    by_cases hw : w = v
    · subst hw
      rw [if_pos rfl, hpop]
    · obtain ⟨l₁, l₂, hs, hpop⟩ := ticks_pop he w
      have hnone : tickOf w e = none := by
        unfold tickOf
        rw [hd]
        exact if_neg (Ne.symm hw)
      rw [if_neg hw, hpop, hs, hnone, Option.toList_none, List.append_nil]
  have hmem : ∀ e' ∈ (s.pop i e).net.eq, e' ∈ s.net.eq := fun e' he' => List.mem_of_mem_eraseIdx he'
  refine ⟨⟨rfl, fun e' he' => hleast e' (hmem e' he'), fun e' he' => h.broadcasts e' (hmem e' he'),
    fun w => ?_⟩, hticks⟩
  change Timed W e.time w ((s.pop i e).ticks w) _
  rw [hticks]
  by_cases hw : w = v
  · subst hw
    rw [if_pos rfl, modify_self]
    have harmed := (h.nodes w).armed
    rw [hv] at harmed
    have hfirst : W.algo.staggerTimer - W.tickOffset w ≤ e.time := by
      obtain ⟨-, ⟨j, hj, ht⟩, -⟩ := harmed.of_on
      rw [ht]
      exact Nat.sub_le_sub_right (Nat.le_mul_of_pos_left _ hj) _
    exact ((h.nodes w).later (h.now_le he)).clearQueue hfirst
  · rw [if_neg hw, modify_of_ne _ _ hw]
    exact (h.nodes w).later (h.now_le he)

theorem staggerTick {v : Fin n} (h : OnGrid W now (s.modify v LightningNode.clearQueue))
    (hW : W.ArrivesLater) {interval : Nat} (hs : s.staggerTick W now v interval = some s') :
    OnGrid W now s' ∧ ∀ w, s'.ticks w = s.ticks w := by
  obtain ⟨-, batchSize, -, s₁, hs₁, rfl⟩ := departs_of_staggerTick hs
  have hsends : Sends now s s₁ := Sends.foldlM
    (fun _ _ _ _ _ hd => sendWithHops_sends hW (Nat.le_add_right _ _) hd) h.time hs₁
  exact ⟨h.sends (hsends.modify v _), hsends.ticks⟩

end event

end OnGrid

/-- A node keeps its tick, has had it, or is given one, which is later by at most the timer. -/
def Rearms (W : World n k) (s s' : Sim n k) : Prop :=
  ∀ v, s'.ticks v = s.ticks v ∨ s'.ticks v = [] ∨ s.ticks v = [] ∧ ∃ t, s'.time < t ∧
    t ≤ s'.time + W.algo.staggerTimer ∧ s'.ticks v = [(t, t - s'.time)]

theorem Handled.rearms {s₁ : Sim n k} (h : Handled W now s₁ s')
    (hticks : ∀ v, s₁.ticks v = s.ticks v) : Rearms W s s' := by
  intro v
  rw [h.grid.time, ← hticks]
  exact (h.ticks v).imp_right .inr

/-- A step at the time of its event. -/
theorem onGrid_step {l : Label n} (h : OnGrid W now s) (hk : KnownOnly W s)
    (hmode : W.algo.reconcilTimer = 0) (hW : W.ArrivesLater) (hl : s.IsEarliest l)
    (hs : step W s l = some s') : ∃ now', OnGrid W now' s' ∧ Rearms W s s' := by
  obtain ⟨e, he, hleast⟩ := hl
  obtain ⟨e', he', hs⟩ := Option.bind_eq_some_iff.1 hs
  obtain rfl : e' = e := Option.some.inj (he'.symm.trans he)
  -- an event that is not a tick, and what its handler does
  have hother : (∀ v, tickOf v e' = none) →
      (OnGrid W e'.time (s.pop l.event e') → Handled W e'.time (s.pop l.event e') s') →
      ∃ now', OnGrid W now' s' ∧ Rearms W s s' := by
    intro hnot hhandled
    obtain ⟨hpop, hticks⟩ := h.pop he hleast hnot
    have hh := hhandled hpop
    exact ⟨e'.time, hh.grid, hh.rearms hticks⟩
  simp only at hs
  split at hs
  · next me hd =>
    refine hother (fun v => tickOf_hop (by rw [hd]; exact Option.some_ne_none _)) fun hpop => ?_
    obtain ⟨net, hnet, hs⟩ := Option.bind_eq_some_iff.1 hs
    cases hs
    refine Handled.sends (.of_grid hpop fun _ => rfl) ⟨rfl, rfl, rfl, _, (Network.push_eq hnet).2.1, ?_⟩
    intro e he
    rw [List.mem_singleton.1 he]
    exact ⟨hW .., Option.some_ne_none _⟩
  · next me hd =>
    refine hother (fun v => tickOf_hop (by rw [hd]; exact Option.some_ne_none _)) fun hpop => ?_
    have harrived : OnGrid W e'.time ((s.pop l.event e').arrive me) :=
      ⟨hpop.time, hpop.future, hpop.broadcasts, hpop.nodes⟩
    have hh := harrived.receive hmode hW hs
    exact ⟨hh.grid, hh.ticks⟩
  · next v interval hd =>
    obtain ⟨hpop, hticks⟩ := h.popTick he hleast hd
    obtain ⟨hgrid, hsame⟩ := hpop.staggerTick hW hs
    refine ⟨e'.time, hgrid, fun w => ?_⟩
    rw [hsame, hticks]
    split
    · exact .inr (.inl rfl)
    · exact .inl rfl
  · next v peerID hd =>
    refine hother (fun w => by unfold tickOf; rw [hd]) fun hpop => ?_
    obtain ⟨t, -, hs⟩ := Option.bind_eq_some_iff.1 hs
    obtain ⟨set, -, hs⟩ := Option.bind_eq_some_iff.1 hs
    have h₁ := hpop.modify_same (v := v) (f := fun ln => { ln with
      gossipTickers := Function.update ln.gossipTickers peerID (some ⟨e'.time, false⟩) })
      fun ln => ⟨rfl, rfl, rfl, rfl, rfl⟩
    have h₂ : Handled W e'.time (s.pop l.event e') ((s.pop l.event e').modify v _) :=
      .of_grid h₁ fun _ => rfl
    exact h₂.sends (send_sends hW (Nat.le_refl _) hs)
  · next m hd =>
    refine hother (fun w => by unfold tickOf; rw [hd]) fun hpop => ?_
    have hmem := List.mem_of_getElem? he'
    have hqueued : m ∈ s.queued := by
      refine Multiset.mem_coe.2 (List.mem_filterMap.2 ⟨e', hmem, ?_⟩)
      unfold broadcastOf
      rw [hd]
    refine hpop.fireBroadcast hW (h.broadcasts e' hmem m hd).symm (fun v => ?_) hs
    cases hbq : (s.nodes v).bq m with
    | none => exact hbq
    | some ms => exact absurd ((hk.nodes v).bq m ms hbq) (hk.queued m hqueued)
  · next pe hd =>
    refine hother (fun w => by unfold tickOf; rw [hd]) fun hpop => ?_
    cases hs
    exact .of_grid hpop fun _ => rfl

/-! ## The first state -/

/-- The tick that each node starts with. -/
theorem initStaggerTickers_ticks {l : List (Fin n)} (hl : l.Nodup) {s s' : Sim n k}
    (h : l.foldlM (initStaggerTicker W) s = some s') :
    s' = { s with net := s'.net } ∧
    (∀ v, s'.ticks v = s.ticks v ++ if v ∈ l then [(s.time + W.algo.staggerTimer -
      (s.nodes v).tickOffset, W.algo.staggerTimer)] else []) ∧
    ∀ e ∈ s'.net.eq, e ∈ s.net.eq ∨ ∃ v i, e.data = .other (.stagger v i) := by
  induction l generalizing s with
  | nil =>
    cases h
    exact ⟨rfl, fun v => by simp, fun e he => .inl he⟩
  | cons w l ih =>
    obtain ⟨hw, hl⟩ := List.nodup_cons.1 hl
    rw [List.foldlM_cons] at h
    obtain ⟨s₁, hs₁, h⟩ := Option.bind_eq_some_iff.1 h
    obtain ⟨net, hnet, hs₁⟩ := Option.bind_eq_some_iff.1 hs₁
    have heq := (Network.push_eq hnet).2.1
    cases hs₁
    obtain ⟨hs', hticks, hmem⟩ := ih hl h
    refine ⟨hs', fun v => ?_, fun e he => ?_⟩
    · rw [hticks]
      have hone : ({ s with net := net } : Sim n k).ticks v = s.ticks v ++ if v = w then
          [(s.time + W.algo.staggerTimer - (s.nodes v).tickOffset, W.algo.staggerTimer)] else [] := by
        show net.eq.filterMap _ = _
        rw [heq, List.filterMap_append]
        by_cases hv : v = w
        · subst hv
          simp [ticks, tickOf]
        · simp [ticks, tickOf, hv, Ne.symm hv]
      rw [hone]
      by_cases hv : v = w
      · subst hv
        simp [hw]
      · simp [hv]
    · rcases hmem e he with he | he
      · change e ∈ net.eq at he
        rw [heq] at he
        rcases List.mem_append.1 he with he | he
        · exact .inl he
        · exact .inr ⟨w, _, by rw [List.mem_singleton.1 he]⟩
      · exact .inr he

theorem onGrid_initStaggerTickers (hmode : W.algo.reconcilTimer = 0)
    (h : (new W).initStaggerTickers W = some s) : OnGrid W 0 s := by
  unfold initStaggerTickers at h
  rw [if_pos hmode] at h
  obtain ⟨hs, hticks, hmem⟩ := initStaggerTickers_ticks (List.nodup_finRange n) h
  have hnodes : s.nodes = (new W).nodes := by rw [hs]
  have htick : ∀ e ∈ s.net.eq, ∃ v i, e.data = .other (.stagger v i) := fun e he =>
    (hmem e he).resolve_left List.not_mem_nil
  refine ⟨by rw [hs]; rfl, fun e _ => Nat.zero_le _, fun e he m hm => ?_, fun v => ?_⟩
  · obtain ⟨v, i, hd⟩ := htick e he
    rw [hd] at hm
    cases hm
  · have ho := W.tickOffset_lt v
    rw [hnodes, hticks, if_pos (List.mem_finRange v)]
    refine ⟨rfl, Finset.notMem_empty v, fun m ms hm => (nomatch hm), fun m ms hm => (nomatch hm),
      fun m hm => (nomatch hm), ?_⟩
    show Armed W 0 v _ true [(0 + W.algo.staggerTimer - W.tickOffset v, W.algo.staggerTimer)]
    refine .on (by omega) (by omega) (Nat.le_refl _) ⟨1, Nat.le_refl 1, by omega⟩
      fun m ms hm => (nomatch hm)

namespace OnGrid

theorem requestGossipFromNode (h : OnGrid W now s) (hmode : W.algo.reconcilTimer = 0)
    {v other : Fin n} (hne : other ≠ v) (hs : s.requestGossipFromNode W v other = some s') :
    OnGrid W now s' := by
  simp only [Sim.requestGossipFromNode, hmode, Nat.lt_irrefl, if_false] at hs
  cases hs
  refine h.modify ((h.nodes other).same rfl ?_ rfl rfl rfl)
  intro hmem
  rcases Finset.mem_insert.1 hmem with heq | hmem
  · exact hne heq
  · exact (h.nodes other).peers hmem

theorem initSyncers (h : OnGrid W now s) (hmode : W.algo.reconcilTimer = 0) (hc : W.Chosen)
    (hs : s.initSyncers W = some s') : OnGrid W now s' := by
  have hne : ∀ {u v : Fin n}, v ∈ W.peers u → v ≠ u := by
    refine ne_of_mem_peers_of fun c hc' => ?_
    split at hc'
    · exact absurd hc' List.not_mem_nil
    · exact hc.connections c hc'
  unfold Sim.initSyncers at hs
  split at hs
  · unfold Sim.spanningTree at hs
    split at hs
    · obtain ⟨b, hb, rfl⟩ := Option.map_eq_some_iff.1 hs
      have hkeep : ∀ node b p b', p ∈ W.peers node → OnGrid W now b.sim →
          searchPeer W node b p = some b' → OnGrid W now b'.sim := by
        intro node b p b' hmem hb hp
        unfold searchPeer at hp
        split at hp
        · cases hp
          exact hb
        · obtain ⟨s₁, hs₁, hp⟩ := Option.bind_eq_some_iff.1 hp
          obtain ⟨s₂, hs₂, hs₁⟩ := Option.bind_eq_some_iff.1 hs₁
          cases hp
          exact (hb.requestGossipFromNode hmode (hne hmem).symm hs₂).requestGossipFromNode hmode
            (hne hmem) hs₁
      exact search_keeps (P := fun b => OnGrid W now b.sim) (Q := fun _ b => OnGrid W now b.sim)
        (fun _ _ _ _ h => h) hkeep (fun _ _ h => h) h hb
    · cases hs
  · exact foldlM_invariant (fun s c hmem s' hs hr =>
      hs.requestGossipFromNode hmode (hne (hc.syncers c hmem)) hr) h hs

theorem makeBlackholes (h : OnGrid W now s) (l : List (Fin n)) :
    OnGrid W now (l.foldl makeBlackhole s) := by
  induction l generalizing s with
  | nil => exact h
  | cons v l ih =>
    apply ih
    exact h.modify ((h.nodes v).same rfl (Finset.notMem_empty v) rfl rfl rfl)

/-- What is pushed at the start and is no stagger tick. -/
theorem newTicker (h : OnGrid W 0 s) {interval offset : Nat} {q : Ticker n k}
    (hq : ∀ v i, q ≠ .stagger v i) (hb : ∀ m, q = .broadcast m →
      s.time + interval - offset = (s.messages m).broadcastTime)
    (hs : s.newTicker interval offset q = some s') : OnGrid W 0 s' := by
  obtain ⟨net, hnet, hs⟩ := Option.bind_eq_some_iff.1 hs
  have heq := (Network.push_eq hnet).2.1
  cases hs
  refine ⟨h.time, fun _ _ => Nat.zero_le _, fun e he m hm => ?_, fun v => ?_⟩
  · change e ∈ net.eq at he
    rw [heq] at he
    rcases List.mem_append.1 he with he | he
    · exact h.broadcasts e he m hm
    · rw [List.mem_singleton.1 he] at hm ⊢
      cases hm
      exact hb m rfl
  · have hnone : tickOf v (⟨s.time + interval - offset, .other q⟩ : Event n (LightningMessage k) _) =
        none := by
      cases q with
      | stagger w i => exact absurd rfl (hq w i)
      | _ => rfl
    have hticks : ({ s with net := net } : Sim n k).ticks v = s.ticks v := by
      show net.eq.filterMap _ = _
      rw [heq, List.filterMap_append, List.filterMap_cons_none hnone]
      exact List.append_nil _
    rw [hticks]
    exact h.nodes v

theorem populateMessages (h : OnGrid W 0 s) (hs : s.populateMessages = some s') :
    OnGrid W 0 s' := by
  refine foldlM_invariant (fun s m _ s' h hs => ?_) h hs
  refine h.newTicker (fun v i hq => by cases hq) (fun m' hm => ?_) hs
  cases hm
  rw [h.time, Nat.zero_add, Nat.sub_zero]

theorem injectPayments (h : OnGrid W 0 s) (hs : s.injectPayments W = some s') : OnGrid W 0 s' :=
  injectPayments_invariant (P := OnGrid W 0) (fun _ _ _ _ _ h hs =>
    h.newTicker (fun v i hq => by cases hq) (fun m hm => by cases hm) hs) h hs

end OnGrid

theorem onGrid_init (hmode : W.algo.reconcilTimer = 0) (hc : W.Chosen) (h : init W = some s) :
    OnGrid W 0 s := by
  obtain ⟨s₁, hs₁, h⟩ := Option.bind_eq_some_iff.1 h
  obtain ⟨s₂, hs₂, h⟩ := Option.bind_eq_some_iff.1 h
  obtain ⟨s₃, hs₃, h⟩ := Option.bind_eq_some_iff.1 h
  exact ((((onGrid_initStaggerTickers hmode hs₁).initSyncers hmode hc hs₂).makeBlackholes
    W.blackholes).populateMessages hs₃).injectPayments h

theorem onGrid_run {ls : List (Label n)} (hmode : W.algo.reconcilTimer = 0) (hc : W.Chosen)
    (hW : W.ArrivesLater) (hi : init W = some s) (h : Steps (step W) IsEarliest s ls s') :
    (∃ now, OnGrid W now s') ∧ KnownOnly W s' :=
  h.invariant (P := fun s => (∃ now, OnGrid W now s) ∧ KnownOnly W s)
    ⟨⟨0, onGrid_init hmode hc hi⟩, .of_initial (initial_of_init hi)⟩ fun s l s' hs hl hstep => by
      obtain ⟨⟨now, hgrid⟩, hk⟩ := hs
      obtain ⟨now', hgrid', -⟩ := onGrid_step hgrid hk hmode hW hl hstep
      exact ⟨⟨now', hgrid'⟩, hk.turn (step_cases hstep)⟩

/-! ## No panic -/

/-- A message to another node is sent when the event queue has room for it. -/
theorem depart_returns (W : World n k) {s : Sim n k} (time : Nat) {v : Fin n} {d : Departure n k}
    (hne : v ≠ d.dst) (hroom : s.net.eq.length < Network.maxInt) :
    ∃ s', depart W time v s d = some s' ∧ s'.net.eq.length = s.net.eq.length + 1 := by
  unfold depart sendWithHops Network.sendMessageWithHops Network.pushMessageEvent Network.push
  rw [if_neg hne]
  split
  · dsimp only [Network.modify]
    rw [if_pos hroom]
    exact ⟨_, rfl, List.length_append⟩
  · exact ⟨_, rfl, List.length_append⟩

theorem departs_return (W : World n k) (time : Nat) {v : Fin n} {ds : List (Departure n k)}
    (hne : ∀ d ∈ ds, v ≠ d.dst) {s : Sim n k} (hroom : s.net.eq.length + ds.length ≤ Network.maxInt) :
    ∃ s', ds.foldlM (depart W time v) s = some s' := by
  induction ds generalizing s with
  | nil => exact ⟨s, rfl⟩
  | cons d ds ih =>
    rw [List.length_cons] at hroom
    obtain ⟨s₁, hs₁, hlen⟩ := depart_returns W time (hne d List.mem_cons_self) (s := s) (by omega)
    obtain ⟨s', hs'⟩ := ih (fun d hd => hne d (List.mem_cons_of_mem _ hd)) (s := s₁) (by omega)
    exact ⟨s', by rw [List.foldlM_cons, hs₁]; exact hs'⟩

theorem calculateSubBatchSize_isSome {totalDelay : Nat} (h : 0 < totalDelay)
    (subBatchDelay : Nat) (minimumBatchSize : Int) (batchSize : Nat) : ∃ b : Nat,
      calculateSubBatchSize totalDelay subBatchDelay minimumBatchSize batchSize = some ↑b := by
  have hsome : ∃ size, calculateSubBatchSize totalDelay subBatchDelay minimumBatchSize batchSize =
      some size := by
    unfold calculateSubBatchSize
    split
    · exact ⟨_, rfl⟩
    · rw [if_neg (by omega)]
      exact ⟨_, rfl⟩
  obtain ⟨size, hsize⟩ := hsome
  obtain ⟨b, rfl⟩ := exists_batchSize hsize
  exact ⟨b, hsize⟩

/-- What a tick looks for in the queue. -/
structure Sendable (s : Sim n k) (v : Fin n) (time interval : Nat) : Prop where
  peers : v ∉ (s.nodes v).gossipPeers
  queue : ∀ m ms, (s.nodes v).bq m = some ms → ((s.nodes v).metaData m).broadcast = false ∧
    ms.arrivalTime ≤ time ∧ time - ms.arrivalTime ≤ interval

theorem Sendable.staggerTick {v : Fin n} {time interval : Nat} (h : s.Sendable v time interval)
    (hmode : W.algo.reconcilTimer = 0) (hinterval : 0 < interval)
    (hroom : s.net.eq.length + n * k ≤ Network.maxInt) :
    (s.staggerTick W time v interval).isSome = true := by
  obtain ⟨b, hb⟩ := calculateSubBatchSize_isSome hinterval W.algo.trickleTimer W.algo.minBatchSize
    (s.queue v).length
  have hready : ∀ m ∈ s.queue v, ready (s.nodes v) time interval m := by
    intro m hm
    obtain ⟨ms, hms⟩ := Option.isSome_iff_exists.1 (List.mem_filter.1 hm).2
    obtain ⟨hfresh, -, hwait⟩ := h.queue m ms hms
    simp only [ready, hms, hfresh, hwait, Option.any_some, Bool.not_false, decide_true, Bool.and_self]
  have hne : ∀ d ∈ departures W s v b (s.queue v), v ≠ d.dst := by
    rintro d hd rfl
    exact h.peers (mem_departures hd).1
  have hlen : (departures W s v b (s.queue v)).length ≤ n * k := length_departures
  obtain ⟨s', hs'⟩ := departs_return W time hne (s := s) (by omega)
  rw [staggerTick_eq hmode hb hready h.peers, hs']
  rfl

namespace OnGrid

theorem sendable (h : OnGrid W now s) {v : Fin n} {p : Nat × Nat} (hp : p ∈ s.ticks v) :
    s.Sendable v p.1 p.2 ∧ 0 < p.2 ∧
      ∃ j, 1 ≤ j ∧ p.1 = j * W.algo.staggerTimer - W.tickOffset v := by
  have harmed := (h.nodes v).armed
  rw [harmed.of_mem hp] at harmed
  obtain ⟨hi, hj, hwait⟩ := harmed.of_on
  obtain ⟨e, he, htick⟩ := List.mem_filterMap.1 hp
  have hnow : now ≤ p.1 := by
    have hfuture := h.future e he
    rw [tickOf_eq_some htick] at hfuture
    exact hfuture
  refine ⟨⟨(h.nodes v).peers, fun m ms hm => ⟨((h.nodes v).waiting m ms hm).1, ?_, ?_⟩⟩, hi, hj⟩
  · exact ((h.nodes v).arrived m ms hm).trans hnow
  · have hle := hwait m ms hm
    omega

theorem handleUpdate_returns (h : OnGrid W now s) (hmode : W.algo.reconcilTimer = 0)
    (hroom : s.net.eq.length < Network.maxInt) (m : Fin k) (v sender : Fin n) (hops : Nat) :
    ∃ s', s.handleUpdate W now m v sender hops = some s' := by
  rw [handleUpdate_eq hmode]
  split
  · exact ⟨_, rfl⟩
  split
  · exact ⟨_, rfl⟩
  next hnew =>
  split
  · exact ⟨_, rfl⟩
  split
  · exact ⟨_, rfl⟩
  obtain ⟨hln, -, -⟩ := h.stored (not_not.1 hnew) now hops
  have hoffset : (((s.noted now m v hops).modify v fun _ => (s.stored now m v hops).1.enqueue m
      ⟨{sender}, hops, now⟩).nodes v).tickOffset = W.tickOffset v := by
    rw [modify_self]
    exact hln.tickOffset
  rw [scheduleStaggerTick_eq hmode hoffset, modify_self]
  split
  · exact ⟨_, rfl⟩
  next hoff =>
  have harmed := hln.armed
  rw [show (s.stored now m v hops).1.willTick = false from Bool.not_eq_true _ ▸ hoff] at harmed
  rw [getNextTick_lastTick (Nat.lt_of_succ_lt (W.tickOffset_lt v)) harmed.of_off.2, Option.bind_some]
  unfold Sim.newTicker Network.push
  have hlen : ((s.noted now m v hops).modify v fun _ => (s.stored now m v hops).1.enqueue m
      ⟨{sender}, hops, now⟩).net.eq.length < Network.maxInt := hroom
  rw [if_pos hlen]
  exact ⟨_, rfl⟩

theorem handleUpdates_return (h : OnGrid W now s) (hmode : W.algo.reconcilTimer = 0) {ms : List (Fin k)}
    (hroom : s.net.eq.length + ms.length ≤ Network.maxInt) (v sender : Fin n) (hops : Nat) :
    (ms.foldlM (fun (s : Sim n k) m => s.handleUpdate W now m v sender hops) s).isSome = true := by
  induction ms generalizing s with
  | nil => rfl
  | cons m ms ih =>
    rw [List.length_cons] at hroom
    obtain ⟨s₁, hs₁⟩ := h.handleUpdate_returns hmode (by omega) m v sender hops
    obtain ⟨h₁, hcase⟩ := h.handleUpdate_cases hmode hs₁
    have hlen : s₁.net.eq.length ≤ s.net.eq.length + 1 := by
      rcases hcase with heq | ⟨-, t, -, -, heq⟩
      · rw [heq]
        omega
      · rw [heq, List.length_append, List.length_singleton]
    rw [List.foldlM_cons, hs₁]
    exact ih h₁ (by omega)

end OnGrid

/-! ## A run -/

/-- The ticks of a state, what they will find, and what the next step does. -/
structure Punctual (W : World n k) (s : Sim n k) : Prop where
  oneTick : ∀ v, (s.ticks v).length = if (s.nodes v).willTick then 1 else 0
  onGrid : ∀ v, ∀ p ∈ s.ticks v, ∃ j, 1 ≤ j ∧ p.1 = j * W.algo.staggerTimer - W.tickOffset v
  sendable : ∀ v, ∀ p ∈ s.ticks v, s.Sendable v p.1 p.2
  future : ∀ e ∈ s.net.eq, s.time ≤ e.time
  schedules : ∀ v, (s.nodes v).willTick = false → ∀ time, s.time ≤ time →
    (s.nodes v).Schedules W.algo.staggerTimer time
  rearms : ∀ l s', s.IsEarliest l → step W s l = some s' → Rearms W s s'
  tickReturns : ∀ l e v interval, s.IsEarliest l → s.net.eq[l.event]? = some e →
    e.data = .other (.stagger v interval) → s.net.eq.length + n * k ≤ Network.maxInt →
    (step W s l).isSome = true
  updateReturns : ∀ l e me ms, s.IsEarliest l → s.net.eq[l.event]? = some e → e.data = .message me →
    me.m.body.Gossips ms → s.net.eq.length + ms.length ≤ Network.maxInt → (step W s l).isSome = true

theorem OnGrid.punctual (h : OnGrid W now s) (hk : KnownOnly W s) (hmode : W.algo.reconcilTimer = 0)
    (hW : W.ArrivesLater) : Punctual W s where
  oneTick v := (h.nodes v).armed.length_eq
  onGrid v p hp := (h.sendable hp).2.2
  sendable v p hp := (h.sendable hp).1
  future e he := by
    rw [h.time]
    exact h.future e he
  schedules v hwill time htime := by
    have harmed := (h.nodes v).armed
    rw [hwill] at harmed
    rw [h.time] at htime
    have hoffset := (h.nodes v).tickOffset
    refine LightningNode.schedules ?_ ?_
    · rw [hoffset]
      exact Nat.lt_of_succ_lt (W.tickOffset_lt v)
    · rw [hoffset]
      exact harmed.of_off.2.trans htime
  rearms l s' hl hs := by
    obtain ⟨now', -, hrearms⟩ := onGrid_step h hk hmode hW hl hs
    exact hrearms
  tickReturns l e v interval hl he hd hroom := by
    have hp : (e.time, interval) ∈ s.ticks v := by
      rw [(h.ticks_eq he hd).1]
      exact List.mem_singleton_self _
    obtain ⟨hsend, hinterval, -⟩ := h.sendable hp
    have hsend' : (s.pop l.event e).Sendable v e.time interval := ⟨hsend.peers, hsend.queue⟩
    have hlen : (s.pop l.event e).net.eq.length ≤ s.net.eq.length := List.length_eraseIdx_le ..
    have hsome := hsend'.staggerTick hmode hinterval (by omega)
    unfold step
    rw [he]
    simp only [Option.bind_eq_bind, Option.bind_some, hd]
    exact hsome
  updateReturns l e me ms hl he hd hms hroom := by
    obtain ⟨e', he', hleast⟩ := hl
    obtain rfl : e' = e := Option.some.inj (he'.symm.trans he)
    obtain ⟨hpop, -⟩ := h.pop he hleast fun v => tickOf_hop (by rw [hd]; exact Option.some_ne_none _)
    have harrived : OnGrid W e'.time ((s.pop l.event e').arrive me) :=
      ⟨hpop.time, hpop.future, hpop.broadcasts, hpop.nodes⟩
    have hlen : ((s.pop l.event e').arrive me).net.eq.length ≤ s.net.eq.length :=
      List.length_eraseIdx_le ..
    have hroom' : ((s.pop l.event e').arrive me).net.eq.length + ms.length ≤ Network.maxInt := by omega
    have hall := harrived.handleUpdates_return hmode hroom' me.receiver me.sender
    unfold step
    rw [he]
    simp only [Option.bind_eq_bind, Option.bind_some, hd]
    unfold Sim.receive
    cases hb : me.m.body with
    | gossip m =>
      rw [hb] at hms
      cases hms
      have hone := hall me.hops
      rw [List.foldlM_cons] at hone
      obtain ⟨s', hs'⟩ := Option.isSome_iff_exists.1 hone
      obtain ⟨s₁, hs₁, -⟩ := Option.bind_eq_some_iff.1 hs'
      exact Option.isSome_iff_exists.2 ⟨s₁, hs₁⟩
    | channelUpdateBatch batch success answer =>
      rw [hb] at hms
      cases hms
      exact hall 0
    | _ =>
      rw [hb] at hms
      cases hms

/-- In stagger mode every state of a run is punctual. -/
theorem stagger_punctual {ls : List (Label n)} (hmode : W.algo.reconcilTimer = 0) (hc : W.Chosen)
    (hW : W.ArrivesLater) (hi : init W = some s) (h : Steps (step W) IsEarliest s ls s') :
    Punctual W s' := by
  obtain ⟨⟨now, hgrid⟩, hk⟩ := onGrid_run hmode hc hW hi h
  exact hgrid.punctual hk hmode hW

/-- Four nodes on a line. The update is broadcast after all of them have ticked. -/
def lateLine : World 4 1 :=
  .plain ⟨1000, 10, 0, 0, false, true, false, true⟩ (by decide) (.generated fun _ => 1500)
    (World.channelsOf [(0, 1), (1, 2), (2, 3)]) []

def lateRun : List (Label 4) := [0, 0, 0, 0, 0, 0].map fun i => ⟨i, 0, 0⟩

/-- Node 1 receives the update at 1600 and ticks at 2000. -/
theorem stagger_punctual_lateLine : ∃ s₀ s, init lateLine = some s₀ ∧
    Steps (step lateLine) IsEarliest s₀ lateRun s ∧ s.ticks 1 = [(2000, 400)] ∧
    Punctual lateLine s := by
  obtain ⟨s₀, s, hs₀, hs, hticks⟩ := steps_of_any (step lateLine) IsEarliest (init lateLine) lateRun
    (fun s => s.ticks 1 == [(2000, 400)]) (by decide +kernel)
  have hchosen : lateLine.Chosen := ⟨fun c hc => absurd hc List.not_mem_nil,
    fun c hc => absurd hc List.not_mem_nil⟩
  exact ⟨s₀, s, hs₀, hs, beq_iff_eq.1 hticks,
    stagger_punctual rfl hchosen (fun _ _ time _ _ _ => Nat.le_add_right time 100) hs₀ hs⟩

end Sim

end LnConv.Lnsim
