import LnConv.Lib.Chunks
import LnConv.Lnsim.Stagger

/-!
# What leaves in a stagger tick, and when

The queue is cut into groups, and what a group owes a peer leaves together: as one batch, as
one message of inventory entries, or one by one. Each group leaves a trickle interval after the
one before.
-/

namespace LnConv.Lnsim

open Netsim

variable {n k : Nat}

/-- A message to a peer that leaves some time after the tick. -/
structure Departure (n k : Nat) where
  dst : Fin n
  offset : Nat
  m : LightningMessage k
  hops : Nat

/-- The message on its way from `v`. -/
def Departure.packet (v : Fin n) (d : Departure n k) : Packet n k := ⟨d.m, v, d.dst, d.hops + 1⟩

namespace Sim

def depart (W : World n k) (time : Nat) (v : Fin n) (s : Sim n k) (d : Departure n k) :
    Option (Sim n k) := s.sendWithHops W time (time + d.offset) v d.dst d.m d.hops

/-- The messages of the queue, in the order of their ids. -/
def queue (s : Sim n k) (v : Fin n) : List (Fin k) :=
  (List.finRange k).filter fun m => ((s.nodes v).bq m).isSome

section plan

variable (W : World n k) (s : Sim n k) (v p : Fin n)

/-- What a group owes the peer. -/
def groupDepartures (offset entrySize : Nat) (g : List (Fin k)) : List (Departure n k) :=
  let owed := g.filter ((s.nodes v).owes p)
  if W.algo.sendBatchUpdates then
    if owed = [] then []
    else [⟨p, offset, ⟨.channelUpdateBatch owed false false, .ofNat (updateSize * owed.length)⟩, 0⟩]
  else if W.algo.sendInvs then
    let invs := owed.map fun m => (s.messages m).inv m
    if owed = [] then []
    else [⟨p, offset, ⟨.channelInvs invs false ∅, .ofNat (entrySize * owed.length)⟩, 0⟩]
  else owed.map fun m =>
    ⟨p, offset, ⟨.gossip m, (s.messages m).dataSize⟩, ((s.nodes v).bq m).elim 0 (·.hops)⟩

/-- The groups, one after the other. The entries of the last one count 17 bytes each. -/
def groupsDepartures (offset : Nat) : List (List (Fin k)) → List (Departure n k)
  | [] => []
  | [g] => groupDepartures W s v p offset 17 g
  | g :: gs =>
    groupDepartures W s v p offset invSize g ++ groupsDepartures (offset + W.algo.trickleTimer) gs

def groups (batchSize : Nat) (keys : List (Fin k)) : List (List (Fin k)) :=
  if W.algo.shouldTrickle then chunksFrom batchSize [] keys else [keys]

def departuresTo (batchSize : Nat) (keys : List (Fin k)) : List (Departure n k) :=
  groupsDepartures W s v p 0 (groups W batchSize keys)

/-- What is sent at once, and what waits for the group to be full. -/
def immediate (offset : Nat) (g : List (Fin k)) : List (Departure n k) :=
  if W.algo.sendBatchUpdates || W.algo.sendInvs then [] else groupDepartures W s v p offset 0 g

def held (offset entrySize : Nat) (g : List (Fin k)) : List (Departure n k) :=
  if W.algo.sendBatchUpdates || W.algo.sendInvs then groupDepartures W s v p offset entrySize g
  else []

theorem immediate_append_held (offset entrySize : Nat) (g : List (Fin k)) :
    immediate W s v p offset g ++ held W s v p offset entrySize g =
      groupDepartures W s v p offset entrySize g := by
  unfold immediate held
  by_cases h : W.algo.sendBatchUpdates || W.algo.sendInvs
  · simp [h]
  · obtain ⟨hb, hi⟩ := Bool.or_eq_false_iff.1 (Bool.not_eq_true _ ▸ h)
    simp [groupDepartures, hb, hi]

theorem immediate_append (offset : Nat) (g g' : List (Fin k)) :
    immediate W s v p offset (g ++ g') =
      immediate W s v p offset g ++ immediate W s v p offset g' := by
  unfold immediate
  by_cases h : W.algo.sendBatchUpdates || W.algo.sendInvs
  · simp [h]
  · obtain ⟨hb, hi⟩ := Bool.or_eq_false_iff.1 (Bool.not_eq_true _ ▸ h)
    simp [groupDepartures, hb, hi]

/-- What the loop over the queue still sends, `cur` being in the current group. -/
def departFrom (batchSize : Nat) : List (Fin k) → Nat → List (Fin k) → List (Departure n k)
  | cur, offset, [] => held W s v p offset 17 cur
  | cur, offset, m :: l =>
    if W.algo.shouldTrickle ∧ cur.length = batchSize then
      held W s v p offset invSize cur ++
        (immediate W s v p (offset + W.algo.trickleTimer) [m] ++
          departFrom batchSize [m] (offset + W.algo.trickleTimer) l)
    else immediate W s v p offset [m] ++ departFrom batchSize (cur ++ [m]) offset l

theorem groupsDepartures_cons {g : List (Fin k)} {gs : List (List (Fin k))} (h : gs ≠ [])
    (offset : Nat) : groupsDepartures W s v p offset (g :: gs) =
      groupDepartures W s v p offset invSize g ++
        groupsDepartures W s v p (offset + W.algo.trickleTimer) gs := by
  cases gs with
  | nil => exact absurd rfl h
  | cons g' gs => rfl

theorem departFrom_eq (batchSize : Nat) (cur : List (Fin k)) (offset : Nat) (l : List (Fin k)) :
    immediate W s v p offset cur ++ departFrom W s v p batchSize cur offset l =
      groupsDepartures W s v p offset
        (if W.algo.shouldTrickle then chunksFrom batchSize cur l else [cur ++ l]) := by
  induction l generalizing cur offset with
  | nil =>
    have hone : (if W.algo.shouldTrickle then chunksFrom batchSize cur [] else [cur ++ []]) =
        [cur] := by
      simp [chunksFrom]
    rw [hone]
    exact immediate_append_held W s v p offset 17 cur
  | cons m l ih =>
    unfold departFrom
    split
    · next hfull =>
      have hnext := ih [m] (offset + W.algo.trickleTimer)
      rw [if_pos hfull.1] at hnext ⊢
      rw [chunksFrom, if_pos hfull.2, groupsDepartures_cons _ _ _ _ (chunksFrom_ne_nil _ _ _), ← hnext,
        ← List.append_assoc, immediate_append_held]
    · next hroom =>
      have hnext := ih (cur ++ [m]) offset
      rw [immediate_append, List.append_assoc] at hnext
      rw [hnext]
      congr 1
      split
      · next htrickle => rw [chunksFrom, if_neg fun h => hroom ⟨htrickle, h⟩]
      · rw [List.append_assoc, List.singleton_append]

end plan

/-! ## The loop sends what is planned -/

theorem depart_kept {W : World n k} {time : Nat} {v : Fin n} {s s' : Sim n k} {d : Departure n k}
    (h : depart W time v s d = some s') : s'.nodes = s.nodes ∧ s'.messages = s.messages := by
  obtain ⟨net, -, h⟩ := Option.bind_eq_some_iff.1 h
  cases h
  exact ⟨rfl, rfl⟩

theorem departs_kept {W : World n k} {time : Nat} {v : Fin n} {ds : List (Departure n k)}
    {s s' : Sim n k} (h : ds.foldlM (depart W time v) s = some s') :
    s'.nodes = s.nodes ∧ s'.messages = s.messages := by
  induction ds generalizing s with
  | nil => cases h; exact ⟨rfl, rfl⟩
  | cons d ds ih =>
    rw [List.foldlM_cons] at h
    obtain ⟨s₁, hd, hds⟩ := Option.bind_eq_some_iff.1 h
    obtain ⟨hnodes, hmessages⟩ := ih hds
    exact ⟨hnodes.trans (depart_kept hd).1, hmessages.trans (depart_kept hd).2⟩

/-- The tick does not panic on the message. -/
def ready (ln : LightningNode n k) (time interval : Nat) (m : Fin k) : Bool :=
  (ln.bq m).any fun ms => !(ln.metaData m).broadcast && decide (time - ms.arrivalTime ≤ interval)

section loop

variable (W : World n k) (s : Sim n k) (time : Nat) (v p : Fin n) (interval batchSize : Nat)

/-- The loop variables, when `cur` is in the current group. -/
def batching (cur : List (Fin k)) (offset : Nat) (sim : Sim n k) : Batching n k :=
  let owed := cur.filter ((s.nodes v).owes p)
  { currBatch := cur.length
    timeOffset := offset
    batch := if W.algo.sendBatchUpdates then owed else []
    invs := if !W.algo.sendBatchUpdates && W.algo.sendInvs then
      owed.map fun m => (s.messages m).inv m else []
    sim := sim }

theorem flushBatch_batching (entrySize : Nat) (cur : List (Fin k)) (offset : Nat) (sim : Sim n k) :
    flushBatch W time v p entrySize (batching W s v p cur offset sim) =
      ((held W s v p offset entrySize cur).foldlM (depart W time v) sim).map
        fun sim' => ⟨cur.length, offset, [], [], sim'⟩ := by
  cases hb : W.algo.sendBatchUpdates with
  | true =>
    by_cases howed : cur.filter ((s.nodes v).owes p) = []
    · simp [flushBatch, batching, held, groupDepartures, hb, howed]
    · simp [flushBatch, batching, held, groupDepartures, hb, howed, depart, send, Option.map_eq_bind]
  | false =>
    cases hi : W.algo.sendInvs with
    | true =>
      by_cases howed : cur.filter ((s.nodes v).owes p) = []
      · simp [flushBatch, batching, held, groupDepartures, hb, hi, howed]
      · simp [flushBatch, batching, held, groupDepartures, hb, hi, howed, depart, send,
          Option.map_eq_bind]
    | false => simp [flushBatch, batching, held, hb, hi]

/-- A full group leaves before the next message is looked at. -/
theorem trickle_batching (cur : List (Fin k)) (offset : Nat) (sim : Sim n k) :
    trickle W time v p batchSize (batching W s v p cur offset sim) =
      if W.algo.shouldTrickle ∧ cur.length = batchSize then
        ((held W s v p offset invSize cur).foldlM (depart W time v) sim).map
          (batching W s v p [] (offset + W.algo.trickleTimer))
      else some (batching W s v p cur offset sim) := by
  have hcount : ((batching W s v p cur offset sim).currBatch : Int) = batchSize ↔
      cur.length = batchSize := Int.ofNat_inj
  simp only [trickle, hcount]
  split
  · rw [flushBatch_batching]
    cases (held W s v p offset invSize cur).foldlM (depart W time v) sim with
    | none => rfl
    | some sim' => simp [batching]
  · rfl

/-- What a turn adds, the messages before it being in `cur`. -/
theorem collect_batching {sim : Sim n k} (hmessages : sim.messages = s.messages) (cur : List (Fin k))
    (offset : Nat) {m : Fin k} {ms : MessageWithSenders n} (hms : (s.nodes v).bq m = some ms) :
    (let b := { batching W s v p cur offset sim with currBatch := cur.length + 1 }
      let g := sim.messages m
      if p ∈ ms.senders then some b
      else if W.algo.sendBatchUpdates then some { b with batch := b.batch ++ [m] }
      else if W.algo.sendInvs then some { b with invs := b.invs ++ [g.inv m] }
      else do
        let s ← sim.sendWithHops W time (time + offset) v p ⟨.gossip m, g.dataSize⟩ ms.hops
        some { b with sim := s }) =
      ((immediate W s v p offset [m]).foldlM (depart W time v) sim).map
        (batching W s v p (cur ++ [m]) offset) := by
  have howes := LightningNode.owes_of_bq (p := p) hms
  by_cases hp : p ∈ ms.senders
  · have hno : (s.nodes v).owes p m = false := by rw [howes]; simpa using hp
    have hnone : immediate W s v p offset [m] = [] := by
      unfold immediate groupDepartures
      simp [hno]
    simp [hp, hnone, batching, List.filter_append, hno]
  · have hyes : (s.nodes v).owes p m = true := by rw [howes]; simpa using hp
    cases hb : W.algo.sendBatchUpdates with
    | true => simp [hp, immediate, batching, List.filter_append, hyes, hb]
    | false =>
      cases hi : W.algo.sendInvs with
      | true => simp [hp, immediate, batching, List.filter_append, hyes, hb, hi, hmessages]
      | false =>
        have hsent : batching W s v p (cur ++ [m]) offset =
            fun sim' => ⟨cur.length + 1, offset, [], [], sim'⟩ := by
          funext sim'
          simp [batching, hb, hi]
        rw [hsent]
        simp [hp, immediate, groupDepartures, batching, hyes, hb, hi, hmessages, depart, hms,
          Option.map_eq_bind]

theorem staggerMessage_batching {sim : Sim n k} (hnodes : sim.nodes = s.nodes)
    (hmessages : sim.messages = s.messages) (cur : List (Fin k)) (offset : Nat) (m : Fin k) :
    staggerMessage W time v p interval batchSize (batching W s v p cur offset sim) m =
      if ready (s.nodes v) time interval m then
        if W.algo.shouldTrickle ∧ cur.length = batchSize then
          ((held W s v p offset invSize cur ++
            immediate W s v p (offset + W.algo.trickleTimer) [m]).foldlM (depart W time v) sim).map
              (batching W s v p [m] (offset + W.algo.trickleTimer))
        else ((immediate W s v p offset [m]).foldlM (depart W time v) sim).map
          (batching W s v p (cur ++ [m]) offset)
      else none := by
  have hsim : (batching W s v p cur offset sim).sim.nodes v = s.nodes v := by
    rw [← hnodes]; rfl
  unfold staggerMessage
  rw [hsim]
  cases hms : (s.nodes v).bq m with
  | none => simp [ready, hms]
  | some ms =>
    simp only [ready, hms, Option.any_some, Option.bind_eq_bind, Option.bind_some]
    by_cases hbroadcast : ((s.nodes v).metaData m).broadcast
    · simp [hbroadcast]
    by_cases hlong : interval < time - ms.arrivalTime
    · simp only [hbroadcast, hlong, decide_eq_false (Nat.not_le.2 hlong), Bool.and_false, if_true,
        if_false, Bool.false_eq_true]
    simp only [hbroadcast, hlong, Bool.not_false, Bool.true_and, decide_eq_true (Nat.not_lt.1 hlong),
      if_true, if_false, trickle_batching, Bool.false_eq_true]
    split
    · rw [List.foldlM_append]
      cases hheld : (held W s v p offset invSize cur).foldlM (depart W time v) sim with
      | none => rfl
      | some sim' =>
        exact collect_batching W s time v p ((departs_kept hheld).2.trans hmessages) []
          (offset + W.algo.trickleTimer) hms
    · exact collect_batching W s time v p hmessages cur offset hms

theorem staggerMessages_batching (l : List (Fin k)) {sim : Sim n k} (hnodes : sim.nodes = s.nodes)
    (hmessages : sim.messages = s.messages) (cur : List (Fin k)) (offset : Nat) :
    ((l.foldlM (staggerMessage W time v p interval batchSize)
      (batching W s v p cur offset sim)).bind fun b => (flushBatch W time v p 17 b).map (·.sim)) =
      if l.all (ready (s.nodes v) time interval) then
        (departFrom W s v p batchSize cur offset l).foldlM (depart W time v) sim
      else none := by
  induction l generalizing sim cur offset with
  | nil =>
    rw [List.foldlM_nil]
    simp only [Option.pure_def, Option.bind_some, flushBatch_batching, List.all_nil, if_true,
      Option.map_map, departFrom]
    exact Option.map_id'
  | cons m l ih =>
    rw [List.foldlM_cons, staggerMessage_batching W s time v p interval batchSize hnodes hmessages,
      List.all_cons]
    by_cases hm : ready (s.nodes v) time interval m
    · simp only [hm, Bool.true_and, if_true, departFrom]
      -- what the turn sends, and the loop variables after it
      have hturn : ∀ (ds : List (Departure n k)) (cur' : List (Fin k)) (offset' : Nat),
          (((ds.foldlM (depart W time v) sim).map (batching W s v p cur' offset')).bind fun b =>
            (l.foldlM (staggerMessage W time v p interval batchSize) b)).bind
              (fun b => (flushBatch W time v p 17 b).map (·.sim)) =
            if l.all (ready (s.nodes v) time interval) then
              (ds ++ departFrom W s v p batchSize cur' offset' l).foldlM (depart W time v) sim
            else none := by
        intro ds cur' offset'
        rw [List.foldlM_append]
        cases hds : ds.foldlM (depart W time v) sim with
        | none => simp
        | some sim' =>
          obtain ⟨hn, hms⟩ := departs_kept hds
          exact ih (hn.trans hnodes) (hms.trans hmessages) cur' offset'
      split
      · rw [← List.append_assoc]
        exact hturn _ _ _
      · exact hturn _ _ _
    · simp [hm]

/-- For one peer: the departures, unless the node is its own peer or an entry is a panic. -/
theorem staggerPeer_eq {sim : Sim n k} (hnodes : sim.nodes = s.nodes)
    (hmessages : sim.messages = s.messages) (l : List (Fin k)) :
    staggerPeer W time v interval batchSize l sim p =
      if p ≠ v ∧ l.all (ready (s.nodes v) time interval) then
        (departuresTo W s v p batchSize l).foldlM (depart W time v) sim
      else none := by
  by_cases hp : p = v
  · simp [staggerPeer, hp]
  · have hstart : (⟨0, 0, [], [], sim⟩ : Batching n k) = batching W s v p [] 0 sim := by
      simp [batching]
    have hplan : departFrom W s v p batchSize [] 0 l = departuresTo W s v p batchSize l := by
      have hnone : immediate W s v p 0 [] = [] := by
        unfold immediate groupDepartures
        simp
      have heq := departFrom_eq W s v p batchSize [] 0 l
      rwa [hnone, List.nil_append, List.nil_append] at heq
    have hloop := staggerMessages_batching W s time v p interval batchSize l hnodes hmessages [] 0
    rw [hplan] at hloop
    unfold staggerPeer
    rw [if_neg hp, hstart]
    simp only [ne_eq, hp, not_false_eq_true, true_and]
    rw [← hloop]
    refine Option.bind_congr fun b _ => ?_
    rw [Option.map_eq_bind]
    rfl

end loop

section tick

variable (W : World n k) (s : Sim n k) (time : Nat) (v : Fin n) (interval batchSize : Nat)

def departures (keys : List (Fin k)) : List (Departure n k) :=
  (sorted (s.nodes v).gossipPeers).flatMap fun p => departuresTo W s v p batchSize keys

theorem staggerPeers_eq (l : List (Fin k)) (peers : List (Fin n)) {sim : Sim n k}
    (hnodes : sim.nodes = s.nodes) (hmessages : sim.messages = s.messages) :
    peers.foldlM (staggerPeer W time v interval batchSize l) sim =
      if ∀ p ∈ peers, p ≠ v ∧ l.all (ready (s.nodes v) time interval) then
        (peers.flatMap fun p => departuresTo W s v p batchSize l).foldlM (depart W time v) sim
      else none := by
  induction peers generalizing sim with
  | nil => simp
  | cons p peers ih =>
    rw [List.foldlM_cons, staggerPeer_eq W s time v p interval batchSize hnodes hmessages,
      List.flatMap_cons, List.foldlM_append]
    by_cases hp : p ≠ v ∧ l.all (ready (s.nodes v) time interval)
    · simp only [hp, List.forall_mem_cons, true_and, ne_eq, not_false_eq_true, and_self, if_true]
      cases hds : (departuresTo W s v p batchSize l).foldlM (depart W time v) sim with
      | none => simp
      | some sim' =>
        obtain ⟨hn, hms⟩ := departs_kept hds
        have hrest := ih (hn.trans hnodes) (hms.trans hmessages)
        simp only [hp, ne_eq] at hrest
        exact hrest
    · rw [if_neg hp, if_neg fun h => hp (h p (List.mem_cons_self ..))]
      rfl

end tick

/-! ## What is planned is what is owed -/

section owed

variable {W : World n k} {s : Sim n k} {v p : Fin n}

theorem groupDepartures_carried (offset entrySize : Nat) (g : List (Fin k)) :
    (groupDepartures W s v p offset entrySize g).flatMap (·.m.body.carried) =
      g.filter ((s.nodes v).owes p) := by
  cases hb : W.algo.sendBatchUpdates with
  | true =>
    by_cases howed : g.filter ((s.nodes v).owes p) = []
    · simp [groupDepartures, hb, howed]
    · simp [groupDepartures, hb, howed, Body.carried, Body.direct, Body.offered]
  | false =>
    cases hi : W.algo.sendInvs with
    | true =>
      by_cases howed : g.filter ((s.nodes v).owes p) = []
      · simp [groupDepartures, hb, hi, howed]
      · simp only [groupDepartures, hb, hi, howed, if_true, if_false, Bool.false_eq_true,
          List.flatMap_singleton, Body.carried, Body.direct, Body.offered, List.nil_append]
        exact map_inv_msgID s.messages _
    | false =>
      simp [groupDepartures, hb, hi, List.flatMap_map, Body.carried, Body.direct, Body.offered]

theorem mem_groupDepartures {offset entrySize : Nat} {g : List (Fin k)} {d : Departure n k}
    (h : d ∈ groupDepartures W s v p offset entrySize g) :
    d.dst = p ∧ d.offset = offset ∧ Forward W s.messages d.m.body := by
  unfold groupDepartures at h
  dsimp only at h
  split at h
  · next hb =>
    split at h
    · cases h
    · rw [List.mem_singleton.1 h]
      exact ⟨rfl, rfl, .batch _ hb⟩
  next hb =>
  have hno := Bool.not_eq_true _ ▸ hb
  split at h
  · next hi =>
    split at h
    · cases h
    · rw [List.mem_singleton.1 h]
      exact ⟨rfl, rfl, .invs _ hno hi⟩
  · next hi =>
    obtain ⟨m, -, rfl⟩ := List.mem_map.1 h
    exact ⟨rfl, rfl, .gossip m hno (Bool.not_eq_true _ ▸ hi)⟩

theorem groupsDepartures_carried (offset : Nat) (gs : List (List (Fin k))) :
    (groupsDepartures W s v p offset gs).flatMap (·.m.body.carried) =
      gs.flatten.filter ((s.nodes v).owes p) := by
  induction gs generalizing offset with
  | nil => rfl
  | cons g gs ih =>
    by_cases hlast : gs = []
    · subst hlast
      rw [groupsDepartures, groupDepartures_carried, List.flatten_singleton]
    · rw [groupsDepartures_cons _ _ _ _ hlast, List.flatMap_append, ih, groupDepartures_carried,
        List.flatten_cons, List.filter_append]

/-- A departure belongs to one of the groups, and leaves when that group does. -/
theorem mem_groupsDepartures {offset : Nat} {gs : List (List (Fin k))} {d : Departure n k}
    (h : d ∈ groupsDepartures W s v p offset gs) : ∃ j g entrySize, gs[j]? = some g ∧
      d ∈ groupDepartures W s v p (offset + j * W.algo.trickleTimer) entrySize g := by
  induction gs generalizing offset with
  | nil => cases h
  | cons g gs ih =>
    by_cases hlast : gs = []
    · subst hlast
      exact ⟨0, g, 17, rfl, by rwa [Nat.zero_mul, Nat.add_zero]⟩
    rw [groupsDepartures_cons _ _ _ _ hlast] at h
    rcases List.mem_append.1 h with h | h
    · exact ⟨0, g, invSize, rfl, by rwa [Nat.zero_mul, Nat.add_zero]⟩
    · obtain ⟨j, g', entrySize, hj, hd⟩ := ih h
      refine ⟨j + 1, g', entrySize, hj, ?_⟩
      rwa [Nat.succ_mul, Nat.add_comm (j * _), ← Nat.add_assoc]

variable {batchSize : Nat} {keys : List (Fin k)}

theorem flatten_groups (batchSize : Nat) (keys : List (Fin k)) :
    (groups W batchSize keys).flatten = keys := by
  unfold groups
  split
  · rw [flatten_chunksFrom, List.nil_append]
  · rw [List.flatten_singleton]

theorem departuresTo_carried :
    (departuresTo W s v p batchSize keys).flatMap (·.m.body.carried) =
      keys.filter ((s.nodes v).owes p) := by
  rw [departuresTo, groupsDepartures_carried, flatten_groups]

theorem mem_departuresTo {d : Departure n k} (h : d ∈ departuresTo W s v p batchSize keys) :
    d.dst = p ∧ Forward W s.messages d.m.body := by
  obtain ⟨j, g, entrySize, -, hd⟩ := mem_groupsDepartures h
  exact ⟨(mem_groupDepartures hd).1, (mem_groupDepartures hd).2.2⟩

/-- A message leaves with the group its position in the queue belongs to. -/
theorem departuresTo_offset (hconf : W.algo.shouldTrickle = decide (0 < W.algo.trickleTimer))
    (hbatch : 0 < batchSize) {d : Departure n k}
    (h : d ∈ departuresTo W s v p batchSize keys) {m : Fin k} (hm : m ∈ d.m.body.carried) :
    ∃ i, keys[i]? = some m ∧ d.offset = i / batchSize * W.algo.trickleTimer := by
  obtain ⟨j, g, entrySize, hg, hd⟩ := mem_groupsDepartures h
  obtain ⟨-, hoffset, -⟩ := mem_groupDepartures hd
  rw [Nat.zero_add] at hoffset
  have howed : m ∈ g.filter ((s.nodes v).owes p) := by
    rw [← groupDepartures_carried (W := W)]
    exact List.mem_flatMap.2 ⟨d, hd, hm⟩
  have hmem := (List.mem_filter.1 howed).1
  unfold groups at hg
  split at hg
  · obtain ⟨i, hi, hij⟩ := mem_chunksFrom hbatch hg hmem
    exact ⟨i, hi, by rw [hoffset, hij]⟩
  · next hno =>
    -- without the timer nothing is held back
    have htimer : W.algo.trickleTimer = 0 := by
      rw [hconf, decide_eq_true_iff] at hno
      omega
    obtain ⟨hj, hkeys⟩ := List.getElem?_eq_some_iff.1 hg
    have hj0 : j = 0 := by simpa using hj
    subst hj0
    obtain ⟨i, hi, hmi⟩ := List.getElem_of_mem hmem
    refine ⟨i, ?_, by rw [hoffset, htimer, Nat.mul_zero, Nat.mul_zero]⟩
    rw [← hmi]
    have hg' : keys = g := hkeys
    rw [hg']
    exact List.getElem?_eq_getElem hi

theorem mem_departures {d : Departure n k} (h : d ∈ departures W s v batchSize keys) :
    d.dst ∈ (s.nodes v).gossipPeers ∧ d ∈ departuresTo W s v d.dst batchSize keys := by
  obtain ⟨p, hp, hd⟩ := List.mem_flatMap.1 h
  have hdst := (mem_departuresTo hd).1
  rw [hdst]
  exact ⟨mem_sorted.1 hp, hd⟩

theorem departures_to (hp : p ∈ (s.nodes v).gossipPeers) :
    (departures W s v batchSize keys).filter (fun d => d.dst = p) =
      departuresTo W s v p batchSize keys := by
  unfold departures
  rw [List.filter_flatMap]
  have hone : ∀ q, (departuresTo W s v q batchSize keys).filter (fun d => d.dst = p) =
      if q = p then departuresTo W s v p batchSize keys else [] := by
    intro q
    split
    · next hq =>
      subst hq
      exact List.filter_eq_self.2 fun d hd => decide_eq_true (mem_departuresTo hd).1
    · next hq =>
      refine List.filter_eq_nil_iff.2 fun d hd hdst => hq ?_
      rw [← (mem_departuresTo hd).1, of_decide_eq_true hdst]
  simp only [hone]
  exact flatMap_ite_eq (nodup_sorted _) (mem_sorted.2 hp) _

/-- No more leaves than there are messages in the groups. -/
theorem length_groupDepartures (offset entrySize : Nat) (g : List (Fin k)) :
    (groupDepartures W s v p offset entrySize g).length ≤ g.length := by
  have hle := List.length_filter_le ((s.nodes v).owes p) g
  have hone : g.filter ((s.nodes v).owes p) ≠ [] → 1 ≤ (g.filter ((s.nodes v).owes p)).length :=
    List.length_pos_iff.2
  unfold groupDepartures
  dsimp only
  split
  · split
    · exact Nat.zero_le _
    · next howed => exact (hone howed).trans hle
  split
  · split
    · exact Nat.zero_le _
    · next howed => exact (hone howed).trans hle
  · rwa [List.length_map]

theorem length_groupsDepartures (offset : Nat) (gs : List (List (Fin k))) :
    (groupsDepartures W s v p offset gs).length ≤ gs.flatten.length := by
  induction gs generalizing offset with
  | nil => exact Nat.le_refl _
  | cons g gs ih =>
    by_cases hlast : gs = []
    · subst hlast
      rw [List.flatten_singleton]
      exact length_groupDepartures offset 17 g
    · rw [groupsDepartures_cons _ _ _ _ hlast, List.length_append, List.flatten_cons,
        List.length_append]
      exact Nat.add_le_add (length_groupDepartures offset invSize g) (ih _)

theorem length_departures : (departures W s v batchSize (s.queue v)).length ≤ n * k := by
  have hqueue : (s.queue v).length ≤ k := by
    have hle := List.length_filter_le (fun m => ((s.nodes v).bq m).isSome) (List.finRange k)
    rwa [List.length_finRange] at hle
  have hpeers : (sorted (s.nodes v).gossipPeers).length ≤ n := by
    have hle := List.length_filter_le (· ∈ (s.nodes v).gossipPeers) (List.finRange n)
    rwa [List.length_finRange] at hle
  refine (length_flatMap_le fun p _ => ?_).trans (Nat.mul_le_mul_right k hpeers)
  have hle := length_groupsDepartures (W := W) (s := s) (v := v) (p := p) 0
    (groups W batchSize (s.queue v))
  rw [flatten_groups] at hle
  exact hle.trans hqueue

end owed

/-! ## The tick -/

section

variable {W : World n k} {s : Sim n k} {time : Nat} {v : Fin n} {interval : Nat}

/-- With nothing in the queue a tick is only taken down. -/
theorem clearQueue_of_queue_nil (h : s.queue v = []) :
    (s.nodes v).clearQueue = { s.nodes v with willTick := false } := by
  have hnone : ∀ m, (s.nodes v).bq m = none := by
    intro m
    have := List.filter_eq_nil_iff.1 h m (List.mem_finRange m)
    simpa using this
  have hbq : (s.nodes v).bq = fun _ => none := funext hnone
  simp [LightningNode.clearQueue, hnone, hbq]

theorem departures_of_nil {batchSize : Nat} (h : s.queue v = []) :
    departures W s v batchSize (s.queue v) = [] := by
  refine List.flatMap_eq_nil_iff.2 fun p _ => ?_
  rw [h]
  simp [departuresTo, groups, chunksFrom, groupsDepartures, groupDepartures]

/-- The tick sends the departures, and clears the queue. -/
theorem staggerTick_eq {batchSize : Nat} (hmode : W.algo.reconcilTimer = 0)
    (hsize : calculateSubBatchSize interval W.algo.trickleTimer W.algo.minBatchSize
      (s.queue v).length = some ↑batchSize)
    (hready : ∀ m ∈ s.queue v, ready (s.nodes v) time interval m)
    (hself : v ∉ (s.nodes v).gossipPeers) :
    s.staggerTick W time v interval =
      ((departures W s v batchSize (s.queue v)).foldlM (depart W time v) s).map
        (·.modify v LightningNode.clearQueue) := by
  have hpeers : ∀ p ∈ sorted (s.nodes v).gossipPeers,
      p ≠ v ∧ (s.queue v).all (ready (s.nodes v) time interval) := by
    intro p hp
    refine ⟨?_, List.all_eq_true.2 hready⟩
    rintro rfl
    exact hself (mem_sorted.1 hp)
  have htick : s.staggerTick W time v interval =
      if s.queue v = [] then some (s.modify v fun ln => { ln with willTick := false })
      else ((sorted (s.nodes v).gossipPeers).foldlM
        (staggerPeer W time v interval batchSize (s.queue v)) s).map
          (·.modify v LightningNode.clearQueue) := by
    unfold staggerTick
    rw [if_neg (by omega), Option.map_eq_bind]
    exact (congrArg (Option.bind · _) hsize).trans rfl
  rw [htick]
  split
  · next hempty =>
    rw [departures_of_nil hempty]
    refine congrArg some (congrArg (fun ln => { s with nodes := Function.update s.nodes v ln }) ?_)
    exact (clearQueue_of_queue_nil hempty).symm
  · rw [staggerPeers_eq W s time v interval batchSize _ _ rfl rfl, if_pos hpeers]
    rfl

/-- A sub-batch size is a length, or at least one. -/
theorem exists_batchSize {totalDelay subBatchDelay batchSize : Nat} {minimumBatchSize size : Int}
    (h : calculateSubBatchSize totalDelay subBatchDelay minimumBatchSize batchSize = some size) :
    ∃ b : Nat, size = b := by
  unfold calculateSubBatchSize at h
  split at h
  · exact ⟨batchSize, (Option.some.inj h).symm⟩
  split at h
  · cases h
  · refine ⟨size.toNat, (Int.toNat_of_nonneg ?_).symm⟩
    rw [← Option.some.inj h]
    split
    · next hlt => exact (Int.natCast_nonneg _).trans (Int.le_of_lt hlt)
    · exact Int.natCast_nonneg _

/-- A tick that does not panic has sent the departures, and cleared the queue. -/
theorem departs_of_staggerTick {s' : Sim n k} (h : s.staggerTick W time v interval = some s') :
    W.algo.reconcilTimer = 0 ∧ ∃ batchSize : Nat,
      calculateSubBatchSize interval W.algo.trickleTimer W.algo.minBatchSize (s.queue v).length =
        some ↑batchSize ∧
      ∃ s₁, (departures W s v batchSize (s.queue v)).foldlM (depart W time v) s = some s₁ ∧
        s' = s₁.modify v LightningNode.clearQueue := by
  unfold staggerTick at h
  split at h
  · cases h
  next hmode =>
  obtain ⟨size, hsize, h⟩ := Option.bind_eq_some_iff.1 h
  rw [← queue] at hsize h
  obtain ⟨batchSize, rfl⟩ := exists_batchSize hsize
  refine ⟨by omega, batchSize, hsize, ?_⟩
  split at h
  · next hempty =>
    rw [departures_of_nil hempty]
    refine ⟨s, rfl, ?_⟩
    rw [← Option.some.inj h]
    refine congrArg (fun ln => { s with nodes := Function.update s.nodes v ln }) ?_
    exact (clearQueue_of_queue_nil hempty).symm
  · obtain ⟨s₁, hs₁, h⟩ := Option.bind_eq_some_iff.1 h
    rw [staggerPeers_eq W s time v interval batchSize _ _ rfl rfl] at hs₁
    split at hs₁
    · exact ⟨s₁, hs₁, (Option.some.inj h).symm⟩
    · cases hs₁

theorem staggerTick_clears {s' : Sim n k} (h : s.staggerTick W time v interval = some s') :
    (∀ m, (s'.nodes v).bq m = none) ∧
      ∀ m ∈ s.queue v, ((s'.nodes v).metaData m).broadcast = true := by
  obtain ⟨-, out, hout, -⟩ := staggerTick_spec h
  have hbq := hout.bq v
  have hseen := hout.seen v
  rw [modify_self] at hbq hseen
  refine ⟨fun m => congrFun hbq m, fun m hm => ?_⟩
  unfold LightningNode.metaData
  rw [hseen]
  simp [LightningNode.clearQueue, (List.mem_filter.1 hm).2]

theorem departs_emits {ds : List (Departure n k)} {s' : Sim n k}
    (h : ds.foldlM (depart W time v) s = some s') : Emits s (ds.map (·.packet v)) s' := by
  induction ds generalizing s with
  | nil =>
    cases h
    exact .refl _
  | cons d ds ih =>
    rw [List.foldlM_cons] at h
    obtain ⟨s₁, hs₁, h⟩ := Option.bind_eq_some_iff.1 h
    exact (sendWithHops_emits hs₁).trans (ih h)

/-- A tick with sub-batches of at least one message sends every peer what the queue owes it,
once and in order, and the message at position `i` with group `i / batchSize`. Nothing else is
under way after it than before. -/
theorem staggerTick_sends {batchSize : Nat} (hmode : W.algo.reconcilTimer = 0)
    (hconf : W.algo.shouldTrickle = decide (0 < W.algo.trickleTimer))
    (hsize : calculateSubBatchSize interval W.algo.trickleTimer W.algo.minBatchSize
      (s.queue v).length = some ↑batchSize) (hbatch : 0 < batchSize)
    (hready : ∀ m ms, (s.nodes v).bq m = some ms → ((s.nodes v).metaData m).broadcast = false ∧
      ms.arrivalTime ≤ time ∧ time - ms.arrivalTime ≤ interval)
    (hself : v ∉ (s.nodes v).gossipPeers) :
    let ds := departures W s v batchSize (s.queue v)
    s.staggerTick W time v interval =
        (ds.foldlM (depart W time v) s).map (·.modify v LightningNode.clearQueue) ∧
      (∀ p ∈ (s.nodes v).gossipPeers,
        (ds.filter fun d => d.dst = p).flatMap (·.m.body.carried) =
          (List.finRange k).filter ((s.nodes v).owes p)) ∧
      (∀ d ∈ ds, d.dst ∈ (s.nodes v).gossipPeers ∧ Forward W s.messages d.m.body ∧
        ∀ m ∈ d.m.body.carried, ∃ i, (s.queue v)[i]? = some m ∧
          d.offset = i / batchSize * W.algo.trickleTimer) ∧
      ∀ s', s.staggerTick W time v interval = some s' →
        s'.flight = s.flight + (ds.map (·.packet v) : List (Packet n k)) ∧
        (∀ m, (s'.nodes v).bq m = none) ∧
          ∀ m ∈ s.queue v, ((s'.nodes v).metaData m).broadcast = true := by
  have hall : ∀ m ∈ s.queue v, ready (s.nodes v) time interval m := by
    intro m hm
    obtain ⟨ms, hms⟩ := Option.isSome_iff_exists.1 (List.mem_filter.1 hm).2
    obtain ⟨hfresh, -, hwait⟩ := hready m ms hms
    simp only [ready, hms, hfresh, hwait, Option.any_some, Bool.not_false, decide_true, Bool.and_self]
  have htick := staggerTick_eq hmode hsize hall hself
  refine ⟨htick, fun p hp => ?_, fun d hd => ?_, fun s' hs' => ⟨?_, staggerTick_clears hs'⟩⟩
  · rw [departures_to hp, departuresTo_carried, queue, List.filter_filter]
    refine List.filter_congr fun m _ => ?_
    cases hm : (s.nodes v).bq m <;> simp [LightningNode.owes, hm]
  · obtain ⟨hdst, hto⟩ := mem_departures hd
    exact ⟨hdst, (mem_departuresTo hto).2, fun m hm => departuresTo_offset hconf hbatch hto hm⟩
  · rw [htick] at hs'
    obtain ⟨s₁, hs₁, rfl⟩ := Option.map_eq_some_iff.1 hs'
    exact (departs_emits hs₁).flight

end

/-- A sub-batch every ten units, in batches or as inventory entries. -/
def trickling (minBatchSize : Int) (sendBatchUpdates : Bool) : GossipAlgorithm :=
  ⟨1000, minBatchSize, 0, 10, true, false, true, sendBatchUpdates⟩

def twoNodes (minBatchSize : Int) (sendBatchUpdates : Bool) : World 2 k :=
  .plain (trickling minBatchSize sendBatchUpdates) (Nat.lt_of_sub_eq_succ rfl)
    (.generated fun _ => 1) [] []

/-- All messages wait at node 0 since the start, some of them having come from node 1. -/
def waiting (k : Nat) (known : Fin k → Bool) : Sim 2 k :=
  (new (twoNodes 1 false)).modify 0 fun ln =>
    { ln with gossipPeers := {1}, bq := fun m => some ⟨if known m then {1} else ∅, 0, 0⟩ }

theorem staggerTick_sends_twoNodes : ∃ s',
    (waiting 2 fun _ => false).staggerTick (twoNodes 1 false) 1000 0 1000 = some s' ∧
      Multiset.card s'.flight = 2 ∧ (∀ m, (s'.nodes 0).bq m = none) ∧
      (departures (twoNodes 1 false) (waiting 2 fun _ => false) 0 1
        ((waiting 2 fun _ => false).queue 0)).map (·.offset) = [0, 10] := by
  obtain ⟨s', hs'⟩ := Option.isSome_iff_exists.1 (by decide +kernel :
    ((waiting 2 fun _ => false).staggerTick (twoNodes 1 false) 1000 0 1000).isSome = true)
  have hone : calculateSubBatchSize 1000 10 1 ((waiting 2 fun _ => false).queue 0).length =
      some ↑(1 : Nat) := by
    decide
  obtain ⟨-, -, -, hclears⟩ := staggerTick_sends (W := twoNodes 1 false) rfl rfl hone (by decide)
    (by rintro m ms ⟨⟩; exact ⟨rfl, Nat.zero_le 1000, Nat.le_refl 1000⟩) (by decide)
  obtain ⟨hflight, hempty, -⟩ := hclears s' hs'
  refine ⟨s', hs', ?_, hempty, by decide +kernel⟩
  rw [hflight, Multiset.card_add, Multiset.coe_card, List.length_map]
  decide +kernel

end Sim

end LnConv.Lnsim
