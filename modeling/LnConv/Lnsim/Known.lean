import LnConv.Lib.Loop
import LnConv.Lnsim.Update

/-!
# What is known before it is broadcast

Nothing: a message is first named by its broadcast, so its counters are those of its source
until then, and every message that is broadcast is broadcast once.
-/

namespace LnConv.Lnsim

open Netsim

variable {n k : Nat}

/-- The gossip messages that a message names. -/
def Body.Mentions (b : Body k) (m : Fin k) : Prop :=
  match b with
  | .gossip m' => m = m'
  | .channelQuery invs => m ∈ invs.map (·.msgID)
  | .channelUpdateBatch batch _ _ => m ∈ batch
  | .channelInvs invs _ compared => m ∈ invs.map (·.msgID) ∨ m ∈ compared
  | _ => False

/-- All that a node holds are messages with `P`. -/
structure LightningNode.Within (P : Fin k → Prop) (ln : LightningNode n k) : Prop where
  bq : ∀ m ms, ln.bq m = some ms → P m
  seen : ∀ m md, ln.seen m = some md → P m
  latest : ∀ c d m, ln.latest c d = some m → P m
  sets : ∀ p set, ln.reconcilSets p = some set → ∀ m ∈ set, P m

namespace Sim

variable {W : World n k} {s s' : Sim n k}

/-- The message has been broadcast. -/
def Known (s : Sim n k) (m : Fin k) : Prop := ∃ o, s.history.origin m = some o

/-- Only messages that have been broadcast are named anywhere. -/
structure KnownOnly (W : World n k) (s : Sim n k) : Prop where
  flight : ∀ me ∈ s.flight, ∀ m, me.m.body.Mentions m → s.Known m
  received : ∀ me ∈ s.history.received, ∀ m, me.m.body.Mentions m → s.Known m
  nodes : ∀ v, (s.nodes v).Within s.Known
  logged : ∀ row ∈ s.seenLogger, s.Known row.messageID
  deleted : ∀ m ∈ s.history.deleted, s.Known m
  nodup : s.queued.Nodup
  queued : ∀ m ∈ s.queued, ¬s.Known m
  messages : ∀ m, ¬s.Known m → s.messages m = W.source.message m

/-! ## The first state -/

/-- Nothing has happened, and the broadcasts of `q` wait. -/
structure Initial (W : World n k) (q : Multiset (Fin k)) (s : Sim n k) : Prop where
  bq : ∀ v m, (s.nodes v).bq m = none
  seen : ∀ v m, (s.nodes v).seen m = none
  seenByChannel : ∀ v c, (s.nodes v).seenByChannel c = none
  sets : ∀ v p set, (s.nodes v).reconcilSets p = some set → set = ∅
  requestedInv : ∀ v, (s.nodes v).requestedInv = ∅
  messages : s.messages = W.source.message
  seenLogger : s.seenLogger = []
  flight : s.flight = 0
  queued : s.queued = q
  history : s.history = ⟨[], [], fun _ => none, ∅⟩

variable {q : Multiset (Fin k)}

theorem initial_new : Initial W 0 (new W) :=
  ⟨fun _ _ => rfl, fun _ _ => rfl, fun _ _ => rfl, fun _ _ _ h => (nomatch h), fun _ => rfl, rfl, rfl,
    rfl, rfl, rfl⟩

theorem Initial.emits (h : Initial W q s) (he : Emits s [] s') : Initial W q s' where
  bq v m := by rw [he.bq]; exact h.bq v m
  seen v m := by rw [he.seen]; exact h.seen v m
  seenByChannel v c := by rw [he.seenByChannel]; exact h.seenByChannel v c
  sets v p := by rw [he.reconcilSets]; exact h.sets v p
  requestedInv v := by rw [he.requestedInv]; exact h.requestedInv v
  messages := he.messages.trans h.messages
  seenLogger := he.seenLogger.trans h.seenLogger
  flight := by rw [he.flight, h.flight]; rfl
  queued := he.queued.trans h.queued
  history := by rw [he.history, h.history]; rfl

/-- Setting up the connections of a node. -/
theorem Initial.modify (h : Initial W q s) {v : Fin n} {f : LightningNode n k → LightningNode n k}
    (hf : ∀ ln, (f ln).bq = ln.bq ∧ (f ln).seen = ln.seen ∧
      (f ln).seenByChannel = ln.seenByChannel ∧ (f ln).requestedInv = ln.requestedInv ∧
      ∀ p set, (f ln).reconcilSets p = some set → set = ∅ ∨ ln.reconcilSets p = some set) :
    Initial W q (s.modify v f) := by
  obtain ⟨h₁, h₂, h₃, h₄, h₅⟩ := hf (s.nodes v)
  have hcase : ∀ w, (s.modify v f).nodes w = s.nodes w ∨
      w = v ∧ (s.modify v f).nodes w = f (s.nodes v) := by
    intro w
    by_cases hw : w = v
    · subst hw
      exact .inr ⟨rfl, modify_self _ _ _⟩
    · exact .inl (modify_of_ne _ _ hw)
  refine ⟨fun w m => ?_, fun w m => ?_, fun w c => ?_, fun w p set hset => ?_, fun w => ?_,
    h.messages, h.seenLogger, h.flight, h.queued, h.history⟩
  · rcases hcase w with hw | ⟨-, hw⟩
    · rw [hw]; exact h.bq w m
    · rw [hw, h₁]; exact h.bq v m
  · rcases hcase w with hw | ⟨-, hw⟩
    · rw [hw]; exact h.seen w m
    · rw [hw, h₂]; exact h.seen v m
  · rcases hcase w with hw | ⟨-, hw⟩
    · rw [hw]; exact h.seenByChannel w c
    · rw [hw, h₃]; exact h.seenByChannel v c
  · rcases hcase w with hw | ⟨-, hw⟩
    · rw [hw] at hset; exact h.sets w p set hset
    · rw [hw] at hset
      rcases h₅ p set hset with he | ho
      · exact he
      · exact h.sets v p set ho
  · rcases hcase w with hw | ⟨-, hw⟩
    · rw [hw]; exact h.requestedInv w
    · rw [hw, h₄]; exact h.requestedInv v

theorem Initial.clear (h : Initial W q s) (v p : Fin n) :
    Initial W q (s.modify v fun ln => ln.clear p) := by
  refine h.modify fun ln => ⟨rfl, rfl, rfl, rfl, fun p' set hset => ?_⟩
  change Function.update ln.reconcilSets p (some ∅) p' = some set at hset
  by_cases hp : p' = p
  · rw [hp, Function.update_self] at hset
    exact .inl (Option.some.inj hset).symm
  · rw [Function.update_of_ne hp] at hset
    exact .inr hset

theorem Initial.requestGossipFromNode (h : Initial W q s) {v other : Fin n}
    (hs : s.requestGossipFromNode W v other = some s') : Initial W q s' := by
  have h₁ : Initial W q (s.modify other fun ln =>
      { ln with gossipPeers := insert v ln.gossipPeers }) :=
    h.modify fun ln => ⟨rfl, rfl, rfl, rfl, fun _ _ => .inr⟩
  simp only [Sim.requestGossipFromNode] at hs
  split at hs
  · have h₂ := (h₁.clear v other).clear other v
    unfold initReconcilTicker at hs
    split at hs
    · cases hs
      exact h₂
    · refine (h₂.modify (v := v) fun ln => ?_).emits (newTicker_emits (by intro m hm; cases hm) hs)
      exact ⟨rfl, rfl, rfl, rfl, fun _ _ => .inr⟩
  · cases hs
    exact h₁

theorem Initial.setActiveSyncerForST (h : Initial W q s) {v other : Fin n}
    (hs : s.setActiveSyncerForST W v other = some s') : Initial W q s' := by
  obtain ⟨s₁, hs₁, hs⟩ := Option.bind_eq_some_iff.1 hs
  exact (h.requestGossipFromNode hs₁).requestGossipFromNode hs

/-- What connecting two nodes keeps, the search keeps. While the peers of a node are looked at, `Q`
holds of it. -/
theorem search_keeps {P : Search n k → Prop} {Q : Fin n → Search n k → Prop} {fuel : Nat}
    {b b' : Search n k}
    (hpop : ∀ node queue b, b.queue = node :: queue → P b → Q node { b with queue := queue })
    (hpeer : ∀ node b p b', p ∈ W.peers node → Q node b → searchPeer W node b p = some b' → Q node b')
    (hdone : ∀ node b, Q node b → P b) (hb : P b) (h : search W fuel b = some b') : P b' := by
  induction fuel generalizing b with
  | zero =>
    unfold search at h
    split at h
    · cases h
      exact hb
    · cases h
  | succ fuel ih =>
    unfold search at h
    split at h
    · cases h
      exact hb
    · next node queue hq =>
      obtain ⟨b₁, hb₁, h⟩ := Option.bind_eq_some_iff.1 h
      refine ih (hdone node _ (foldlM_invariant (fun b p hp b' => ?_) (hpop node queue b hq hb) hb₁)) h
      exact hpeer node b p b' (mem_sorted.1 hp)

theorem Initial.initSyncers (h : Initial W q s) (hs : s.initSyncers W = some s') :
    Initial W q s' := by
  unfold Sim.initSyncers at hs
  split at hs
  · unfold Sim.spanningTree at hs
    split at hs
    · obtain ⟨b, hb, rfl⟩ := Option.map_eq_some_iff.1 hs
      have hkeep : ∀ node b p b', p ∈ W.peers node → Initial W q b.sim →
          searchPeer W node b p = some b' → Initial W q b'.sim := by
        intro node b p b' _ hb hp
        unfold searchPeer at hp
        split at hp
        · cases hp
          exact hb
        · obtain ⟨s₁, hs₁, hp⟩ := Option.bind_eq_some_iff.1 hp
          cases hp
          exact hb.setActiveSyncerForST hs₁
      exact search_keeps (P := fun b => Initial W q b.sim) (Q := fun _ b => Initial W q b.sim)
        (fun _ _ _ _ h => h) hkeep (fun _ _ h => h) h hb
    · cases hs
  · exact foldlM_invariant (fun s c _ s' hs => hs.requestGossipFromNode) h hs

theorem Initial.makeBlackholes (h : Initial W q s) (l : List (Fin n)) :
    Initial W q (l.foldl makeBlackhole s) := by
  induction l generalizing s with
  | nil => exact h
  | cons v l ih =>
    apply ih
    exact h.modify fun ln => ⟨rfl, rfl, rfl, rfl, fun _ _ => .inr⟩

theorem Initial.newTicker (h : Initial W q s) {interval offset : Nat} {m : Fin k}
    (hs : s.newTicker interval offset (.broadcast m) = some s') : Initial W (q + {m}) s' := by
  obtain ⟨hs', t, heq⟩ := newTicker_eq hs
  have hf := flight_append heq
  have hq := queued_append heq
  rw [hs']
  refine ⟨h.bq, h.seen, h.seenByChannel, h.sets, h.requestedInv, h.messages, h.seenLogger, ?_, ?_,
    h.history⟩
  · rw [← hs', hf, h.flight]
    rfl
  · rw [← hs', hq, h.queued]
    rfl

theorem Initial.populateMessages {l : List (Fin k)} (h : Initial W q s)
    (hs : l.foldlM (fun s m => s.newTicker (s.messages m).broadcastTime 0 (.broadcast m)) s = some s') :
    Initial W (q + (l : Multiset (Fin k))) s' := by
  induction l generalizing s q with
  | nil =>
    cases hs
    rw [Multiset.coe_nil, add_zero]
    exact h
  | cons m l ih =>
    rw [List.foldlM_cons] at hs
    obtain ⟨s₁, hs₁, hs⟩ := Option.bind_eq_some_iff.1 hs
    have := ih (h.newTicker hs₁) hs
    rwa [add_assoc, Multiset.singleton_add, Multiset.cons_coe] at this

theorem initStaggerTickers_emits (h : s.initStaggerTickers W = some s') : Emits s [] s' := by
  unfold initStaggerTickers at h
  split at h
  · refine Emits.foldlM_nil (fun s v s' hs => ?_) h
    exact newTicker_emits (by intro m hm; cases hm) hs
  · cases h
    exact Emits.refl _

theorem initial_of_init (h : init W = some s) : Initial W (List.finRange k : Multiset (Fin k)) s := by
  obtain ⟨s₁, hs₁, h⟩ := Option.bind_eq_some_iff.1 h
  obtain ⟨s₂, hs₂, h⟩ := Option.bind_eq_some_iff.1 h
  obtain ⟨s₃, hs₃, h⟩ := Option.bind_eq_some_iff.1 h
  have h₁ : Initial W 0 s₁ := initial_new.emits (initStaggerTickers_emits hs₁)
  have h₂ := ((h₁.initSyncers hs₂).makeBlackholes W.blackholes).populateMessages hs₃
  rw [zero_add] at h₂
  exact h₂.emits (injectPayments_emits h)

theorem KnownOnly.of_initial (h : Initial W (List.finRange k : Multiset (Fin k)) s) :
    KnownOnly W s := by
  have hnot : ∀ m, ¬s.Known m := by
    rintro m ⟨o, ho⟩
    rw [h.history] at ho
    cases ho
  refine ⟨?_, ?_, fun v => ⟨?_, ?_, ?_, ?_⟩, ?_, ?_, ?_, fun m _ => hnot m,
    fun m _ => by rw [h.messages]⟩
  · rw [h.flight]
    exact fun me hme => absurd hme (Multiset.notMem_zero me)
  · rw [h.history]
    exact fun me hme => absurd hme List.not_mem_nil
  · intro m ms hm
    rw [h.bq] at hm
    cases hm
  · intro m md hm
    rw [h.seen] at hm
    cases hm
  · intro c d m hm
    unfold LightningNode.latest at hm
    rw [h.seenByChannel] at hm
    cases hm
  · intro p set hset m hm
    rw [h.sets v p set hset] at hm
    exact absurd hm (Finset.notMem_empty m)
  · rw [h.seenLogger]
    exact fun row hrow => absurd hrow List.not_mem_nil
  · rw [h.history]
    exact fun m hm => absurd hm (Finset.notMem_empty m)
  · rw [h.queued]
    exact Multiset.coe_nodup.2 (List.nodup_finRange k)

/-! ## Steps -/

theorem Within.mono {P Q : Fin k → Prop} (hPQ : ∀ m, P m → Q m) {ln : LightningNode n k}
    (h : ln.Within P) : ln.Within Q :=
  ⟨fun m ms hm => hPQ m (h.bq m ms hm), fun m md hm => hPQ m (h.seen m md hm),
    fun c d m hm => hPQ m (h.latest c d m hm), fun p set hs m hm => hPQ m (h.sets p set hs m hm)⟩

theorem Within.of_untimed {P : Fin k → Prop} {a b : LightningNode n k} (h : a.Within P)
    (hab : b.untimed = a.untimed) : b.Within P := by
  obtain ⟨h₁, h₂, h₃, -, h₅, -⟩ := LightningNode.untimed_eq_iff.1 hab
  refine ⟨fun m ms hm => h.bq m ms (h₁ ▸ hm), fun m md hm => h.seen m md (h₂ ▸ hm),
    fun c d m hm => h.latest c d m ?_, fun p set hs => h.sets p set (h₅ ▸ hs)⟩
  rwa [latest_eq h₃] at hm

theorem Within.clear {P : Fin k → Prop} {ln : LightningNode n k} (h : ln.Within P) (p : Fin n) :
    (ln.clear p).Within P := by
  refine ⟨h.bq, h.seen, h.latest, fun p' set hs m hm => ?_⟩
  change Function.update ln.reconcilSets p (some ∅) p' = some set at hs
  by_cases hp : p' = p
  · rw [hp, Function.update_self] at hs
    cases hs
    exact absurd hm (Finset.notMem_empty m)
  · rw [Function.update_of_ne hp] at hs
    exact h.sets p' set hs m hm

theorem Within.clearQueue {P : Fin k → Prop} {ln : LightningNode n k} (h : ln.Within P) :
    ln.clearQueue.Within P := by
  refine ⟨fun m ms hm => (nomatch hm), fun m md hm => ?_, h.latest, h.sets⟩
  change (if (ln.bq m).isSome then _ else ln.seen m) = some md at hm
  split at hm
  · next hbq =>
    obtain ⟨ms, hms⟩ := Option.isSome_iff_exists.1 hbq
    exact h.bq m ms hms
  · exact h.seen m md hm

namespace KnownOnly

theorem modify (h : KnownOnly W s) {v : Fin n} {f : LightningNode n k → LightningNode n k}
    (hf : (f (s.nodes v)).Within s.Known) : KnownOnly W (s.modify v f) := by
  refine ⟨h.flight, h.received, fun w => ?_, h.logged, h.deleted, h.nodup, h.queued, h.messages⟩
  by_cases hw : w = v
  · subst hw
    rw [modify_self]
    exact hf
  · rw [modify_of_ne _ _ hw]
    exact h.nodes w

theorem known_of_emits {out : List (Packet n k)} (he : Emits s out s') (m : Fin k) :
    s'.Known m ↔ s.Known m := by
  unfold Known
  rw [he.history]

theorem emits (h : KnownOnly W s) {out : List (Packet n k)} (he : Emits s out s')
    (hout : ∀ me ∈ out, ∀ m, me.m.body.Mentions m → s.Known m) : KnownOnly W s' := by
  have hk := known_of_emits he
  refine ⟨?_, ?_, fun v => ?_, ?_, ?_, ?_, ?_, ?_⟩
  · intro me hme m hm
    rw [he.flight, Multiset.mem_add] at hme
    rw [hk]
    rcases hme with hme | hme
    · exact h.flight me hme m hm
    · exact hout me (Multiset.mem_coe.1 hme) m hm
  · intro me hme m hm
    rw [he.history] at hme
    exact (hk m).2 (h.received me hme m hm)
  · exact Within.of_untimed (Within.mono (fun m => (hk m).2) (h.nodes v)) (he.nodes v)
  · intro row hrow
    rw [he.seenLogger] at hrow
    exact (hk _).2 (h.logged row hrow)
  · intro m hm
    rw [he.history] at hm
    exact (hk m).2 (h.deleted m hm)
  · rw [he.queued]
    exact h.nodup
  · intro m hm
    rw [he.queued] at hm
    rw [hk]
    exact h.queued m hm
  · intro m hm
    rw [he.messages]
    exact h.messages m (by rwa [hk] at hm)

theorem arrived (h : KnownOnly W s) {me : Packet n k} (ha : Arrived s me s') :
    KnownOnly W s' ∧ ∀ m, me.m.body.Mentions m → s'.Known m := by
  have hk : ∀ m, s'.Known m ↔ s.Known m := by
    intro m
    unfold Known
    rw [ha.history]
  have hme : ∀ m, me.m.body.Mentions m → s'.Known m := by
    intro m hm
    rw [hk]
    refine h.flight me ?_ m hm
    rw [ha.flight]
    exact Multiset.mem_cons_self me _
  refine ⟨⟨?_, ?_, fun v => ?_, ?_, ?_, ?_, ?_, ?_⟩, hme⟩
  · intro me' hme' m hm
    refine (hk m).2 (h.flight me' ?_ m hm)
    rw [ha.flight]
    exact Multiset.mem_cons_of_mem hme'
  · intro me' hme' m hm
    rw [ha.history] at hme'
    rcases List.mem_append.1 hme' with hme' | hme'
    · exact (hk m).2 (h.received me' hme' m hm)
    · rw [List.mem_singleton.1 hme'] at hm
      exact hme m hm
  · rw [ha.nodes]
    exact Within.mono (fun m => (hk m).2) (h.nodes v)
  · intro row hrow
    rw [ha.seenLogger] at hrow
    exact (hk _).2 (h.logged row hrow)
  · intro m hm
    rw [ha.history] at hm
    exact (hk m).2 (h.deleted m hm)
  · rw [ha.queued]
    exact h.nodup
  · intro m hm
    rw [ha.queued] at hm
    rw [hk]
    exact h.queued m hm
  · intro m hm
    rw [ha.messages]
    exact h.messages m (by rwa [hk] at hm)

theorem updated {time : Nat} {m : Fin k} {v sender : Fin n} {hops : Nat} (h : KnownOnly W s)
    (hm : s.Known m) (hu : Updated W s time m v sender hops s') :
    KnownOnly W s' ∧ ∀ m', s'.Known m' ↔ s.Known m' := by
  have hst := hu.stays
  have hk : ∀ m', s'.Known m' ↔ s.Known m' := by
    intro m'
    unfold Known
    rw [hst.history]
  refine ⟨⟨?_, ?_, fun w => ⟨?_, ?_, ?_, ?_⟩, ?_, ?_, ?_, ?_, ?_⟩, hk⟩
  · intro me hme m' hm'
    rw [hst.flight] at hme
    exact (hk m').2 (h.flight me hme m' hm')
  · intro me hme m' hm'
    rw [hst.history] at hme
    exact (hk m').2 (h.received me hme m' hm')
  · intro m' ms' hms'
    rw [hk]
    rcases hu.bq hms' with ⟨ms, hms, -⟩ | ⟨-, rfl, -⟩
    · exact (h.nodes w).bq m' ms hms
    · exact hm
  · intro m' md hmd
    rw [hk]
    by_cases hm' : m' = m
    · rw [hm']
      exact hm
    · rw [hu.seen_of_ne hm'] at hmd
      exact (h.nodes w).seen m' md hmd
  · intro c d m' hm'
    rw [hk]
    rcases hu.latest w c d with hl | ⟨-, -, -, -, hl, -⟩
    · rw [hl] at hm'
      exact (h.nodes w).latest c d m' hm'
    · rw [hl] at hm'
      cases hm'
      exact hm
  · intro p set' hset' m' hm'
    rw [hk]
    rcases hu.sets with hs | ⟨-, -, hs, -, replace, -, hv⟩
    · rw [hs] at hset'
      exact (h.nodes w).sets p set' hset' m' hm'
    · by_cases hw : w = v
      · subst hw
        rw [hv] at hset'
        obtain ⟨set, hset, rfl⟩ := Option.map_eq_some_iff.1 hset'
        have hold : m' ∈ set \ replace.toFinset → s.Known m' := fun hin =>
          (h.nodes w).sets p set hset m' (Finset.mem_sdiff.1 hin).1
        split at hm'
        · exact hold hm'
        · rcases Finset.mem_insert.1 hm' with rfl | hin
          · exact hm
          · exact hold hin
      · rw [hs w hw] at hset'
        exact (h.nodes w).sets p set' hset' m' hm'
  · intro row hrow
    rw [hk]
    cases hu.counts with
    | everyone he _ => rw [he] at hrow; exact h.logged row hrow
    | again _ _ _ hl _ _ _ => rw [hl] at hrow; exact h.logged row hrow
    | first _ _ _ _ hid hl _ _ _ | last _ _ _ _ hid hl _ _ =>
      rw [hl] at hrow
      rcases List.mem_append.1 hrow with hrow | hrow
      · exact h.logged row hrow
      · rw [List.mem_singleton.1 hrow, hid]
        exact hm
  · intro m' hm'
    rw [hk]
    cases hu.counts with
    | everyone he _ => rw [he] at hm'; exact h.deleted m' hm'
    | again _ _ _ _ hd _ _ => rw [hd] at hm'; exact h.deleted m' hm'
    | first _ _ _ _ _ _ hd _ _ => rw [hd] at hm'; exact h.deleted m' hm'
    | last _ _ _ _ _ _ hd _ =>
      rw [hd] at hm'
      rcases Finset.mem_insert.1 hm' with rfl | hm'
      · exact hm
      · exact h.deleted m' hm'
  · rw [hst.queued]
    exact h.nodup
  · intro m' hm'
    rw [hst.queued] at hm'
    rw [hk]
    exact h.queued m' hm'
  · intro m' hm'
    rw [hk] at hm'
    rw [hst.others m' (fun heq => hm' (heq ▸ hm))]
    exact h.messages m' hm'

theorem updates {time : Nat} {ms : List (Fin k)} {v sender : Fin n} {hops : Nat}
    (h : KnownOnly W s) (hms : ∀ m ∈ ms, s.Known m)
    (hu : Updates W time v sender hops ms s s') : KnownOnly W s' := by
  induction hu with
  | nil _ => exact h
  | cons hu _ ih =>
    obtain ⟨h₁, hk⟩ := h.updated (hms _ List.mem_cons_self) hu
    exact ih h₁ fun m hm => (hk m).2 (hms m (List.mem_cons_of_mem _ hm))

theorem not_mentions_of_silent {me : Packet n k} (h : Silent me) (m : Fin k) :
    ¬me.m.body.Mentions m := by
  unfold Silent at h
  rcases h with h | ⟨size, h⟩
  · rw [h]; exact id
  · rw [h]; exact id

theorem mem_carried_of_forward {messages : Fin k → Gossip n} {b : Body k}
    (h : Forward W messages b) {m : Fin k} (hm : b.Mentions m) : m ∈ b.carried := by
  cases h with
  | batch batch _ => exact List.mem_append_left _ hm
  | gossip m' _ _ => exact List.mem_append_left _ (List.mem_singleton.2 hm)
  | invs ms _ _ =>
    rcases hm with hm | hm
    · exact List.mem_append_right _ hm
    · exact absurd hm (Finset.notMem_empty m)

theorem mentions_queryTo {v dst : Fin n} {q : List (ChannelInv k)} {me : Packet n k}
    (hme : me ∈ queryTo v dst q) {m : Fin k} (hm : me.m.body.Mentions m) : m ∈ q.map (·.msgID) := by
  unfold queryTo at hme
  split at hme
  · cases hme
  · rw [List.mem_singleton.1 hme] at hm
    exact hm

theorem mentions_answerTo {v dst : Fin n} {batch : List (Fin k)} {me : Packet n k}
    (hme : me ∈ answerTo v dst batch) {m : Fin k} (hm : me.m.body.Mentions m) : m ∈ batch := by
  unfold answerTo at hme
  split at hme
  · cases hme
  · rw [List.mem_singleton.1 hme] at hm
    exact hm

theorem mentions_of_mem_bodies {b : Body k} {m : Fin k} (h : m ∈ b.bodies) : b.Mentions m := by
  cases b with
  | gossip m' => exact List.mem_singleton.1 h
  | channelUpdateBatch batch success answer => exact h
  | channelQuery _ | channelInvs _ _ _ | reconcilSketch | reconcilRequest _ => cases h

/-- What the originator does to the state. -/
theorem originated (h : KnownOnly W s) {v : Fin n} {m : Fin k} (hm : ¬s.Known m)
    (hq : m ∉ s.queued) {f : Gossip n → Gossip n} :
    KnownOnly W ((s.modifyMessage m f).originated v m) := by
  have hk : ∀ m', ((s.modifyMessage m f).originated v m).Known m' ↔ s.Known m' ∨ m' = m := by
    intro m'
    show (∃ o, Function.update s.history.origin m (some v) m' = some o) ↔ _
    by_cases hm' : m' = m
    · subst hm'
      rw [Function.update_self]
      exact iff_of_true ⟨v, rfl⟩ (.inr rfl)
    · rw [Function.update_of_ne hm', or_iff_left hm']
      rfl
  have hnode : ∀ messages, ((((s.nodes v).markSeen m).storeNew messages m).1).Within
      fun m' => s.Known m' ∨ m' = m := by
    intro messages
    have hs := LightningNode.storeNew_spec messages ((s.nodes v).markSeen m) m
    have hw := h.nodes v
    refine ⟨fun m' ms hms => ?_, fun m' md hmd => ?_, fun c d m' hm' => ?_, fun p set hset m' hm' => ?_⟩
    · rw [hs.node] at hms
      exact .inl (hw.bq m' ms hms)
    · rw [hs.node] at hmd
      change Function.update (s.nodes v).seen m _ m' = some md at hmd
      by_cases hm' : m' = m
      · exact .inr hm'
      · rw [Function.update_of_ne hm'] at hmd
        exact .inl (hw.seen m' md hmd)
    · rcases hs.latest c d with hl | ⟨-, -, -, -, hl⟩
      · rw [hl] at hm'
        exact .inl (hw.latest c d m' hm')
      · rw [hl] at hm'
        exact .inr (Option.some.inj hm').symm
    · rw [hs.node] at hset
      exact .inl (hw.sets p set hset m' hm')
  refine ⟨?_, ?_, fun w => ?_, ?_, ?_, h.nodup, fun m' hm' => ?_, fun m' hm' => ?_⟩
  · exact fun me hme m' hm' => (hk m').2 (.inl (h.flight me hme m' hm'))
  · exact fun me hme m' hm' => (hk m').2 (.inl (h.received me hme m' hm'))
  · apply Within.mono (fun m' => (hk m').2)
    by_cases hw : w = v
    · subst hw
      rw [originated_node]
      exact hnode _
    · rw [originated_of_ne _ _ hw]
      exact Within.mono (fun _ => .inl) (h.nodes w)
  · exact fun row hrow => (hk _).2 (.inl (h.logged row hrow))
  · exact fun m' hm' => (hk _).2 (.inl (h.deleted m' hm'))
  · rw [hk]
    rintro (hkn | rfl)
    · exact h.queued m' hm' hkn
    · exact hq hm'
  · rw [hk] at hm'
    have hne : m' ≠ m := fun heq => hm' (.inr heq)
    exact (Function.update_of_ne hne _ _).trans (h.messages m' fun hkn => hm' (.inl hkn))

theorem broadcast (h : KnownOnly W s) {l : Label n} {m : Fin k} (hm : ¬s.Known m)
    (hq : m ∉ s.queued) (hb : Broadcasts W s l m s') : KnownOnly W s' := by
  have hmention : ∀ {t : Sim n k} {v : Fin n} {dests : List (Fin n)} {size : UInt64},
      ∀ me ∈ dests.map (fun p => (⟨⟨.gossip m, size⟩, v, p, 1⟩ : Packet n k)), ∀ m',
        me.m.body.Mentions m' → (t.originated v m).Known m' := by
    intro t v dests size me hme m' hm'
    obtain ⟨p, -, rfl⟩ := List.mem_map.1 hme
    obtain rfl : m' = m := hm'
    exact ⟨v, Function.update_self _ _ _⟩
  rcases hb.originates with rfl | ⟨v, f, dests, size, he⟩
  · exact h
  · exact (h.originated hm hq).emits he hmention

theorem answerFor_known (h : KnownOnly W s) {v : Fin n} {inv : ChannelInv k} {m : Fin k}
    (hinv : s.Known inv.msgID) (hm : s.answerFor v inv = some m) : s.Known m := by
  unfold answerFor at hm
  split at hm
  · cases hm
    exact hinv
  · exact (h.nodes v).latest _ _ m hm

theorem cleared (h : KnownOnly W s) (v p : Fin n) (success : Bool) :
    KnownOnly W (s.cleared v p success) ∧ ∀ m, (s.cleared v p success).Known m ↔ s.Known m := by
  unfold Sim.cleared
  split
  · exact ⟨h.modify (Within.clear (h.nodes v) p), fun _ => Iff.rfl⟩
  · exact ⟨h, fun _ => Iff.rfl⟩

theorem request (h : KnownOnly W s) (v : Fin n) (q : List (ChannelInv k)) :
    KnownOnly W (s.modify v (·.request q)) :=
  h.modify ⟨(h.nodes v).bq, (h.nodes v).seen, (h.nodes v).latest, (h.nodes v).sets⟩

theorem delivered {time : Nat} {me : Packet n k} (h : KnownOnly W s)
    (hme : ∀ m, me.m.body.Mentions m → s.Known m) (hd : Delivered W time s me s') :
    KnownOnly W s' := by
  cases hd with
  | silent hout he =>
    exact h.emits he fun me' hme' m hm => absurd hm (not_mentions_of_silent (hout me' hme') m)
  | updates hu =>
    obtain ⟨hc, hk⟩ := h.cleared me.receiver me.sender me.m.body.success
    exact hc.updates (fun m hm => (hk m).2 (hme m (mentions_of_mem_bodies hm))) hu
  | query hb hall hsub he =>
    apply h.emits he
    intro me' hme' m hm
    obtain ⟨inv, hinv, hans⟩ := List.mem_filterMap.1 (hsub.subset (mentions_answerTo hme' hm))
    refine h.answerFor_known (hme _ ?_) hans
    rw [hb]
    exact List.mem_map_of_mem hinv
  | @invs invs success compared q _ hb hq he =>
    obtain ⟨hc, hk⟩ := h.cleared me.receiver me.sender success
    refine (hc.request me.receiver q).emits he fun me' hme' m hm => (hk m).2 (hme m ?_)
    have hin := mentions_queryTo hme' hm
    rw [hq] at hin
    obtain ⟨inv, hinv, rfl⟩ := List.mem_map.1 hin
    rw [hb]
    exact .inl (List.mem_map_of_mem (List.mem_filter.1 hinv).1)
  | @sketch lnSet senderSet q dataSize _ hln hsender hq he =>
    have hw := Within.clear (h.nodes me.receiver) me.sender
    have hln' := (h.nodes me.receiver).sets me.sender lnSet hln
    have hsender' := (h.nodes me.sender).sets me.receiver senderSet hsender
    have hk : KnownOnly W (s.modify me.receiver fun ln => (ln.request q).clear me.sender) :=
      h.modify ⟨hw.bq, hw.seen, hw.latest, hw.sets⟩
    apply hk.emits he
    intro me' hme' m hm
    rcases List.mem_append.1 hme' with hme' | hme'
    · have hin := mentions_queryTo hme' hm
      rw [hq] at hin
      obtain ⟨inv, hinv, rfl⟩ := List.mem_map.1 hin
      obtain ⟨m', hm', rfl⟩ := List.mem_map.1 (List.mem_filter.1 hinv).1
      exact hsender' m' (Finset.mem_sdiff.1 (mem_sorted.1 hm')).1
    · rw [List.mem_singleton.1 hme'] at hm
      rcases hm with hm | hm
      · rw [map_inv_msgID] at hm
        exact hln' m (Finset.mem_sdiff.1 (mem_sorted.1 hm)).1
      · exact hsender' m hm

theorem dequeued {m : Fin k} (h : KnownOnly W s) (hd : Dequeued s m s') : KnownOnly W s' := by
  have hk : ∀ m', s'.Known m' ↔ s.Known m' := by
    intro m'
    unfold Known
    rw [hd.history]
  have hnodup := h.nodup
  rw [hd.queued, Multiset.nodup_cons] at hnodup
  refine ⟨?_, ?_, fun v => ?_, ?_, ?_, hnodup.2, fun m' hm' => ?_, fun m' hm' => ?_⟩
  · rw [hd.flight]
    exact fun me hme m' hm' => (hk m').2 (h.flight me hme m' hm')
  · rw [hd.history]
    exact fun me hme m' hm' => (hk m').2 (h.received me hme m' hm')
  · rw [hd.nodes]
    exact Within.mono (fun m' => (hk m').2) (h.nodes v)
  · rw [hd.seenLogger]
    exact fun row hrow => (hk _).2 (h.logged row hrow)
  · rw [hd.history]
    exact fun m' hm' => (hk _).2 (h.deleted m' hm')
  · rw [hk]
    apply h.queued m'
    rw [hd.queued]
    exact Multiset.mem_cons_of_mem hm'
  · rw [hd.messages]
    exact h.messages m' (by rwa [hk] at hm')

/-- What is about to be broadcast nobody knows. -/
theorem not_known_of_dequeued {m : Fin k} (h : KnownOnly W s) (hd : Dequeued s m s') :
    ¬s'.Known m := by
  have hm := h.queued m (by rw [hd.queued]; exact Multiset.mem_cons_self m _)
  unfold Known at hm ⊢
  rwa [hd.history]

theorem turn {l : Label n} (h : KnownOnly W s) (ht : Turn W s l s') : KnownOnly W s' := by
  cases ht with
  | quiet hout he =>
    exact h.emits he fun me hme m hm => absurd hm (not_mentions_of_silent (hout me hme) m)
  | @staggered v out _ _ hf he =>
    apply (h.modify (Within.clearQueue (h.nodes v))).emits he
    intro me hme m hm
    have howes := hf.owes hme (mem_carried_of_forward (hf.forward me hme) hm)
    obtain ⟨ms, hms, -⟩ := LightningNode.owes_iff.1 howes
    exact (h.nodes v).bq m ms hms
  | broadcast _ _ hd hb =>
    have hnodup := h.nodup
    rw [hd.queued, Multiset.nodup_cons] at hnodup
    exact (h.dequeued hd).broadcast (h.not_known_of_dequeued hd) hnodup.1 hb
  | delivered _ _ ha hd =>
    obtain ⟨h₀, hme⟩ := h.arrived ha
    exact h₀.delivered hme hd

end KnownOnly

/-- In every state of a run, only messages that have been broadcast are named. -/
theorem knownOnly_run {ls : List (Label n)} (hi : init W = some s)
    (h : run (step W) s ls = some s') : KnownOnly W s' :=
  run_invariant h (.of_initial (initial_of_init hi)) fun _ _ _ hk hs => hk.turn (step_cases hs)

end Sim

end LnConv.Lnsim
