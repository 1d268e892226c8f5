import LnConv.RecvJoin

/-!
# One reconciliation exchange

`exchange` is one round between two sketch nodes: `b` answers a sketch of `a`,
`a` takes the reply and answers the inventory, and `b` takes that answer. In the
pauses between these steps either node may receive gossip from elsewhere.
-/

namespace LnConv

variable {V : Type}

/-! ## What reaches a mailbox -/

namespace Effects

variable [DecidableEq V]

def batchTo (v : V) (t : Nat) : V × WireMessage → Option (Nat × WireMessage)
  | (u, .batch b) => if u = v then some (t, .batch b) else none
  | _ => none

def inventoryTo (v : V) : V × WireMessage → Option InventoryMsg
  | (u, .inventory i) => if u = v then some i else none
  | _ => none

/-- The batches sent to `v`, all of them received at `t`. -/
def batchesTo (e : Effects V) (v : V) (t : Nat) : List (Nat × WireMessage) :=
  e.sends.filterMap (batchTo v t)

def inventoriesTo (e : Effects V) (v : V) : List InventoryMsg := e.sends.filterMap (inventoryTo v)

end Effects

namespace SketchNode

section Answers

variable [DecidableEq V] {c : SketchCfg V} {v : V} {t : Nat} {kind : GossipKind}

theorem batches_sendGossips {gs : List Gossip} (h : ∀ g ∈ gs, g.kind = kind) (n : Node) :
    gossipsOf ((sendGossips v kind gs h n).2.filterMap (Effects.batchTo v t)) = gs := by
  rw [sendGossips_snd]
  split
  · next hnil => simp [gossipsOf, List.isEmpty_iff.1 hnil]
  · simp [gossipsOf, Effects.batchTo, WireMessage.gossips]

theorem inventories_sendGossips {gs : List Gossip} (h : ∀ g ∈ gs, g.kind = kind) (n : Node) :
    (sendGossips v kind gs h n).2.filterMap (Effects.inventoryTo v) = [] := by
  rw [sendGossips_snd]
  split <;> simp [Effects.inventoryTo]

theorem batches_sendInventory (gs : List Gossip) (n : Node) :
    (sendInventory c v kind gs n).2.filterMap (Effects.batchTo v t) = [] := by
  rw [sendInventory_snd]
  split <;> simp [Effects.batchTo]

theorem inventories_sendInventory (hfull : c.fullReconciliation = true) (gs : List Gossip)
    (n : Node) :
    (sendInventory c v kind gs n).2.filterMap (Effects.inventoryTo v) =
      if gs.isEmpty then [] else [InventoryMsg.new c.id kind (gs.map Gossip.stateKey)] := by
  rw [sendInventory_snd, hfull]
  cases gs <;> simp [Effects.inventoryTo]

end Answers

/-! ## The four steps -/

section Exchange

variable [MsgHash] (ca cb : SketchCfg V)

def handleInventories (c : SketchCfg V) : List InventoryMsg → Handler V
  | [] => fun n => some (n, {})
  | inv :: rest => (handleInventory c inv).seq (handleInventories c rest)

/-- What the two nodes receive from elsewhere in a pause. -/
structure Pause where
  toA : List (Nat × WireMessage) := []
  toB : List (Nat × WireMessage) := []

/-- No `expect` on a gossip of the pause fails. -/
def Pause.Keyed (p : Pause) : Prop :=
  (∀ g ∈ gossipsOf p.toA, g.key?.isSome) ∧ ∀ g ∈ gossipsOf p.toB, g.key?.isSome

def Pause.run (p : Pause) (na nb : Node) : Option (Node × Node) := do
  let (na, _) ← (ModelCfg.sketch ca).recvAll p.toA na
  let (nb, _) ← (ModelCfg.sketch cb).recvAll p.toB nb
  some (na, nb)

/-- `b` handles `sk` at `t₁`; what it sends reaches `a` at `t₂`, and the answer to
its inventory reaches `b` at `t₃`. -/
def exchange [DecidableEq V] (a b : V) (peerState : V → NodeState) (sk : Sketch) (t₁ t₂ t₃ : Nat)
    (p₁ p₂ p₃ : Pause) (na nb : Node) : Option (Node × Node) := do
  let (nb, answer) ← handleSketch cb peerState sk t₁ nb
  let (na, nb) ← p₁.run ca cb na nb
  let (na, _) ← (ModelCfg.sketch ca).recvAll (answer.batchesTo a t₂) na
  let (na, nb) ← p₂.run ca cb na nb
  let (na, supply) ← handleInventories ca (answer.inventoriesTo a) na
  let (na, nb) ← p₃.run ca cb na nb
  let (nb, _) ← (ModelCfg.sketch cb).recvAll (supply.batchesTo b t₃) nb
  some (na, nb)

end Exchange

/-! ## What the steps do -/

section Steps

variable {ca cb : SketchCfg V}

theorem Keeps.joins {n n' : Node} (h : Keeps n n') : Joins [] n n' ({} : Effects V) where
  view := by rw [Node.view, h.state, joinOf_nil, sup_bot_eq]; rfl
  counted := by simp [h.duplicates]
  recorded := by simp [h.firstSeenPending]
  news _ _ := h.duplicates

theorem Pause.run_joins (ca cb : SketchCfg V) {p : Pause} (hp : p.Keyed) (na nb : Node) :
    ∃ na' nb' ea eb, p.run ca cb na nb = some (na', nb') ∧
      Joins (V := V) (gossipsOf p.toA) na na' ea ∧ Joins (V := V) (gossipsOf p.toB) nb nb' eb := by
  obtain ⟨na', ea, ha, ja⟩ := (ModelCfg.sketch ca).recvAll_joins hp.1 na
  obtain ⟨nb', eb, hb, jb⟩ := (ModelCfg.sketch cb).recvAll_joins hp.2 nb
  exact ⟨na', nb', ea, eb, by simp [run, ha, hb], ja, jb⟩

variable [MsgHash]

/-- The inventories of an answer ask for `keys`; what is held for these is sent. -/
theorem handleInventories_answers [DecidableEq V] {invs : List InventoryMsg} {gs : List Gossip}
    {kind : GossipKind} {loc : Nat} {b : V} (t : Nat)
    (hi : invs = if gs.isEmpty then [] else [InventoryMsg.new cb.id kind (gs.map Gossip.stateKey)])
    (hl : ca.peers.peerIdToLocal.lookup cb.id = some loc) (ho : ca.peers.outputs[loc]? = some b)
    (n : Node) : ∃ n' e, handleInventories ca invs n = some (n', e) ∧ Keeps n n' ∧
      gossipsOf (e.batchesTo b t) = lookupKeys n.state kind (gs.map Gossip.stateKey) := by
  subst hi
  cases gs with
  | nil =>
    refine ⟨n, {}, rfl, .refl n, ?_⟩
    cases kind <;> rfl
  | cons g gs =>
    obtain ⟨n', e, h, hsends⟩ := handleInventory_answers (c := ca) (n := n)
      (.new cb.id kind ((g :: gs).map Gossip.stateKey)) hl ho
    refine ⟨n', e ++ {}, Handler.seq_of_eq h rfl, (handleInventory_keeps h).1, ?_⟩
    rw [Effects.batchesTo, Effects.sends_append, List.append_nil, hsends]
    exact batches_sendGossips _ _

/-- What an exchange does, with what is received elsewhere: `a` takes the reply,
`b` takes what `a` holds for the keys `b` asked for. `s` is `a` at that moment. -/
theorem exchange_spec [DecidableEq V] {a b : V} {peerState : V → NodeState} {sk : Sketch}
    {nb : Node} {diff : DiffResult} {la lb : Nat}
    (hdiff : diff = computeDiff (peerState a) nb.state sk.kind .both)
    (hcap : diff.aOnlyCount + diff.bOnlyCount ≤ sk.capacity)
    (hfull : cb.fullReconciliation = true) (hfrom : sk.fromId = ca.id)
    (hla : cb.peers.peerIdToLocal.lookup ca.id = some la) (hoa : cb.peers.outputs[la]? = some a)
    (hlb : ca.peers.peerIdToLocal.lookup cb.id = some lb) (hob : ca.peers.outputs[lb]? = some b)
    (t₁ t₂ t₃ : Nat) {p₁ p₂ p₃ : Pause} (h₁ : p₁.Keyed) (h₂ : p₂.Keyed) (h₃ : p₃.Keyed)
    (na : Node) : ∃ na' nb' s ea eb es,
      exchange ca cb a b peerState sk t₁ t₂ t₃ p₁ p₂ p₃ na nb = some (na', nb') ∧
      Joins (V := V) (gossipsOf p₁.toA ++ (diff.bNewer ++ gossipsOf p₂.toA)) na s es ∧
      Joins (V := V) (gossipsOf p₁.toA ++ (diff.bNewer ++ gossipsOf p₂.toA) ++ gossipsOf p₃.toA)
        na na' ea ∧
      Joins (V := V) (gossipsOf p₁.toB ++ (gossipsOf p₂.toB ++ gossipsOf p₃.toB) ++
        lookupKeys s.state sk.kind.toGossip (diff.aNewer.map Gossip.stateKey)) nb nb' eb := by
  have hside : diffSide cb = .both := by rw [diffSide, hfull, if_pos rfl]
  obtain ⟨nb₁, answer, hans, hsends⟩ := handleSketch_answers (c := cb) (hside ▸ hdiff) (hfrom ▸ hla)
    hoa hcap t₁
  have hreply : gossipsOf (answer.batchesTo a t₂) = diff.bNewer := by
    rw [Effects.batchesTo, hsends, List.filterMap_append, batches_sendInventory, List.append_nil]
    exact batches_sendGossips _ _
  have hinvs : answer.inventoriesTo a = if diff.aNewer.isEmpty then [] else
      [InventoryMsg.new cb.id sk.kind.toGossip (diff.aNewer.map Gossip.stateKey)] := by
    rw [Effects.inventoriesTo, hsends, List.filterMap_append, inventories_sendGossips,
      List.nil_append, inventories_sendInventory hfull]
  have hkey : ∀ g ∈ gossipsOf (answer.batchesTo a t₂), g.key?.isSome := by
    intro g hg
    rw [hreply, hdiff] at hg
    simp [(newerList_bNewer _ _ _ rfl).key g hg]
  obtain ⟨na₁, nb₂, ea₁, eb₂, hp₁, ja₁, jb₂⟩ := p₁.run_joins ca cb h₁ na nb₁
  obtain ⟨na₂, ea₂, hrep, ja₂⟩ := (ModelCfg.sketch ca).recvAll_joins hkey na₁
  obtain ⟨na₃, nb₃, ea₃, eb₃, hp₂, ja₃, jb₃⟩ := p₂.run_joins ca cb h₂ na₂ nb₂
  obtain ⟨na₄, supply, hinv, hkeep, hsup⟩ := handleInventories_answers t₃ hinvs
    hlb hob na₃
  obtain ⟨na', nb₄, ea₅, eb₄, hp₃, ja₅, jb₄⟩ := p₃.run_joins ca cb h₃ na₄ nb₃
  have hskey : ∀ g ∈ gossipsOf (supply.batchesTo b t₃), g.key?.isSome := by
    rw [hsup]; exact (supplies_lookupKeys _ _ _).keyed
  obtain ⟨nb', eb₅, hfin, jb₅⟩ := (ModelCfg.sketch cb).recvAll_joins hskey nb₄
  rw [hreply] at ja₂
  rw [hsup] at jb₅
  have js := ja₁.append (ja₂.append ja₃)
  refine ⟨na', nb', na₃, _, _, _, ?_, js, js.append (hkeep.joins.append ja₅),
    (((handleSketch_keeps hans).1.joins.append jb₂).append (jb₃.append jb₄)).append jb₅⟩
  simp [exchange, hans, hp₁, hrep, hp₂, hinv, hp₃, hfin]

end Steps

/-! ## The result -/

theorem nodup_slot {gs : List Gossip} (h : (gs.map Gossip.stateKey).Nodup) :
    (gs.map Gossip.slot).Nodup := by
  apply List.Nodup.of_map Prod.snd
  rwa [List.map_map]

section Views

variable {K : GossipKind} {gs xs : List Gossip} {n n' : Node} {e : Effects V}

/-- Who receives the newer list of another view holds at least that view. -/
theorem view_le_of_newerList {new : View} (hj : Joins xs n n' e)
    (hn : NewerList K (n.view K) (new K) gs) (hx : gs ⊆ xs) : new K ≤ n'.view K := by
  calc new K ≤ n.view K ⊔ joinOf gs K := hn.le_sup
    _ ≤ n.view K ⊔ joinOf xs K := sup_le_sup_left (joinOf_mono hx K) _
    _ = n'.view K := by rw [hj.view]; rfl

theorem news_of_newerList {new : Nat → WithBot Nat} (hn : NewerList K (n.view K) new gs) :
    ∀ g ∈ gs, ¬ g.atom ≤ n.view := by
  intro g hg hle
  rw [atom_le_iff, hn.kind g hg] at hle
  exact absurd (hn.newer g hg) (not_lt.2 hle)

variable [MsgHash]

/-- Who receives what a later state holds for the keys it misses holds at least
the earlier one. -/
theorem view_le_of_supplies {s : Node} {old new : View} (hj : Joins xs n n' e)
    (hn : NewerList K (old K) (new K) gs) (hold : old ≤ n.view) (hs : new ≤ s.view)
    (hx : lookupKeys s.state K (gs.map Gossip.stateKey) ⊆ xs) : new K ≤ n'.view K := by
  intro k
  rw [hj.view]
  rcases lt_or_ge (old K k) (new K k) with hlt | hge
  · obtain ⟨g, hg, rfl⟩ := hn.complete k hlt
    calc new K g.stateKey ≤ s.view K g.stateKey := hs K g.stateKey
      _ ≤ joinOf (lookupKeys s.state K (gs.map Gossip.stateKey)) K g.stateKey :=
        (supplies_lookupKeys _ _ _).view_le _ (List.mem_map_of_mem hg)
      _ ≤ joinOf xs K g.stateKey := joinOf_mono hx K g.stateKey
      _ ≤ (n.view ⊔ joinOf xs) K g.stateKey := le_sup_right
  · calc new K k ≤ n.view K k := hge.trans (hold K k)
      _ ≤ (n.view ⊔ joinOf xs) K k := le_sup_left

/-- What is looked up for missing keys is news. -/
theorem news_of_supplies {s : Node} {new : View} (hn : NewerList K (n.view K) (new K) gs)
    (hs : new ≤ s.view) :
    ∀ g ∈ lookupKeys s.state K (gs.map Gossip.stateKey), ¬ g.atom ≤ n.view := by
  intro g hg hle
  have sup := supplies_lookupKeys s.state K (gs.map Gossip.stateKey)
  obtain ⟨h, hh, hk⟩ := List.mem_map.1 (sup.stateKey g hg)
  rw [atom_le_iff, sup.kind g hg, ← sup.held g hg, ← hk] at hle
  refine absurd (hn.newer h hh) (not_lt.2 ?_)
  calc WithBot.some h.stamp = new K h.stateKey := (hn.held h hh).symm
    _ ≤ s.view K h.stateKey := hs K _
    _ ≤ n.view K h.stateKey := hle

end Views

section Result

variable [DecidableEq V] [MsgHash]

/-- Between neighbouring sketch nodes an undisturbed exchange within capacity
brings both to the join of their views of the kind, without duplicates, so that
nothing differs any more; a disturbed one loses nothing and brings each to at
least what the other held at first. -/
theorem exchange_reaches_join {w : Network V} {a b : V} {ca cb : SketchCfg V}
    (ha : w.model a = .sketch ca) (hb : w.model b = .sketch cb) (hab : w.edge a b)
    (hfull : cb.fullReconciliation = true) {sk : Sketch} (hfrom : sk.fromId = ca.id)
    {peerState : V → NodeState} {na nb : Node} (hpeer : peerState a = na.state)
    (hcap : (computeDiff na.state nb.state sk.kind .both).aOnlyCount +
      (computeDiff na.state nb.state sk.kind .both).bOnlyCount ≤ sk.capacity) (t₁ t₂ t₃ : Nat) :
    (∃ na' nb', exchange ca cb a b peerState sk t₁ t₂ t₃ {} {} {} na nb = some (na', nb') ∧
      na'.view sk.kind.toGossip = na.view sk.kind.toGossip ⊔ nb.view sk.kind.toGossip ∧
      nb'.view sk.kind.toGossip = na.view sk.kind.toGossip ⊔ nb.view sk.kind.toGossip ∧
      na'.metricsLocal.duplicates = na.metricsLocal.duplicates ∧
      nb'.metricsLocal.duplicates = nb.metricsLocal.duplicates ∧
      ∀ which, (computeDiff na'.state nb'.state sk.kind which).aOnlyCount = 0 ∧
        (computeDiff na'.state nb'.state sk.kind which).bOnlyCount = 0) ∧
    ∀ p₁ p₂ p₃ : Pause, p₁.Keyed → p₂.Keyed → p₃.Keyed →
      ∃ na' nb', exchange ca cb a b peerState sk t₁ t₂ t₃ p₁ p₂ p₃ na nb = some (na', nb') ∧
        na.view ≤ na'.view ∧ nb.view ≤ nb'.view ∧
        nb.view sk.kind.toGossip ≤ na'.view sk.kind.toGossip ∧
        na.view sk.kind.toGossip ≤ nb'.view sk.kind.toGossip := by
  have hida : (w.model a).base.id = ca.id := by rw [ha]; rfl
  have hidb : (w.model b).base.id = cb.id := by rw [hb]; rfl
  obtain ⟨la, hla, hoa⟩ := w.lookup_peer (w.edge_symm hab)
  obtain ⟨lb, hlb, hob⟩ := w.lookup_peer hab
  rw [← w.id_eq, hida, hb] at hla
  rw [hb] at hoa
  rw [← w.id_eq, hidb, ha] at hlb
  rw [ha] at hob
  generalize hK : sk.kind.toGossip = K
  obtain ⟨diff, hdiff⟩ : ∃ d, d = computeDiff na.state nb.state sk.kind .both := ⟨_, rfl⟩
  rw [← hdiff] at hcap
  have hnew : NewerList K (na.view K) (nb.view K) diff.bNewer := by
    rw [hdiff, ← hK]; exact newerList_bNewer _ _ _ rfl
  have hold : NewerList K (nb.view K) (na.view K) diff.aNewer := by
    rw [hdiff, ← hK]; exact newerList_aNewer _ _ _ rfl
  have hspec := fun p₁ p₂ p₃ (h₁ : Pause.Keyed p₁) (h₂ : Pause.Keyed p₂) (h₃ : Pause.Keyed p₃) =>
    exchange_spec (hpeer ▸ hdiff) hcap hfull hfrom hla hoa hlb hob t₁ t₂ t₃ h₁ h₂ h₃ na
  rw [hK] at hspec
  constructor
  · obtain ⟨na', nb', s, ea, eb, es, hrun, js, ja, jb⟩ := hspec {} {} {}
      ⟨by simp [gossipsOf], by simp [gossipsOf]⟩ ⟨by simp [gossipsOf], by simp [gossipsOf]⟩
      ⟨by simp [gossipsOf], by simp [gossipsOf]⟩
    simp only [show gossipsOf [] = [] from rfl, List.nil_append, List.append_nil] at js ja jb
    have sup := supplies_lookupKeys s.state K (diff.aNewer.map Gossip.stateKey)
    have hs : na.view ≤ s.view := js.view ▸ le_sup_left
    have hjoin : s.view ≤ na.view ⊔ nb.view := js.view ▸ sup_le_sup_left hnew.joinOf_le _
    have hva : na'.view K = na.view K ⊔ nb.view K := by
      refine le_antisymm ?_ (sup_le ?_ (view_le_of_newerList ja hnew fun _ hg => hg))
      · rw [ja.view]
        exact (sup_le_sup_left hnew.joinOf_le na.view) K
      · rw [ja.view]
        exact (le_sup_left : na.view ≤ na.view ⊔ joinOf diff.bNewer) K
    have hvb : nb'.view K = na.view K ⊔ nb.view K := by
      refine le_antisymm ?_ (sup_le (view_le_of_supplies jb hold le_rfl hs fun _ hg => hg) ?_)
      · rw [jb.view]
        exact (sup_le le_sup_right (sup.le_view.trans hjoin)) K
      · rw [jb.view]
        exact (le_sup_left : nb.view ≤ nb.view ⊔ _) K
    refine ⟨na', nb', hrun, hva, hvb, ja.news (nodup_slot hnew.nodup) (news_of_newerList hnew),
      jb.news (nodup_slot (sup.nodup hold.nodup)) (news_of_supplies hold hs), fun which => ?_⟩
    rw [computeDiff_counts_eq_zero, hK]
    exact hva.trans hvb.symm
  · intro p₁ p₂ p₃ h₁ h₂ h₃
    obtain ⟨na', nb', s, ea, eb, es, hrun, js, ja, jb⟩ := hspec p₁ p₂ p₃ h₁ h₂ h₃
    refine ⟨na', nb', hrun, ja.view ▸ le_sup_left, jb.view ▸ le_sup_left,
      view_le_of_newerList ja hnew ?_,
      view_le_of_supplies jb hold le_rfl (js.view ▸ le_sup_left) ?_⟩
    · intro g hg; simp [hg]
    · intro g hg; simp [hg]

end Result

section Sample

local instance exchangeHash : MsgHash := ⟨List.sum⟩

/-- A node that heard one update of channel 7 at time `ts`. -/
def heardAt (idx : NodeIdx) (direction ts : Nat) : Node :=
  { state := { NodeState.new idx with
      chanUpdates := (∅ : ChanUpdatesMap).insert (packCuKey 7 direction) (ts, 130)
      key_lt := insert_key_lt (by simp) 7 direction } }

def sampleSketch : Sketch := ⟨1, 0, .chanUpdates, 16, 128⟩

def sampleCfg (v : Fin 2) : SketchCfg (Fin 2) := plainSketch ((sketchPair 16).model v).base 16

def sampleStates (_ : Fin 2) : NodeState := (heardAt 0 0 5).state

/-- Each node knows one direction of the channel; both end with both. -/
theorem exchange_reaches_join_pair : ∃ na' nb',
    exchange (sampleCfg 0) (sampleCfg 1) 0 1 sampleStates sampleSketch 10 20 30
      {} {} {} (heardAt 0 0 5) (heardAt 1 1 9) = some (na', nb') ∧
    na'.view .channelUpdate =
      (heardAt 0 0 5).view .channelUpdate ⊔ (heardAt 1 1 9).view .channelUpdate ∧
    nb'.view .channelUpdate = na'.view .channelUpdate := by
  have hpeer : sampleStates 0 = (heardAt 0 0 5).state := rfl
  have hcap :
      (computeDiff (heardAt 0 0 5).state (heardAt 1 1 9).state sampleSketch.kind .both).aOnlyCount +
      (computeDiff (heardAt 0 0 5).state (heardAt 1 1 9).state sampleSketch.kind .both).bOnlyCount ≤
        sampleSketch.capacity := by
    decide +kernel
  obtain ⟨na', nb', hrun, hva, hvb, -⟩ := (exchange_reaches_join
    (w := sketchPair 16) (a := 0) (b := 1)
    (show _ = ModelCfg.sketch (sampleCfg 0) from rfl)
    (show _ = ModelCfg.sketch (sampleCfg 1) from rfl) (List.mem_singleton.2 (by decide)) rfl rfl hpeer hcap 10 20 30).1
  exact ⟨na', nb', hrun, hva, hvb.trans hva.symm⟩

end Sample

end SketchNode

end LnConv
