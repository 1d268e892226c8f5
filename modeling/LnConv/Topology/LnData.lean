import LnConv.State
import Mathlib.Data.List.Nodup

/-!
# Snapshots from CSV files

A snapshot names nodes by pubkey and channels by a decimal SCID. The loader hashes both and
refuses two strings with one hash. A file is what the CSV reader yields: an error on opening
it, or its records, each of them a row or a parse error.
-/

namespace LnConv

/-- `xxhash3_64` with a seed over the bytes of a string: any function. -/
class IdHash where
  oneshotWithSeed : Nat → String → Nat

def NODE_SUBSEED : Nat := 0x4E4F44455F535542

def SCID_SUBSEED : Nat := 0x534349445F535542

def hashPubkey [IdHash] (seed : Nat) (pubkey : String) : NodeId :=
  IdHash.oneshotWithSeed (seed ^^^ NODE_SUBSEED) pubkey

/-- The top bit is masked, so that the packed key of a channel keeps its SCID. -/
def hashScidString [IdHash] (seed : Nat) (scidStr : String) : Scid :=
  IdHash.oneshotWithSeed (seed ^^^ SCID_SUBSEED) scidStr &&& 0x7FFFFFFFFFFFFFFF

theorem hashScidString_lt [IdHash] (seed : Nat) (s : String) : hashScidString seed s < 2 ^ 63 :=
  Nat.lt_of_le_of_lt Nat.and_le_right (by decide)

structure NodeRow where
  pubkey : String

structure ChannelRow where
  scid : String
  node1 : String
  node2 : String

structure CsvFile (R : Type) where
  path : String
  records : Except String (List (Except String R))

inductive LoadError where
  | io (path source : String)
  | csv (path source : String)
  | pubkeyHashCollision (a b : String) (seed : Nat)
  | scidHashCollision (a b : String) (seed : Nat)
  | unknownPubkey (path : String) (row : Nat) (pubkey : String)

structure LnSnapshot where
  nodes : List NodeId
  channels : List (Scid × NodeId × NodeId)
  pubkeyOf : IntMap String

/-- The rows of the records that are no errors. -/
def okRows {R : Type} (records : List (Except String R)) : List R :=
  records.filterMap Except.toOption

def CsvFile.rows {R : Type} (f : CsvFile R) : List R :=
  match f.records with
  | .ok records => okRows records
  | .error _ => []

namespace LnData

/-- The other string that is known under the hash. -/
def collision (seen : IntMap String) (hash : Nat) (s : String) : Option String :=
  (seen.lookup hash).filter (· != s)

def openCsv {R : Type} (f : CsvFile R) : Except LoadError (List (Except String R)) :=
  f.records.mapError (.io f.path)

structure NodeTable where
  nodes : List NodeId
  pubkeyOf : IntMap String
  pubkeyToId : AList fun _ : String => NodeId

structure ChannelTable where
  channels : List (Scid × NodeId × NodeId)
  scidSeen : IntMap String

section Load

variable [IdHash] (seed : Nat)

/-- A pubkey that was listed before is skipped. -/
def loadNode (path : String) (s : NodeTable) (record : Except String NodeRow) :
    Except LoadError NodeTable := do
  let row ← record.mapError (.csv path)
  let id := hashPubkey seed row.pubkey
  match collision s.pubkeyOf id row.pubkey with
  | some existing => .error (.pubkeyHashCollision existing row.pubkey seed)
  | none =>
    let pubkeyToId := s.pubkeyToId.insert row.pubkey id
    if (s.pubkeyToId.lookup row.pubkey).isNone then
      .ok ⟨s.nodes ++ [id], s.pubkeyOf.insert id row.pubkey, pubkeyToId⟩
    else .ok { s with pubkeyToId := pubkeyToId }

/-- The row number counts from 1 and includes the header. -/
def resolve (path : String) (pubkeyToId : AList fun _ : String => NodeId) (rowIdx : Nat)
    (pubkey : String) : Except LoadError NodeId :=
  match pubkeyToId.lookup pubkey with
  | some id => .ok id
  | none => .error (.unknownPubkey path (rowIdx + 2) pubkey)

/-- A channel of a node with itself is skipped. -/
def loadChannel (path : String) (pubkeyToId : AList fun _ : String => NodeId) (s : ChannelTable)
    (x : Except String ChannelRow × Nat) : Except LoadError ChannelTable := do
  let row ← x.1.mapError (.csv path)
  let scid := hashScidString seed row.scid
  match collision s.scidSeen scid row.scid with
  | some existing => .error (.scidHashCollision existing row.scid seed)
  | none =>
    let scidSeen := s.scidSeen.insert scid row.scid
    let n1 ← resolve path pubkeyToId x.2 row.node1
    let n2 ← resolve path pubkeyToId x.2 row.node2
    .ok ⟨if n1 ≠ n2 then s.channels ++ [(scid, n1, n2)] else s.channels, scidSeen⟩

def load (nodesCsv : CsvFile NodeRow) (channelsCsv : CsvFile ChannelRow) :
    Except LoadError LnSnapshot := do
  let nodeRecords ← openCsv nodesCsv
  let table ← nodeRecords.foldlM (loadNode seed nodesCsv.path) ⟨[], ∅, ∅⟩
  let channelRecords ← openCsv channelsCsv
  let channels ← channelRecords.zipIdx.foldlM
    (loadChannel seed channelsCsv.path table.pubkeyToId) ⟨[], ∅⟩
  .ok ⟨table.nodes, channels.channels, table.pubkeyOf⟩

end Load

/-! ## What loading keeps -/

theorem bind_eq_ok {E α β : Type} {x : Except E α} {f : α → Except E β} {b : β} :
    (x >>= f) = .ok b ↔ ∃ a, x = .ok a ∧ f a = .ok b := by
  cases x with
  | error e => exact ⟨nofun, fun ⟨_, h, _⟩ => nomatch h⟩
  | ok a =>
    constructor
    · exact fun h => ⟨a, rfl, h⟩
    · rintro ⟨_, ⟨⟩, hf⟩; exact hf

theorem mapError_eq_ok {E E' α : Type} {x : Except E α} {f : E → E'} {a : α} :
    x.mapError f = .ok a ↔ x = .ok a := by
  cases x <;> simp [Except.mapError]

theorem foldlM_concat_ok {E S α : Type} {f : S → α → Except E S} {l : List α} {x : α} {s r : S} :
    (l ++ [x]).foldlM f s = .ok r ↔ ∃ t, l.foldlM f s = .ok t ∧ f t x = .ok r := by
  rw [List.foldlM_append, bind_eq_ok]
  refine exists_congr fun t => and_congr_right fun _ => ?_
  rw [List.foldlM_cons, bind_eq_ok]
  exact ⟨fun ⟨_, h, hr⟩ => by cases hr; exact h, fun h => ⟨r, h, rfl⟩⟩

theorem okRows_concat {R : Type} (l : List (Except String R)) (r : R) :
    okRows (l ++ [.ok r]) = okRows l ++ [r] := by
  simp [okRows, Except.toOption]

/-- No other string has the hash. -/
theorem lookup_of_collision {seen : IntMap String} {hash : Nat} {s x : String}
    (h : collision seen hash s = none) (hx : seen.lookup hash = some x) : x = s := by
  simpa [collision, hx] using h

section Spec

variable [IdHash] {seed : Nat} {path : String}

/-- The pubkeys listed so far, each once and with its own hash. -/
structure NodesLoaded (seed : Nat) (pubkeys : List String) (s : NodeTable) : Prop where
  nodup : s.nodes.Nodup
  mem_nodes : ∀ id, id ∈ s.nodes ↔ ∃ p ∈ pubkeys, hashPubkey seed p = id
  pubkeyOf : ∀ id p, s.pubkeyOf.lookup id = some p ↔ p ∈ pubkeys ∧ hashPubkey seed p = id
  pubkeyToId : ∀ p id, s.pubkeyToId.lookup p = some id ↔ p ∈ pubkeys ∧ hashPubkey seed p = id

theorem NodesLoaded.hash_inj {pubkeys : List String} {s : NodeTable}
    (h : NodesLoaded seed pubkeys s) {p q : String} (hp : p ∈ pubkeys) (hq : q ∈ pubkeys)
    (he : hashPubkey seed p = hashPubkey seed q) : p = q :=
  Option.some_inj.1 (((h.pubkeyOf _ p).2 ⟨hp, he⟩).symm.trans ((h.pubkeyOf _ q).2 ⟨hq, rfl⟩))

theorem NodesLoaded.step {pubkeys : List String} {s s' : NodeTable} {record : Except String NodeRow}
    (h : NodesLoaded seed pubkeys s) (hs : loadNode seed path s record = .ok s') :
    ∃ row, record = .ok row ∧ NodesLoaded seed (pubkeys ++ [row.pubkey]) s' := by
  obtain ⟨row, hr, hs⟩ := bind_eq_ok.1 hs
  refine ⟨row, mapError_eq_ok.1 hr, ?_⟩
  dsimp only at hs
  split at hs
  · cases hs
  next hcol =>
  have hother : ∀ p ∈ pubkeys, hashPubkey seed p = hashPubkey seed row.pubkey → p = row.pubkey :=
    fun p hp he => lookup_of_collision hcol ((h.pubkeyOf _ p).2 ⟨hp, he⟩)
  have hids : ∀ p id, (s.pubkeyToId.insert row.pubkey (hashPubkey seed row.pubkey)).lookup p = some id ↔
      p ∈ pubkeys ++ [row.pubkey] ∧ hashPubkey seed p = id := by
    intro p id
    rw [List.mem_append, List.mem_singleton]
    by_cases hp : p = row.pubkey
    · subst hp; simp
    · rw [AList.lookup_insert_ne hp, h.pubkeyToId]
      simp [hp]
  split at hs
  · next hnew =>
    cases hs
    have hnone : s.pubkeyToId.lookup row.pubkey = none := by simpa using hnew
    have hfresh : row.pubkey ∉ pubkeys := fun hm => by
      rw [(h.pubkeyToId _ _).2 ⟨hm, rfl⟩] at hnone
      cases hnone
    have hid : hashPubkey seed row.pubkey ∉ s.nodes := by
      rw [h.mem_nodes]
      rintro ⟨p, hp, he⟩
      exact hfresh (hother p hp he ▸ hp)
    refine ⟨?_, fun id => ?_, fun id p => ?_, hids⟩
    · exact List.nodup_append.2 ⟨h.nodup, List.nodup_singleton _, fun a ha b hb => by
        rw [List.mem_singleton.1 hb]; exact fun he => hid (he ▸ ha)⟩
    · simp only [List.mem_append, List.mem_singleton, h.mem_nodes, or_and_right, exists_or,
        exists_eq_left, eq_comm]
    · rw [List.mem_append, List.mem_singleton]
      by_cases hi : id = hashPubkey seed row.pubkey
      · subst hi
        rw [AList.lookup_insert, Option.some.injEq]
        constructor
        · rintro rfl; exact ⟨.inr rfl, rfl⟩
        · rintro ⟨hp | rfl, he⟩
          · exact (hother p hp he).symm
          · rfl
      · rw [AList.lookup_insert_ne hi, h.pubkeyOf]
        refine and_congr_left fun he => ⟨.inl, fun hp => hp.resolve_right ?_⟩
        rintro rfl
        exact hi he.symm
  · next hold =>
    cases hs
    obtain ⟨id, hid⟩ := Option.ne_none_iff_exists'.1
      (by simpa using hold : ¬ s.pubkeyToId.lookup row.pubkey = none)
    have hmem : row.pubkey ∈ pubkeys := ((h.pubkeyToId _ _).1 hid).1
    have hsame : ∀ p, p ∈ pubkeys ++ [row.pubkey] ↔ p ∈ pubkeys := by
      intro p
      rw [List.mem_append, List.mem_singleton]
      exact ⟨fun hp => hp.elim (fun hp => hp) fun he => he ▸ hmem, .inl⟩
    exact ⟨h.nodup, fun id => by simp only [hsame, h.mem_nodes], fun id p => by rw [hsame, h.pubkeyOf],
      hids⟩

theorem nodesLoaded_loop (records : List (Except String NodeRow)) {s : NodeTable}
    (h : records.foldlM (loadNode seed path) ⟨[], ∅, ∅⟩ = .ok s) :
    NodesLoaded seed ((okRows records).map NodeRow.pubkey) s := by
  induction records using List.reverseRecOn generalizing s with
  | nil => cases h; exact ⟨.nil, by simp [okRows], by simp [okRows], by simp [okRows]⟩
  | append_singleton records record ih =>
    obtain ⟨t, ht, hs⟩ := foldlM_concat_ok.1 h
    obtain ⟨row, rfl, hl⟩ := (ih ht).step hs
    rw [okRows_concat, List.map_append]
    exact hl

/-- The channel that a row describes. -/
def channelOf (seed : Nat) (row : ChannelRow) : Scid × NodeId × NodeId :=
  (hashScidString seed row.scid, hashPubkey seed row.node1, hashPubkey seed row.node2)

/-- The rows that are no self-loops. -/
def channelRows (rows : List ChannelRow) : List ChannelRow :=
  rows.filter fun row => row.node1 ≠ row.node2

/-- The channel rows read so far: their SCIDs have their own hashes, their nodes are listed. -/
structure ChannelsLoaded (seed : Nat) (pubkeys : List String) (rows : List ChannelRow)
    (s : ChannelTable) : Prop where
  scidSeen : ∀ hash x, s.scidSeen.lookup hash = some x ↔
    (∃ row ∈ rows, row.scid = x) ∧ hashScidString seed x = hash
  known : ∀ row ∈ rows, row.node1 ∈ pubkeys ∧ row.node2 ∈ pubkeys
  channels : s.channels = (channelRows rows).map (channelOf seed)

theorem ChannelsLoaded.hash_inj {pubkeys : List String} {rows : List ChannelRow} {s : ChannelTable}
    (h : ChannelsLoaded seed pubkeys rows s) {r r' : ChannelRow} (hr : r ∈ rows) (hr' : r' ∈ rows)
    (he : hashScidString seed r.scid = hashScidString seed r'.scid) : r.scid = r'.scid :=
  Option.some_inj.1 (((h.scidSeen _ _).2 ⟨⟨r, hr, rfl⟩, he⟩).symm.trans
    ((h.scidSeen _ _).2 ⟨⟨r', hr', rfl⟩, rfl⟩))

theorem resolve_eq_ok {pubkeys : List String} {t : NodeTable} (ht : NodesLoaded seed pubkeys t)
    {rowIdx : Nat} {p : String} {id : NodeId} (h : resolve path t.pubkeyToId rowIdx p = .ok id) :
    p ∈ pubkeys ∧ hashPubkey seed p = id := by
  unfold resolve at h
  split at h
  · next hl => cases h; exact (ht.pubkeyToId _ _).1 hl
  · cases h

theorem ChannelsLoaded.step {pubkeys : List String} {t : NodeTable} {rows : List ChannelRow}
    {s s' : ChannelTable} {x : Except String ChannelRow × Nat} (ht : NodesLoaded seed pubkeys t)
    (h : ChannelsLoaded seed pubkeys rows s)
    (hs : loadChannel seed path t.pubkeyToId s x = .ok s') :
    ∃ row, x.1 = .ok row ∧ ChannelsLoaded seed pubkeys (rows ++ [row]) s' := by
  obtain ⟨row, hr, hs⟩ := bind_eq_ok.1 hs
  refine ⟨row, mapError_eq_ok.1 hr, ?_⟩
  dsimp only at hs
  split at hs
  · cases hs
  next hcol =>
  obtain ⟨n1, h1, hs⟩ := bind_eq_ok.1 hs
  obtain ⟨n2, h2, hs⟩ := bind_eq_ok.1 hs
  cases hs
  obtain ⟨hk1, rfl⟩ := resolve_eq_ok ht h1
  obtain ⟨hk2, rfl⟩ := resolve_eq_ok ht h2
  refine ⟨fun hash y => ?_, fun r hm => ?_, ?_⟩
  · by_cases hi : hash = hashScidString seed row.scid
    · subst hi
      rw [AList.lookup_insert, Option.some.injEq]
      constructor
      · rintro rfl
        exact ⟨⟨row, List.mem_append_right _ (List.mem_singleton.2 rfl), rfl⟩, rfl⟩
      · rintro ⟨⟨r, hm, rfl⟩, he⟩
        rcases List.mem_append.1 hm with hm | hm
        · exact (lookup_of_collision hcol ((h.scidSeen _ _).2 ⟨⟨r, hm, rfl⟩, he⟩)).symm
        · rw [List.mem_singleton.1 hm]
    · rw [AList.lookup_insert_ne hi, h.scidSeen]
      refine and_congr_left fun he => ⟨fun ⟨r, hm, hx⟩ => ⟨r, List.mem_append_left _ hm, hx⟩, ?_⟩
      rintro ⟨r, hm, rfl⟩
      rcases List.mem_append.1 hm with hm | hm
      · exact ⟨r, hm, rfl⟩
      · rw [List.mem_singleton.1 hm] at he
        exact absurd he.symm hi
  · rcases List.mem_append.1 hm with hm | hm
    · exact h.known r hm
    · rw [List.mem_singleton.1 hm]
      exact ⟨hk1, hk2⟩
  · -- distinct listed pubkeys have distinct hashes
    have hself : hashPubkey seed row.node1 = hashPubkey seed row.node2 ↔ row.node1 = row.node2 :=
      ⟨ht.hash_inj hk1 hk2, congrArg _⟩
    by_cases hn : row.node1 = row.node2
    · simp [channelRows, hn, h.channels]
    · simp [channelRows, hn, hself, h.channels, channelOf]

theorem channelsLoaded_loop {pubkeys : List String} {t : NodeTable} (ht : NodesLoaded seed pubkeys t)
    (records : List (Except String ChannelRow)) {s : ChannelTable}
    (h : records.zipIdx.foldlM (loadChannel seed path t.pubkeyToId) ⟨[], ∅⟩ = .ok s) :
    ChannelsLoaded seed pubkeys (okRows records) s := by
  induction records using List.reverseRecOn generalizing s with
  | nil => cases h; exact ⟨by simp [okRows], by simp [okRows], rfl⟩
  | append_singleton records record ih =>
    rw [List.zipIdx_append, List.zipIdx_singleton] at h
    obtain ⟨u, hu, hs⟩ := foldlM_concat_ok.1 h
    obtain ⟨row, hrow, hl⟩ := (ih hu).step ht hs
    rw [show record = .ok row from hrow, okRows_concat]
    exact hl

/-- What an accepted pair of files is loaded as. -/
structure Loaded (seed : Nat) (nodesCsv : CsvFile NodeRow) (channelsCsv : CsvFile ChannelRow)
    (snap : LnSnapshot) : Prop where
  nodup : snap.nodes.Nodup
  mem_nodes : ∀ id, id ∈ snap.nodes ↔ ∃ row ∈ nodesCsv.rows, hashPubkey seed row.pubkey = id
  channels : snap.channels = (channelRows channelsCsv.rows).map (channelOf seed)
  endpoints : ∀ c ∈ snap.channels, c.2.1 ∈ snap.nodes ∧ c.2.2 ∈ snap.nodes ∧ c.2.1 ≠ c.2.2
  scid_inj : ∀ r ∈ channelsCsv.rows, ∀ r' ∈ channelsCsv.rows,
    hashScidString seed r.scid = hashScidString seed r'.scid → r.scid = r'.scid

theorem load_spec {nodesCsv : CsvFile NodeRow} {channelsCsv : CsvFile ChannelRow} {snap : LnSnapshot}
    (h : load seed nodesCsv channelsCsv = .ok snap) : Loaded seed nodesCsv channelsCsv snap := by
  obtain ⟨nodeRecords, hn, h⟩ := bind_eq_ok.1 h
  obtain ⟨t, ht, h⟩ := bind_eq_ok.1 h
  obtain ⟨channelRecords, hc, h⟩ := bind_eq_ok.1 h
  obtain ⟨s, hs, h⟩ := bind_eq_ok.1 h
  cases h
  have hnl := nodesLoaded_loop nodeRecords ht
  have hcl := channelsLoaded_loop hnl channelRecords hs
  have hnrows : nodesCsv.rows = okRows nodeRecords := by
    rw [CsvFile.rows, mapError_eq_ok.1 hn]
  have hcrows : channelsCsv.rows = okRows channelRecords := by
    rw [CsvFile.rows, mapError_eq_ok.1 hc]
  refine ⟨hnl.nodup, fun id => ?_, by rw [hcl.channels, hcrows], fun c hm => ?_, ?_⟩
  · rw [hnl.mem_nodes, hnrows]
    simp only [List.mem_map, exists_exists_and_eq_and]
  · rw [hcl.channels] at hm
    obtain ⟨row, hrow, rfl⟩ := List.mem_map.1 hm
    obtain ⟨hrow, hne⟩ := List.mem_filter.1 hrow
    obtain ⟨hk1, hk2⟩ := hcl.known row hrow
    exact ⟨(hnl.mem_nodes _).2 ⟨_, hk1, rfl⟩, (hnl.mem_nodes _).2 ⟨_, hk2, rfl⟩,
      fun he => (of_decide_eq_true hne) (hnl.hash_inj hk1 hk2 he)⟩
  · intro r hr r' hr'
    exact hcl.hash_inj (hcrows ▸ hr) (hcrows ▸ hr')

/-- The SCIDs of the channels are those of the rows, one hash for each string. -/
theorem Loaded.nodup_scids {nodesCsv : CsvFile NodeRow} {channelsCsv : CsvFile ChannelRow}
    {snap : LnSnapshot} (h : Loaded seed nodesCsv channelsCsv snap) :
    (snap.channels.map Prod.fst).Nodup ↔
      ((channelRows channelsCsv.rows).map ChannelRow.scid).Nodup := by
  have hmap : snap.channels.map Prod.fst =
      ((channelRows channelsCsv.rows).map ChannelRow.scid).map (hashScidString seed) := by
    rw [h.channels, List.map_map, List.map_map]
    rfl
  rw [hmap]
  refine ⟨List.Nodup.of_map _, fun hn => hn.map_on fun x hx y hy he => ?_⟩
  obtain ⟨r, hr, rfl⟩ := List.mem_map.1 hx
  obtain ⟨r', hr', rfl⟩ := List.mem_map.1 hy
  exact h.scid_inj r (List.mem_filter.1 hr).1 r' (List.mem_filter.1 hr').1 he

end Spec

end LnData

end LnConv
