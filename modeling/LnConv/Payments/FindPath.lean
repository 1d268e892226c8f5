import LnConv.Payments.Graph
import LnConv.Lib.SortedMap

/-!
# The search for a payment path

The search starts at the destination and visits the nodes in the order of their distance, until
it visits the source. `none` is a panic of the source.
-/

namespace LnConv.Payments

abbrev ChannelWeight := UInt64

def infinityWeight : ChannelWeight := .ofNat (2 ^ 64 - 1)

def ChannelWeight.add (w o : ChannelWeight) : ChannelWeight :=
  if w = infinityWeight ∨ o = infinityWeight then infinityWeight else w + o

def edgeWeight (lockedAmt fee : UInt64) (timeLockDelta : UInt16) : ChannelWeight :=
  let timeLockPenalty := lockedAmt * timeLockDelta.toUInt64 * 15 / 1000000000
  ChannelWeight.add fee timeLockPenalty

structure PaymentPath (n : Nat) where
  src : Fin n
  dst : Fin n
  hops : List (GraphChannel n)
  aggWeight : ChannelWeight
  aggAmt : UInt64
  aggTime : UInt16
  amounts : List UInt64
  times : List UInt16

def newPaymentPath {n : Nat} (amt : UInt64) (src dst : Fin n) : PaymentPath n where
  src := src
  dst := dst
  hops := []
  aggWeight := 0
  aggAmt := amt
  aggTime := 0
  amounts := []
  times := []

/-- The channel comes before the first hop, which has to have an endpoint in common with it. -/
def PaymentPath.addHop {n : Nat} (p : PaymentPath n) (c : GraphChannel n) (aggAmount : UInt64)
    (aggTime : UInt16) : Option (PaymentPath n) :=
  let p := { p with amounts := aggAmount :: p.amounts, times := aggTime :: p.times }
  match p.hops with
  | [] => some { p with hops := [c] }
  | front :: _ =>
    if front.node1 = c.node1 ∨ front.node1 = c.node2 ∨ front.node2 = c.node1 ∨
        front.node2 = c.node2 then
      some { p with hops := c :: p.hops }
    else none

theorem PaymentPath.addHop_eq {n : Nat} {p : PaymentPath n} {c : GraphChannel n} {u v : Fin n}
    (hc : c.Joins v u) (h : ∀ front, p.hops.head? = some front → ∃ w, front.Joins u w)
    (aggAmount : UInt64) (aggTime : UInt16) :
    p.addHop c aggAmount aggTime = some { p with
      hops := c :: p.hops, amounts := aggAmount :: p.amounts, times := aggTime :: p.times } := by
  unfold addHop
  dsimp only
  split
  · next hp => rw [hp]
  · next front hops hp =>
    obtain ⟨w, hw⟩ := h front (by rw [hp]; rfl)
    rw [if_pos]
    rcases hc with ⟨-, rfl⟩ | ⟨rfl, -⟩
    · rcases hw with ⟨hu, -⟩ | ⟨-, hu⟩
      · exact .inr (.inl hu)
      · exact .inr (.inr (.inr hu))
    · rcases hw with ⟨hu, -⟩ | ⟨-, hu⟩
      · exact .inl hu
      · exact .inr (.inr (.inl hu))

/-- The nodes to visit, by their distance. -/
abbrev DistanceMap (n : Nat) := SortedMap UInt64 (List (Fin n))

namespace DistanceMap

variable {n : Nat} (m : DistanceMap n)

/-- Only the least key can be deleted. -/
def delete (key : UInt64) : Option (DistanceMap n) :=
  if m.keys.head? = some key then some m.tail else none

def nextToVisit : Option (Option (Fin n) × DistanceMap n) :=
  match m.keys with
  | [] => some (none, m)
  | w :: _ =>
    match m.get w with
    | none => none
    | some [] => none
    | some (next :: l) =>
      let m := m.put w l
      if l.isEmpty then (delete m w).map fun m => (some next, m) else some (some next, m)

/-- The node is appended to the list of its distance. -/
def push (weight : UInt64) (node : Fin n) : DistanceMap n :=
  match m.get weight with
  | some l => m.put weight (l ++ [node])
  | none => m.put weight [node]

/-- All nodes of the map, in the order in which they are taken from it. -/
def queue : List (Fin n) := m.entries.flatMap Prod.snd

/-- No list of the map is empty. -/
def Filled : Prop := ∀ e ∈ m.entries, e.2 ≠ []

variable {m}

/-- The first node of the least key is next, and a list that it leaves empty goes with its key. -/
theorem nextToVisit_entries (h : m.Filled) :
    m.entries = [] ∧ m.nextToVisit = some (none, m) ∨
      ∃ w v l entries m', m.entries = (w, v :: l) :: entries ∧ m.nextToVisit = some (some v, m') ∧
        m'.entries = if l = [] then entries else (w, l) :: entries := by
  cases he : m.entries with
  | nil =>
    left
    unfold nextToVisit SortedMap.keys
    rw [he]
    exact ⟨rfl, rfl⟩
  | cons e entries =>
    obtain ⟨w, nodes⟩ := e
    have hkeys : m.keys = w :: entries.map Prod.fst := by rw [SortedMap.keys, he]; rfl
    have hget : m.get w = some nodes := by rw [SortedMap.get, he, List.lookup_cons_self]
    cases nodes with
    | nil => exact absurd rfl (h (w, []) (he ▸ List.mem_cons_self))
    | cons v l =>
      have hput : (m.put w l).entries = (w, l) :: entries := SortedMap.put_of_entries he l
      right
      unfold nextToVisit
      rw [hkeys]
      dsimp only
      rw [hget]
      dsimp only
      cases l with
      | nil =>
        have hdel : delete (m.put w []) w = some (m.put w []).tail := by
          unfold delete SortedMap.keys
          rw [hput]
          exact if_pos rfl
        rw [if_pos List.isEmpty_nil, hdel]
        exact ⟨w, v, [], entries, _, rfl, rfl, (congrArg List.tail hput).trans (if_pos rfl).symm⟩
      | cons u l =>
        exact ⟨w, v, u :: l, entries, m.put w (u :: l), rfl, rfl,
          hput.trans (if_neg (List.cons_ne_nil _ _)).symm⟩

theorem nextToVisit_spec (h : m.Filled) :
    m.queue = [] ∧ m.nextToVisit = some (none, m) ∨
      ∃ v m', m.nextToVisit = some (some v, m') ∧ m.queue = v :: queue m' ∧ Filled m' := by
  unfold queue
  rcases nextToVisit_entries h with ⟨he, hnext⟩ | ⟨w, v, l, entries, m', he, hnext, hrest⟩
  · left
    rw [he]
    exact ⟨rfl, hnext⟩
  · right
    unfold Filled at h ⊢
    rw [he] at h
    have hf := (List.forall_mem_cons.1 h).2
    refine ⟨v, m', hnext, ?_, ?_⟩
    · rw [he, hrest]
      split_ifs with hl
      · rw [hl]
        rfl
      · rfl
    · rw [hrest]
      split_ifs with hl
      · exact hf
      · exact List.forall_mem_cons.2 ⟨hl, hf⟩

theorem queue_push (weight : UInt64) (node : Fin n) :
    (queue (push m weight node)).Perm (node :: m.queue) := by
  unfold push
  split
  · next l hl =>
    obtain ⟨a, b, hm, hp⟩ := SortedMap.put_of_get_eq_some hl (l ++ [node])
    rw [queue, queue, hm, hp]
    simp only [List.flatMap_append, List.flatMap_cons, List.append_assoc, List.singleton_append]
    rw [← List.append_assoc, ← List.append_assoc (a.flatMap Prod.snd)]
    exact List.perm_middle
  · next hl =>
    obtain ⟨a, b, hm, hp⟩ := SortedMap.put_of_get_eq_none hl [node]
    rw [queue, queue, hm, hp]
    simp only [List.flatMap_append, List.flatMap_cons, List.singleton_append]
    exact List.perm_middle

theorem Filled.push (h : m.Filled) (weight : UInt64) (node : Fin n) :
    Filled (push m weight node) := by
  unfold DistanceMap.push
  split
  · next l hl =>
    obtain ⟨a, b, hm, hp⟩ := SortedMap.put_of_get_eq_some hl (l ++ [node])
    unfold Filled at h ⊢
    rw [hm, List.forall_mem_append, List.forall_mem_cons] at h
    rw [hp, List.forall_mem_append, List.forall_mem_cons]
    exact ⟨h.1, List.append_ne_nil_of_right_ne_nil _ (List.cons_ne_nil _ _), h.2.2⟩
  · next hl =>
    obtain ⟨a, b, hm, hp⟩ := SortedMap.put_of_get_eq_none hl [node]
    unfold Filled at h ⊢
    rw [hm, List.forall_mem_append] at h
    rw [hp, List.forall_mem_append, List.forall_mem_cons]
    exact ⟨h.1, List.cons_ne_nil _ _, h.2⟩

end DistanceMap

/-- The weight of an edge for an amount, `none` where the search passes it over. -/
def GraphChannel.price {n : Nat} (edge : GraphChannel n) (amount : UInt64) (currMaxTimeLock : UInt16)
    (currentNode toNode srcNode : Fin n) : Option (Option ChannelWeight) := do
  if ← edge.isDisabled toNode then return none
  let fee ← edge.getFee amount toNode
  if edge.capacity * 1000 < amount + fee then return none
  if currentNode = srcNode ∨ toNode = srcNode then
    let balance ← edge.getBalance toNode
    if balance * 1000 < amount + fee then return none
  let timeLockDelta ← edge.getTimeLockDelta toNode
  if currMaxTimeLock < timeLockDelta then return none
  return some (edgeWeight amount fee timeLockDelta)

structure Search (n : Nat) where
  visited : Finset (Fin n)
  distanceMap : DistanceMap n
  candidateMap : Fin n → Option (PaymentPath n)

def Search.start {n : Nat} (src dst : Fin n) (amount : UInt64) : Search n where
  visited := ∅
  distanceMap := SortedMap.empty.put 0 [dst]
  candidateMap := Function.update (fun _ => none) dst (some (newPaymentPath amount src dst))

namespace LightingNetworkSimulation

variable {n k : Nat} (sim : LightingNetworkSimulation n k)

/-- The edge with the update the source has seen of it, `none` where it cannot route over it. -/
def seenEdge (srcNode : Fin n) (edge : GraphChannel n) (toNode : Fin n) :
    Option (Option (GraphChannel n)) :=
  match (sim.nodes srcNode).seenByChannel edge.channelID with
  | some channelMessages => do
    let dir ← edge.getDirection toNode
    match channelMessages dir with
    | none => return if edge.newChannel then none else some edge
    | some m =>
      if (sim.messages m).origin ≠ some toNode then none
      else return some (edge.updatePolicy dir (sim.policy m))
  | none => some (if edge.newChannel then none else some edge)

def tryEdge (amount : UInt64) (currMaxTimeLock : UInt16) (currentNode toNode srcNode : Fin n)
    (cheapest : ChannelWeight × Option (GraphChannel n)) (edge : GraphChannel n) :
    Option (ChannelWeight × Option (GraphChannel n)) := do
  match ← sim.seenEdge srcNode edge toNode with
  | none => return cheapest
  | some edge =>
    match ← edge.price amount currMaxTimeLock currentNode toNode srcNode with
    | none => return cheapest
    | some weight => return if weight < cheapest.1 then (weight, some edge) else cheapest

def findCheapestEdge (maxTimeLock : UInt16) (currentNode toNode srcNode : Fin n)
    (candidateMap : Fin n → Option (PaymentPath n)) :
    Option (ChannelWeight × Option (GraphChannel n)) :=
  match candidateMap currentNode with
  | none => some (infinityWeight, none)
  | some candidatePath =>
    if currentNode = srcNode then some (infinityWeight, none)
    else
      let amount := candidatePath.aggAmt
      let currMaxTimeLock := maxTimeLock - candidatePath.aggTime
      (sim.g.between currentNode toNode).foldlM
        (sim.tryEdge amount currMaxTimeLock currentNode toNode srcNode) (infinityWeight, none)

variable (srcNode dstNode : Fin n) (maxTimeLockDelta : UInt16)

/-- A neighbor of the node visited gets a path over it, if it is cheaper. -/
def relax (currentNode : Fin n) (currentCandidate : PaymentPath n) (s : Search n)
    (neighborID : Fin n) : Option (Search n) := do
  let (cheapestWeight, cheapestEdge) ←
    sim.findCheapestEdge maxTimeLockDelta currentNode neighborID srcNode s.candidateMap
  match cheapestEdge with
  | none => return s
  | some cheapestEdge =>
    let cheapestFee ← cheapestEdge.getFee currentCandidate.aggAmt neighborID
    let cheapestTimeLock ← cheapestEdge.getTimeLockDelta neighborID
    if (s.candidateMap neighborID).any fun oldNeighborCandidate =>
        oldNeighborCandidate.aggWeight ≤
          ChannelWeight.add cheapestWeight currentCandidate.aggWeight then
      return s
    let newPath ← currentCandidate.addHop cheapestEdge currentCandidate.aggAmt currentCandidate.aggTime
    let newPath := { newPath with
      aggWeight := ChannelWeight.add newPath.aggWeight cheapestWeight
      aggAmt := newPath.aggAmt + cheapestFee
      aggTime := newPath.aggTime + cheapestTimeLock }
    if cheapestEdge.capacity * 1000 < newPath.aggAmt then none
    else return { s with
      candidateMap := Function.update s.candidateMap neighborID (some newPath)
      distanceMap := s.distanceMap.push newPath.aggWeight neighborID }

/-- A round of the loop, after which the search goes on or returns a path. A node to visit has a
candidate, see `Invariant`; where it had none, the source would go on with a zero path. -/
def step (s : Search n) : Option (Search n ⊕ PaymentPath n) := do
  let (next, distanceMap) ← s.distanceMap.nextToVisit
  let s := { s with distanceMap := distanceMap }
  match next with
  | none => return .inr (newPaymentPath 0 srcNode dstNode)
  | some currentNode =>
    if currentNode ∈ s.visited then return .inl s
    let currentCandidate ← s.candidateMap currentNode
    let s ← ((sim.g.neighbors currentNode).map Prod.fst).foldlM
      (sim.relax srcNode maxTimeLockDelta currentNode currentCandidate) s
    if currentNode = srcNode then (s.candidateMap srcNode).map .inr
    else return .inl { s with visited := insert currentNode s.visited }

def search : Nat → Search n → Option (PaymentPath n)
  | 0, _ => none
  | fuel + 1, s => do
    match ← sim.step srcNode dstNode maxTimeLockDelta s with
    | .inl s => search fuel s
    | .inr p => return p

/-- The states in which the rounds of a search begin. -/
def states : Nat → Search n → List (Search n)
  | 0, _ => []
  | fuel + 1, s =>
    s :: match sim.step srcNode dstNode maxTimeLockDelta s with
      | some (.inl s) => states fuel s
      | _ => []

/-- More rounds than a search takes. -/
def rounds (n : Nat) : Nat := n * (n + 1) + 2

def findPaymentPath (src dst : Fin n) (amount : UInt64) (maxTimeLockDelta : UInt16) :
    Option (PaymentPath n) :=
  if src = dst then some (newPaymentPath 0 src dst)
  else sim.search src dst maxTimeLockDelta (rounds n) (.start src dst amount)

end LightingNetworkSimulation

end LnConv.Payments
