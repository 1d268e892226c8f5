import LnConv.Lib.Tree
import LnConv.Lnsim.Known

/-!
# The spanning tree

The search of `New` makes two nodes gossip peers of each other when it visits the second from the
first. Whether the peer graph is connected or not, the gossip peers form a forest.
-/

namespace LnConv.Lnsim

open Netsim

variable {n k : Nat}

namespace Sim

/-- The nodes that `New` has connected. -/
def connected (W : World n k) : Option (Sim n k) := do
  let s ← (new W).initStaggerTickers W
  s.initSyncers W

theorem init_eq (W : World n k) : init W =
    (connected W).bind fun s => (W.blackholes.foldl makeBlackhole s).populateMessages.bind
      fun s => s.injectPayments W :=
  (Option.bind_assoc _ _ _).symm

end Sim

/-- The gossip peers of a node before blackholes are made. -/
def World.treePeers (W : World n k) (v : Fin n) : Finset (Fin n) :=
  match Sim.connected W with
  | some s => (s.nodes v).gossipPeers
  | none => ∅

/-- The graph of the gossip peers. -/
def World.treeGraph (W : World n k) : SimpleGraph (Fin n) := .fromRel fun u v => v ∈ W.treePeers u

namespace Sim

variable {W : World n k} {s s' : Sim n k}

/-! ## Two nodes -/

/-- What two nodes have in common when `v` requests the gossip of `other`. -/
structure Requests (s : Sim n k) (v other : Fin n) (s' : Sim n k) : Prop where
  gossipPeers : ∀ w p, p ∈ (s'.nodes w).gossipPeers ↔
    p ∈ (s.nodes w).gossipPeers ∨ w = other ∧ p = v
  sets : ∀ w p, (s'.nodes w).reconcilSets p ≠ none →
    (s.nodes w).reconcilSets p ≠ none ∨ w = other ∧ p = v ∨ w = v ∧ p = other

theorem Requests.emits {v other : Fin n} {s₁ : Sim n k} (h : Requests s v other s₁)
    (he : Emits s₁ [] s') : Requests s v other s' where
  gossipPeers w p := by rw [he.gossipPeers]; exact h.gossipPeers w p
  sets w p := by rw [he.reconcilSets]; exact h.sets w p

theorem clear_ne_none {v w p p' : Fin n}
    (h : ((s.modify v (·.clear p)).nodes w).reconcilSets p' ≠ none) :
    (s.nodes w).reconcilSets p' ≠ none ∨ w = v ∧ p' = p := by
  by_cases hw : w = v
  · subst hw
    rw [modify_self] at h
    by_cases hp : p' = p
    · exact .inr ⟨rfl, hp⟩
    · change Function.update (s.nodes w).reconcilSets p (some ∅) p' ≠ none at h
      rw [Function.update_of_ne hp] at h
      exact .inl h
  · rw [modify_of_ne _ _ hw] at h
    exact .inl h

theorem requestGossipFromNode_spec {v other : Fin n}
    (h : s.requestGossipFromNode W v other = some s') : Requests s v other s' := by
  generalize hs₁ : s.modify other (fun ln =>
    { ln with gossipPeers := insert v ln.gossipPeers }) = s₁
  have hp₁ : ∀ w p, p ∈ (s₁.nodes w).gossipPeers ↔
      p ∈ (s.nodes w).gossipPeers ∨ w = other ∧ p = v := by
    intro w p
    rw [← hs₁]
    by_cases hw : w = other
    · subst hw
      rw [modify_self, Finset.mem_insert]
      tauto
    · rw [modify_of_ne _ _ hw]
      tauto
  have hr₁ : ∀ w, (s₁.nodes w).reconcilSets = (s.nodes w).reconcilSets := by
    intro w
    rw [← hs₁]
    exact modify_congr (g := LightningNode.reconcilSets) rfl w
  simp only [requestGossipFromNode, hs₁] at h
  split at h
  · have h₂ : Requests s v other ((s₁.modify v (·.clear other)).modify other (·.clear v)) := by
      refine ⟨fun w p => ?_, fun w p hset => ?_⟩
      · rw [modify_congr (g := LightningNode.gossipPeers) rfl,
          modify_congr (g := LightningNode.gossipPeers) rfl]
        exact hp₁ w p
      · rcases clear_ne_none hset with hset | hset
        · rcases clear_ne_none hset with hset | hset
          · rw [hr₁] at hset
            exact .inl hset
          · exact .inr (.inr hset)
        · exact .inr (.inl hset)
    unfold initReconcilTicker at h
    split at h
    · cases h
      exact h₂
    · exact (h₂.emits (Emits.of_modify v rfl)).emits (newTicker_emits (by intro m hm; cases hm) h)
  · cases h
    refine ⟨hp₁, fun w p hset => ?_⟩
    rw [hr₁] at hset
    exact .inl hset

/-! ## The search -/

/-- The gossip peers form a forest on the nodes visited, and sets are kept for them alone. -/
structure Grown (visited : Finset (Fin n)) (s : Sim n k) : Prop where
  forest : ∃ G : SimpleGraph (Fin n), G.IsAcyclic ∧ ∀ u v, G.Adj u v ↔ v ∈ (s.nodes u).gossipPeers
  visited : ∀ u v, v ∈ (s.nodes u).gossipPeers → v ∈ visited
  sets : ∀ u v, (s.nodes u).reconcilSets v ≠ none → v ∈ (s.nodes u).gossipPeers

/-- A node is visited from another one. -/
theorem Grown.connect {visited : Finset (Fin n)} (h : Grown visited s) {node p : Fin n}
    (hnode : node ∈ visited) (hp : p ∉ visited) (hs : s.setActiveSyncerForST W node p = some s') :
    Grown (insert p visited) s' := by
  obtain ⟨s₁, hs₁, hs₂⟩ := Option.bind_eq_some_iff.1 hs
  have h₁ := requestGossipFromNode_spec hs₁
  have h₂ := requestGossipFromNode_spec hs₂
  have hne : node ≠ p := fun he => hp (he ▸ hnode)
  have hpeers : ∀ u v, v ∈ (s'.nodes u).gossipPeers ↔
      v ∈ (s.nodes u).gossipPeers ∨ u = node ∧ v = p ∨ u = p ∧ v = node := by
    intro u v
    rw [h₂.gossipPeers, h₁.gossipPeers, or_assoc]
  obtain ⟨G, hG, hadj⟩ := h.forest
  refine ⟨⟨G ⊔ SimpleGraph.edge node p, ?_, fun u v => ?_⟩, fun u v hv => ?_, fun u v hset => ?_⟩
  · -- nobody has `p` as a gossip peer yet
    refine isAcyclic_sup_leaf hG (fun x hx => hp ?_) hne
    exact h.visited x p ((hadj x p).1 hx)
  · rw [SimpleGraph.sup_adj, SimpleGraph.edge_adj, hadj, hpeers]
    refine or_congr_right (and_iff_left_of_imp ?_)
    rintro (⟨rfl, rfl⟩ | ⟨rfl, rfl⟩)
    · exact hne
    · exact hne.symm
  · rw [Finset.mem_insert]
    rcases (hpeers u v).1 hv with hv | ⟨-, rfl⟩ | ⟨-, rfl⟩
    · exact .inr (h.visited u v hv)
    · exact .inl rfl
    · exact .inr hnode
  · rw [hpeers]
    rcases h₂.sets u v hset with hset | hset | hset
    · rcases h₁.sets u v hset with hset | hset | hset
      · exact .inl (h.sets u v hset)
      · exact .inr (.inl hset)
      · exact .inr (.inr hset)
    · exact .inr (.inr hset)
    · exact .inr (.inl hset)

theorem Grown.search {fuel : Nat} {b b' : Search n k} (h : Grown b.visited b.sim)
    (hq : ∀ v ∈ b.queue, v ∈ b.visited) (hb : search W fuel b = some b') :
    Grown b'.visited b'.sim := by
  refine (search_keeps (P := fun b => Grown b.visited b.sim ∧ ∀ v ∈ b.queue, v ∈ b.visited)
    (Q := fun node b => node ∈ b.visited ∧ Grown b.visited b.sim ∧ ∀ v ∈ b.queue, v ∈ b.visited)
    ?_ ?_ (fun _ _ h => h.2) ⟨h, hq⟩ hb).1
  · rintro node queue b hb ⟨hg, hq⟩
    rw [hb] at hq
    exact ⟨hq node List.mem_cons_self, hg, fun v hv => hq v (List.mem_cons_of_mem node hv)⟩
  · rintro node b p b' - ⟨hnode, hg, hq⟩ hp
    unfold searchPeer at hp
    split at hp
    · cases hp
      exact ⟨hnode, hg, hq⟩
    next hnew =>
    obtain ⟨s₁, hs₁, hp⟩ := Option.bind_eq_some_iff.1 hp
    cases hp
    refine ⟨Finset.mem_insert_of_mem hnode, hg.connect hnode hnew hs₁, fun v hv => ?_⟩
    rcases List.mem_append.1 hv with hv | hv
    · exact Finset.mem_insert_of_mem (hq v hv)
    · rw [List.mem_singleton.1 hv]
      exact Finset.mem_insert_self p _

theorem grown_of_connected (hst : W.algo.spanningTree = true) (h : connected W = some s) :
    ∃ visited, Grown visited s := by
  obtain ⟨s₁, hs₁, h⟩ := Option.bind_eq_some_iff.1 h
  have he := initStaggerTickers_emits hs₁
  have h₁ : ∀ visited, Grown visited s₁ := by
    intro visited
    refine ⟨⟨⊥, SimpleGraph.isAcyclic_bot, fun u v => ?_⟩, fun u v hv => ?_, fun u v hset => ?_⟩
    · rw [he.gossipPeers]
      exact iff_of_false id (Finset.notMem_empty v)
    · rw [he.gossipPeers] at hv
      exact absurd hv (Finset.notMem_empty v)
    · rw [he.reconcilSets] at hset
      exact absurd rfl hset
  unfold initSyncers at h
  rw [if_pos hst] at h
  unfold spanningTree at h
  split at h
  · obtain ⟨b, hb, rfl⟩ := Option.map_eq_some_iff.1 h
    exact ⟨b.visited, (h₁ _).search (fun v hv => by simpa using hv) hb⟩
  · cases h

/-! ## The forest -/

theorem treeGraph_spec (hst : W.algo.spanningTree = true) :
    W.treeGraph.IsAcyclic ∧ ∀ u v, W.treeGraph.Adj u v ↔ v ∈ W.treePeers u := by
  have hG : ∃ G : SimpleGraph (Fin n), G.IsAcyclic ∧ ∀ u v, G.Adj u v ↔ v ∈ W.treePeers u := by
    unfold World.treePeers
    split
    · next s hs =>
      obtain ⟨visited, hg⟩ := grown_of_connected hst hs
      exact hg.forest
    · exact ⟨⊥, SimpleGraph.isAcyclic_bot, fun u v => iff_of_false id (Finset.notMem_empty v)⟩
  obtain ⟨G, hG, hadj⟩ := hG
  have heq : W.treeGraph = G := by
    ext u v
    unfold World.treeGraph
    rw [SimpleGraph.fromRel_adj, ← hadj, ← hadj, G.adj_comm v u, or_self]
    exact and_iff_right_of_imp SimpleGraph.Adj.ne
  rw [heq]
  exact ⟨hG, hadj⟩

/-- A node's gossip peers and sets are for its neighbours in the forest. -/
structure Rooted (W : World n k) (s : Sim n k) : Prop where
  gossipPeers : ∀ u v, v ∈ (s.nodes u).gossipPeers → v ∈ W.treePeers u
  sets : ∀ u v, (s.nodes u).reconcilSets v ≠ none → v ∈ W.treePeers u

theorem Rooted.emits {out : List (Packet n k)} (h : Rooted W s) (he : Emits s out s') :
    Rooted W s' where
  gossipPeers u v hv := h.gossipPeers u v (by rwa [he.gossipPeers] at hv)
  sets u v hset := h.sets u v (by rwa [he.reconcilSets] at hset)

theorem Rooted.makeBlackholes (h : Rooted W s) (l : List (Fin n)) :
    Rooted W (l.foldl makeBlackhole s) := by
  induction l generalizing s with
  | nil => exact h
  | cons v l ih =>
    refine ih ⟨fun u w hw => ?_, fun u w hset => ?_⟩
    · by_cases hu : u = v
      · subst hu
        unfold makeBlackhole at hw
        rw [modify_self] at hw
        exact absurd hw (Finset.notMem_empty w)
      · unfold makeBlackhole at hw
        rw [modify_of_ne _ _ hu] at hw
        exact h.gossipPeers u w hw
    · unfold makeBlackhole at hset
      rw [modify_congr (g := LightningNode.reconcilSets) rfl] at hset
      exact h.sets u w hset

theorem rooted_of_init (hst : W.algo.spanningTree = true) (h : init W = some s) : Rooted W s := by
  rw [init_eq] at h
  obtain ⟨s₁, hs₁, h⟩ := Option.bind_eq_some_iff.1 h
  obtain ⟨s₂, hs₂, h⟩ := Option.bind_eq_some_iff.1 h
  obtain ⟨visited, hg⟩ := grown_of_connected hst hs₁
  have h₁ : Rooted W s₁ := by
    have htree : ∀ u, W.treePeers u = (s₁.nodes u).gossipPeers := by
      intro u
      unfold World.treePeers
      rw [hs₁]
    refine ⟨fun u v hv => ?_, fun u v hset => ?_⟩
    · rwa [htree]
    · rw [htree]
      exact hg.sets u v hset
  have h₂ : Rooted W s₂ := by
    refine foldlM_invariant (P := Rooted W) (fun s m _ s' hs hm => ?_)
      (h₁.makeBlackholes W.blackholes) hs₂
    have hnodes := (newTicker_eq hm).1
    rw [hnodes]
    exact ⟨hs.gossipPeers, hs.sets⟩
  exact h₂.emits (injectPayments_emits h)

/-! ## The peers -/

theorem ne_of_mem_connectNodes {peers : Fin n → Finset (Fin n)} {c : Fin n × Fin n} (hc : c.1 ≠ c.2)
    (h : ∀ u v, v ∈ peers u → v ≠ u) {u v : Fin n} (hv : v ∈ World.connectNodes peers c u) :
    v ≠ u := by
  unfold World.connectNodes at hv
  split at hv
  · exact h u v hv
  have h₁ : ∀ w x, x ∈ Function.update peers c.1 (insert c.2 (peers c.1)) w → x ≠ w := by
    intro w x hx
    by_cases hw : w = c.1
    · subst hw
      rw [Function.update_self, Finset.mem_insert] at hx
      rcases hx with rfl | hx
      · exact hc.symm
      · exact h _ x hx
    · rw [Function.update_of_ne hw] at hx
      exact h w x hx
  by_cases hu : u = c.2
  · subst hu
    rw [Function.update_self, Finset.mem_insert] at hv
    rcases hv with rfl | hv
    · exact hc
    · exact h₁ _ v hv
  · rw [Function.update_of_ne hu] at hv
    exact h₁ u v hv

/-- No node is a peer of its own, if it is not connected to itself outside of the channels. -/
theorem ne_of_mem_peers_of
    (hconn : ∀ c ∈ if W.algo.spanningTree then [] else W.connections, c.1 ≠ c.2) {u v : Fin n}
    (h : v ∈ W.peers u) : v ≠ u := by
  have hfold : ∀ (l : List (Fin n × Fin n)), (∀ c ∈ l, c.1 ≠ c.2) →
      ∀ peers : Fin n → Finset (Fin n), (∀ u v, v ∈ peers u → v ≠ u) →
      ∀ u v, v ∈ l.foldl World.connectNodes peers u → v ≠ u := by
    intro l hl
    induction l with
    | nil => exact fun peers hp => hp
    | cons c l ih =>
      intro peers hp
      apply ih (fun c hc => hl c (List.mem_cons_of_mem _ hc)) _
      intro u v hv
      exact ne_of_mem_connectNodes (hl c List.mem_cons_self) hp hv
  refine hfold _ (fun c hc => ?_) _ (fun u v hv => absurd hv (Finset.notMem_empty v)) u v h
  rcases List.mem_append.1 hc with hc | hc
  · obtain ⟨channel, -, rfl⟩ := List.mem_map.1 hc
    exact channel.ne
  · exact hconn c hc

/-- In spanning-tree mode there are the channels only. -/
theorem ne_of_mem_peers (hst : W.algo.spanningTree = true) {u v : Fin n} (h : v ∈ W.peers u) :
    v ≠ u := by
  refine ne_of_mem_peers_of (fun c hc => ?_) h
  rw [if_pos hst] at hc
  exact absurd hc List.not_mem_nil

end Sim

end LnConv.Lnsim
