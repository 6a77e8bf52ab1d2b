import GuidedReach.Proofs.Graph.Links

/-!
# What a write does to a generation

Each write changes the search node of one graph node and nothing else.

* `SearchNode.setHeuristic_ok`, `SearchNode.setDistance_ok` — a checked write either writes an
  unknown value or finds the same value there.
* `Generation.setHeuristic_ok`, `Generation.setDistance_ok`, `Generation.setProvider_ok`,
  `Generation.register_ok` — the search nodes after each write.
* `Generation.dropPruned_ok` — the search nodes of the nodes that are left.
-/

namespace GuidedReach

/-! ## Search nodes -/

namespace SearchNode

variable {k k' : SearchNode} {value : Distance} {isTarget : Bool} {u : Unit}

theorem checkAdmissible_eq_ok : k.checkAdmissible = .ok () ↔ k.Admissible := by
  unfold checkAdmissible Admissible
  cases hh : k.heuristic.isKnown <;> cases hd : k.distance.isKnown <;>
    simp [bind_eq_ok, Distance.le_eq_ok, demand_eq_ok, *]

theorem checkFits_ok (h : k.checkFits isTarget = .ok u) : k.Admissible := by
  refine checkAdmissible_eq_ok.1 ?_
  cases hh : k.heuristic.isKnown <;> cases hd : k.distance.isKnown <;>
    simp_all [checkFits, bind_eq_ok]

theorem setHeuristic_ok (h : (setHeuristic value isTarget).run k = .ok u k') :
    value.isKnown = true ∧ k' = { k with heuristic := value } ∧
      (k.heuristic = value ∨ k.heuristic = .unknown ∧ k'.Admissible) := by
  simp only [setHeuristic, Edit.run_bind_ok, Edit.run_lift_ok, Edit.run_get_ok, demand_eq_ok] at h
  obtain ⟨_, _, ⟨hknown, rfl⟩, _, _, ⟨rfl, rfl⟩, h⟩ := h
  split at h
  · obtain ⟨hvalue, rfl⟩ := Edit.run_lift_ok.1 h
    have hvalue := eq_of_beq (demand_eq_ok.1 hvalue)
    exact ⟨hknown, by rw [← hvalue], .inl hvalue⟩
  · rename_i hunknown
    simp only [Edit.run_bind_ok, Edit.run_lift_ok, Edit.run_get_ok, Edit.run_set_ok] at h
    obtain ⟨_, _, ⟨-, rfl⟩, _, _, rfl, _, _, ⟨rfl, rfl⟩, hadm, rfl⟩ := h
    refine ⟨hknown, rfl, .inr ⟨?_, checkAdmissible_eq_ok.1 hadm⟩⟩
    cases hk : k.heuristic <;> simp_all [Distance.isKnown]

theorem setDistance_ok (h : (setDistance value isTarget).run k = .ok u k') :
    value.isKnown = true ∧ k' = { k with distance := value } ∧
      (k.distance = value ∨ k.distance = .unknown ∧ k'.Admissible) := by
  simp only [setDistance, Edit.run_bind_ok, Edit.run_lift_ok, Edit.run_get_ok, demand_eq_ok] at h
  obtain ⟨_, _, ⟨hknown, rfl⟩, _, _, ⟨rfl, rfl⟩, h⟩ := h
  split at h
  · obtain ⟨hvalue, rfl⟩ := Edit.run_lift_ok.1 h
    have hvalue := eq_of_beq (demand_eq_ok.1 hvalue)
    exact ⟨hknown, by rw [← hvalue], .inl hvalue⟩
  · rename_i hunknown
    simp only [Edit.run_bind_ok, Edit.run_lift_ok, Edit.run_get_ok, Edit.run_set_ok] at h
    obtain ⟨_, _, ⟨-, rfl⟩, _, _, rfl, _, _, ⟨rfl, rfl⟩, hadm, rfl⟩ := h
    refine ⟨hknown, rfl, .inr ⟨?_, checkAdmissible_eq_ok.1 hadm⟩⟩
    cases hk : k.distance <;> simp_all [Distance.isKnown]

/-- What is known about a node without a finite bound on its distance. -/
theorem Admissible.not_isFinite (hk : k.Admissible) (h : k.heuristic = .infinite) :
    k.distance.isFinite = false := by
  unfold Admissible at hk
  cases hd : k.distance <;> simp_all [Distance.isKnown, Distance.notAbove, Distance.isFinite]

end SearchNode

namespace Generation

variable {S P K : Type} {gen gen' : Generation S P K}

/-! ## Reading -/

@[simp] theorem searchNode_eq_ok {id : NodeId} {k : SearchNode} :
    gen.searchNode id = .ok k ↔ gen.searchNodes.get? id = some k := by
  unfold searchNode
  split <;> simp_all

@[simp] theorem heuristic_eq_ok {id : NodeId} {d : Distance} :
    gen.heuristic id = .ok d ↔ ∃ k, gen.searchNodes.get? id = some k ∧ k.heuristic = d := by
  simp [heuristic, map_eq_ok]

@[simp] theorem distance_eq_ok {id : NodeId} {d : Distance} :
    gen.distance id = .ok d ↔ ∃ k, gen.searchNodes.get? id = some k ∧ k.distance = d := by
  simp [distance, map_eq_ok]

/-- Without its provider a generation still has its distances. -/
theorem distance_releaseProvider (gen : Generation S P K) (i : NodeId) :
    gen.releaseProvider.distance i = gen.distance i := by
  cases hk : gen.searchNodes.get? i <;>
    simp [Generation.distance, Generation.searchNode, releaseProvider, NodeMap.get?_mapWithId, hk]

/-- Without its provider a generation still has its heuristics. -/
theorem heuristic_releaseProvider (gen : Generation S P K) (i : NodeId) :
    gen.releaseProvider.heuristic i = gen.heuristic i := by
  cases hk : gen.searchNodes.get? i <;>
    simp [Generation.heuristic, Generation.searchNode, releaseProvider, NodeMap.get?_mapWithId, hk]

/-- A reset copy only knows where each node comes from. -/
theorem exists_of_resetOnto {copy : Nat} {i : NodeId} {k : SearchNode}
    (hk : (gen.resetOnto copy).searchNodes.get? i = some k) :
    k = { provider := some i } ∧ ∃ old, gen.searchNodes.get? i = some old := by
  rw [resetOnto, NodeMap.get?_mapWithId, Option.map_eq_some_iff] at hk
  obtain ⟨old, hold, rfl⟩ := hk
  exact ⟨rfl, old, hold⟩

/-- A reset copy has the nodes of the original. -/
theorem get?_resetOnto (copy : Nat) {i : NodeId} {k : SearchNode}
    (hk : gen.searchNodes.get? i = some k) :
    (gen.resetOnto copy).searchNodes.get? i = some { provider := some i } := by
  rw [resetOnto, NodeMap.get?_mapWithId, hk, Option.map_some]

/-- Without its provider a generation has its search nodes without theirs. -/
theorem exists_of_releaseProvider {i : NodeId} {k : SearchNode}
    (hk : gen.releaseProvider.searchNodes.get? i = some k) :
    ∃ old, gen.searchNodes.get? i = some old ∧ k = { old with provider := none } := by
  rw [releaseProvider, NodeMap.get?_mapWithId, Option.map_eq_some_iff] at hk
  obtain ⟨old, hold, rfl⟩ := hk
  exact ⟨old, hold, rfl⟩

/-! ## Writing -/

/-- The second generation is the first with other search nodes. -/
structure Rewrites (gen gen' : Generation S P K) (id : NodeId) (k : SearchNode) : Prop where
  graph : gen'.graph = gen.graph
  prec : gen'.prec = gen.prec
  provider : gen'.provider = gen.provider
  get? : ∀ i, gen'.searchNodes.get? i = if i = id then some k else gen.searchNodes.get? i

theorem editSearchNode_ok {id : NodeId} {edit : Edit SearchNode Unit}
    (h : gen.editSearchNode id edit = .ok gen') :
    ∃ k k', gen.searchNodes.get? id = some k ∧ edit.run k = .ok () k' ∧ gen.Rewrites gen' id k' ∧
      gen'.buckets = gen.buckets := by
  simp only [editSearchNode, bind_eq_ok, searchNode_eq_ok, pure_eq_ok] at h
  obtain ⟨k, hk, ⟨⟨⟩, k'⟩, hedit, rfl⟩ := h
  exact ⟨k, k', hk, Edit.result_eq_ok.1 hedit, ⟨rfl, rfl, rfl, NodeMap.get?_insert _ _ _⟩, rfl⟩

theorem setHeuristic_ok {id : NodeId} {value : Distance}
    (h : gen.setHeuristic id value = .ok gen') :
    ∃ n k, gen.graph.get? id = some n ∧ gen.searchNodes.get? id = some k ∧
      value.isKnown = true ∧ gen.Rewrites gen' id { k with heuristic := value } ∧
      (k.heuristic = value ∨
        k.heuristic = .unknown ∧ SearchNode.Admissible { k with heuristic := value }) := by
  simp only [setHeuristic, bind_eq_ok, Graph.node_eq_ok] at h
  obtain ⟨n, hn, h⟩ := h
  obtain ⟨k, k', hk, hedit, hrewrites, -⟩ := editSearchNode_ok h
  obtain ⟨hknown, rfl, hold⟩ := SearchNode.setHeuristic_ok hedit
  exact ⟨n, k, hn, hk, hknown, hrewrites, hold⟩

theorem setDistance_ok {id : NodeId} {value : Distance}
    (h : gen.setDistance id value = .ok gen') :
    ∃ n k, gen.graph.get? id = some n ∧ gen.searchNodes.get? id = some k ∧
      value.isKnown = true ∧ gen.Rewrites gen' id { k with distance := value } ∧
      (k.distance = value ∨
        k.distance = .unknown ∧ SearchNode.Admissible { k with distance := value }) := by
  simp only [setDistance, bind_eq_ok, Graph.node_eq_ok] at h
  obtain ⟨n, hn, h⟩ := h
  obtain ⟨k, k', hk, hedit, hrewrites, -⟩ := editSearchNode_ok h
  obtain ⟨hknown, rfl, hold⟩ := SearchNode.setDistance_ok hedit
  exact ⟨n, k, hn, hk, hknown, hrewrites, hold⟩

theorem setProvider_ok {id : NodeId} {provider : Option NodeId}
    (h : gen.editSearchNode id (SearchNode.setProvider provider) = .ok gen') :
    ∃ k, gen.searchNodes.get? id = some k ∧ gen.Rewrites gen' id { k with provider } := by
  obtain ⟨k, k', hk, hedit, hrewrites, -⟩ := editSearchNode_ok h
  obtain rfl := Edit.run_modify_ok.1 hedit
  exact ⟨k, hk, hrewrites⟩

theorem buckets_of_setHeuristic {id : NodeId} {value : Distance}
    (h : gen.setHeuristic id value = .ok gen') :
    gen'.buckets = gen.buckets := by
  simp only [setHeuristic, bind_eq_ok] at h
  obtain ⟨_, -, h⟩ := h
  obtain ⟨_, _, -, -, -, hbuckets⟩ := editSearchNode_ok h
  exact hbuckets

theorem buckets_of_setDistance {id : NodeId} {value : Distance}
    (h : gen.setDistance id value = .ok gen') :
    gen'.buckets = gen.buckets := by
  simp only [setDistance, bind_eq_ok] at h
  obtain ⟨_, -, h⟩ := h
  obtain ⟨_, _, -, -, -, hbuckets⟩ := editSearchNode_ok h
  exact hbuckets

theorem attached_of_editSearchNode {id : NodeId} {edit : Edit SearchNode Unit}
    (h : gen.editSearchNode id edit = .ok gen') : gen'.attached = gen.attached := by
  simp only [editSearchNode, bind_eq_ok, pure_eq_ok] at h
  obtain ⟨_, -, _, -, rfl⟩ := h
  rfl

theorem attached_of_setHeuristic {id : NodeId} {value : Distance}
    (h : gen.setHeuristic id value = .ok gen') : gen'.attached = gen.attached := by
  simp only [setHeuristic, bind_eq_ok] at h
  obtain ⟨_, -, h⟩ := h
  exact attached_of_editSearchNode h

theorem attached_of_setDistance {id : NodeId} {value : Distance}
    (h : gen.setDistance id value = .ok gen') : gen'.attached = gen.attached := by
  simp only [setDistance, bind_eq_ok] at h
  obtain ⟨_, -, h⟩ := h
  exact attached_of_editSearchNode h

theorem slotCount_of_setDistance {id : NodeId} {value : Distance}
    (h : gen.setDistance id value = .ok gen') :
    gen'.searchNodes.slotCount = gen.searchNodes.slotCount := by
  simp only [setDistance, editSearchNode, bind_eq_ok, pure_eq_ok, searchNode_eq_ok] at h
  obtain ⟨_, -, k, hk, _, -, rfl⟩ := h
  exact NodeMap.slotCount_insert (NodeMap.lt_slotCount_of_get? hk)

section

variable [DecidableEq K] {analysis : Analysis S P K}

theorem register_ok {id : NodeId} {k : SearchNode}
    (h : gen.register analysis id k = .ok gen') :
    (∃ n, gen.graph.get? id = some n) ∧ gen.searchNodes.get? id = none ∧
      gen.Rewrites gen' id k := by
  simp only [register, bind_eq_ok, Graph.node_eq_ok, demand_eq_ok, pure_eq_ok] at h
  obtain ⟨n, hn, _, hnone, rfl⟩ := h
  exact ⟨⟨n, hn⟩, by simpa [NodeMap.contains] using hnone,
    ⟨rfl, rfl, rfl, NodeMap.get?_insert _ _ _⟩⟩

theorem dropPruned_ok (h : gen.dropPruned analysis = .ok gen') :
    gen'.graph = gen.graph ∧ gen'.prec = gen.prec ∧ gen'.provider = gen.provider ∧
      ∀ i, gen'.searchNodes.get? i =
        if gen.graph.contains i then gen.searchNodes.get? i else none := by
  simp only [dropPruned, bind_eq_ok, pure_eq_ok] at h
  obtain ⟨_, -, rfl⟩ := h
  exact ⟨rfl, rfl, rfl, NodeMap.get?_filterIds _ _⟩

end

end Generation

end GuidedReach
