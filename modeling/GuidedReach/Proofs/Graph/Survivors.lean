import GuidedReach.Proofs.Graph.Operations

/-!
# What survives pruning

`Graph.Pruned` tells a pruned graph from the list of nodes that were cut off. Here it is told from the
links of the graph before: a node goes when the pruned one is among its ancestors, and of what stays
only the lists that mention a removed node change.

* `Graph.survivor` — a node that stays, after the subtree at another one is gone.
* `Graph.WithoutSubtree` — a graph without the subtree at a node.
* `Graph.Retired` — a number that is not given out again.
* `Graph.prune_exact` — what pruning one node, or all of them, leaves behind.
-/

namespace GuidedReach.Graph

variable {S : Type} {g g' : Graph S} {id i : NodeId} {n : Node S}

/-! ## The nodes that stay -/

/-- The node `i` after the subtree at `root` is gone. The tree parent of the root, `above`, no longer
lists it and is no longer expanded; a covering edge lasts as long as both of its ends. -/
def survivor (root : NodeId) (above : Option NodeId) (survives : NodeId → Bool) (i : NodeId)
    (n : Node S) : Node S :=
  { n with
    succs := if above = some i then n.succs.filter (· != root) else n.succs
    isExpanded := if above = some i then false else n.isExpanded
    covering := n.covering.filter survives
    covered := n.covered.filter survives }

/-- The second graph is the first without the subtree at `root`, whose tree parent is `above`. -/
structure WithoutSubtree (root : NodeId) (above : Option NodeId) (g g' : Graph S) : Prop where
  /-- What goes is the root with everything below it. -/
  contains_iff : ∀ i, g'.contains i = true ↔ g.contains i = true ∧ root ∉ g.ancestors i
  get? : ∀ {i n}, g.get? i = some n → g'.contains i = true →
    g'.get? i = some (survivor root above g'.contains i n)
  initNodes : g'.initNodes = if above = none then g.initNodes.filter (· != root) else g.initNodes
  isInitialized : g'.isInitialized = if above = none then false else g.isInitialized

namespace Pruned

theorem contains_iff (hwf : g.WellFormed) (hn : g.get? id = some n)
    (h : Pruned id (g.descendants id) g g') :
    g'.contains i = true ↔ g.contains i = true ∧ id ∉ g.ancestors i := by
  have hcut : i ∈ g.descendants id ↔ g.contains i = true ∧ id ∈ g.ancestors i := by
    rw [hwf.mem_descendants_iff hn, Graph.contains_iff]
  have hstays : g'.contains i = true ↔ g.contains i = true ∧ i ∉ g.descendants id := by
    rw [Graph.contains_iff, Graph.contains_iff, h.get?]
    by_cases hi : i ∈ g.descendants id <;> cases g.get? i <;> simp [hi]
  rw [hstays, hcut]
  tauto

/-- Of the nodes of the graph, those outside the subtree stay. -/
theorem contains_eq {cut : List NodeId} (h : Pruned id cut g g') (hi : ∃ n, g.get? i = some n) :
    g'.contains i = decide (i ∉ cut) := by
  obtain ⟨n, hn⟩ := hi
  rw [Bool.eq_iff_iff, Graph.contains_iff, h.get?, hn]
  by_cases hi : i ∈ cut <;> simp [hi]

/-- A node that stays, told from the links of the graph. -/
theorem prunedNode_eq (hwf : g.WellFormed) (hn : g.get? id = some n) {cut : List NodeId}
    (h : Pruned id cut g g') {m : Node S} (hm : g.get? i = some m) (hcut : i ∉ cut) :
    prunedNode id cut i m = survivor id n.parent g'.contains i m := by
  have hlisted : id ∈ m.succs ↔ n.parent = some i := hwf.mem_succs_iff hm hn
  have hcovering : m.covering.filter (· ∉ cut) = m.covering.filter g'.contains := by
    cases hc : m.covering with
    | none => rfl
    | some c =>
      obtain ⟨-, b, hb, -⟩ := hwf.covering_link hm hc
      simp [Option.filter, h.contains_eq ⟨b, hb⟩]
  have hcovered : m.covered.filter (· ∉ cut) = m.covered.filter g'.contains :=
    List.filter_congr fun c hc => by
      obtain ⟨a, ha, -⟩ := hwf.covered_link hm hc
      rw [h.contains_eq ⟨a, ha⟩]
  simp only [prunedNode, cutNode, survivor, if_neg hcut, hcovering, hcovered]
  by_cases hparent : n.parent = some i
  · simp [hparent, hlisted.2 hparent]
  · have hmem : id ∉ m.succs := fun hmem => hparent (hlisted.1 hmem)
    simp [hparent, hmem, filter_bne_of_notMem hmem]

/-- **What pruning leaves is the graph without the subtree.** -/
theorem withoutSubtree (hwf : g.WellFormed) (hn : g.get? id = some n)
    (h : Pruned id (g.descendants id) g g') : WithoutSubtree id n.parent g g' where
  contains_iff _ := contains_iff hwf hn h
  get? hm hstays := by
    rw [h.contains_eq ⟨_, hm⟩, decide_eq_true_eq] at hstays
    rw [h.get?_of_get? hstays hm, prunedNode_eq hwf hn h hm hstays]
  initNodes := by
    rw [h.initNodes]
    split
    · rfl
    · rename_i hparent
      exact filter_bne_of_notMem fun hmem => hparent ((hwf.mem_initNodes_iff hn).1 hmem)
  isInitialized := by
    rw [h.isInitialized]
    have hlisted := hwf.mem_initNodes_iff hn
    by_cases hparent : n.parent = none <;> simp [hlisted, hparent]

end Pruned

/-! ## The numbers that went -/

/-- No sequence of later calls brings the number back, and no node created after them gets it. -/
def Retired (g : Graph S) (i : NodeId) : Prop :=
  ∀ (later : List (Operation S)) (g' : Graph S),
    later.foldl (fun g operation => operation.apply g) g = g' →
    g'.contains i = false ∧
    (∀ state isTarget isFeasible new t,
      (createInit state isTarget isFeasible).run g' = .ok new t → new ≠ i) ∧
    ∀ parent state isTarget isFeasible new t,
      (createSucc parent state isTarget isFeasible).run g' = .ok new t → new ≠ i

theorem createInit_eq_slotCount {state : S} {isTarget isFeasible : Bool} {new : NodeId}
    (h : (createInit state isTarget isFeasible).run g = .ok new g') : new = g.nodes.slotCount := by
  simp only [createInit, Edit.run_bind_ok, run_allocate_ok, Edit.run_pure_ok] at h
  obtain ⟨_, _, ⟨rfl, -⟩, _, _, -, rfl, -⟩ := h
  rfl

theorem createSucc_eq_slotCount {parent : NodeId} {state : S} {isTarget isFeasible : Bool}
    {new : NodeId} (h : (createSucc parent state isTarget isFeasible).run g = .ok new g') :
    new = g.nodes.slotCount := by
  simp only [createSucc, Edit.run_bind_ok, run_readNode_ok, Edit.run_lift_ok, run_allocate_ok,
    Edit.run_pure_ok] at h
  obtain ⟨_, _, ⟨-, rfl⟩, _, _, ⟨-, rfl⟩, _, _, ⟨rfl, -⟩, _, _, -, rfl, -⟩ := h
  rfl

/-- A number that was given out and stands for no node is retired. -/
theorem retired_of_get?_eq_none (hlt : i < g.nodes.slotCount) (hnone : g.get? i = none) :
    g.Retired i := by
  rintro later g' rfl
  have hcontinues := continues_foldl later g
  have hused := Nat.lt_of_lt_of_le hlt hcontinues.slotCount_le
  refine ⟨?_, fun _ _ _ _ _ h => ?_, fun _ _ _ _ _ _ h => ?_⟩
  · refine contains_eq_false_iff.2 (Option.eq_none_iff_forall_ne_some.2 fun n' hn' => ?_)
    obtain ⟨n, hn, -⟩ := hcontinues.node hlt hn'
    simp [hnone] at hn
  · exact createInit_eq_slotCount h ▸ (Nat.ne_of_lt hused).symm
  · exact createSucc_eq_slotCount h ▸ (Nat.ne_of_lt hused).symm

/-- A call retires every node that it takes out of the graph. -/
theorem retired_of_run_edit (operation : Operation S) (h : operation.edit.run g = .ok () g')
    (hi : g.contains i = true) (hgone : g'.contains i = false) : g'.Retired i := by
  obtain ⟨n, hn⟩ := contains_iff.1 hi
  have hcontinues := continues_apply operation g
  rw [apply_eq_leftBy, leftBy_of_ok h] at hcontinues
  exact retired_of_get?_eq_none (Nat.lt_of_lt_of_le (lt_slotCount hn) hcontinues.slotCount_le)
    (contains_eq_false_iff.1 hgone)

/-! ## Pruning one node, or all -/

/-- **Pruning takes away a node with its tree descendants and nothing else.** A node goes exactly
when the pruned one is among its ancestors. Every other node stays as it is but for three things: the
parent of the pruned node drops it from its children and is no longer expanded, a covering edge goes
with either of its ends, and the lists of covered nodes keep their order without the removed ones. An
init node also leaves the list of init nodes, and the graph is no longer initialized. Pruning
everything leaves no node. No number of a removed node is given out again. -/
theorem prune_exact (hwf : g.WellFormed) :
    (∀ id n, g.get? id = some n → ∃ g', (prune id).run g = .ok () g' ∧
      WithoutSubtree id n.parent g g' ∧
      ∀ i, g.contains i = true → g'.contains i = false → g'.Retired i) ∧
    ∃ g', pruneAll.run g = .ok () g' ∧ (∀ i, g'.contains i = false) ∧
      g'.initNodes = [] ∧ g'.isInitialized = false ∧
      ∀ i, g.contains i = true → g'.Retired i := by
  constructor
  · intro id n hn
    obtain ⟨g', hrun⟩ := exists_prune hwf hn
    have hpruned := prune_ok hwf hrun
    exact ⟨g', hrun, hpruned.withoutSubtree hwf hn, fun i hi hgone =>
      retired_of_run_edit (.prune id) hrun hi hgone⟩
  · obtain ⟨g', hrun, hwf', hnil, hopen⟩ := hwf.exists_pruneAll
    have hgone : ∀ i, g'.contains i = false := fun i =>
      contains_eq_false_iff.2 (hwf'.get?_eq_none hnil i)
    exact ⟨g', hrun, hgone, hnil, hopen, fun i hi =>
      retired_of_run_edit .pruneAll hrun hi (hgone i)⟩

/-- A graph in which covering edges cross the border of the subtree at 1 both ways. -/
def crossed : Graph Nat :=
  after [.createInit 0 false true, .createSucc 0 1 false true, .createSucc 1 2 false true,
    .createSucc 1 3 false true, .createSucc 0 4 false true, .createInit 5 false true,
    .createInit 6 false true, .setExpanded 0 true, .setExpanded 1 true, .setInitialized true,
    .cover 5 2, .cover 6 4, .cover 3 4]

theorem prune_exact_crossed :
    crossed.WellFormed ∧ (crossed.get? 1).map (·.parent) = some (some 0) ∧
      ∃ g', (prune 1).run crossed = .ok () g' ∧ WithoutSubtree 1 (some 0) crossed g' ∧
        g'.toList =
          [(0, { state := 0, depth := 0, isTarget := false, isFeasible := true, parent := none,
                 succs := [4] }),
            (4, { state := 4, depth := 1, isTarget := false, isFeasible := true, parent := some 0,
                  covered := [6] }),
            (5, { state := 5, depth := 0, isTarget := false, isFeasible := true, parent := none }),
            (6, { state := 6, depth := 0, isTarget := false, isFeasible := true, parent := none,
                  covering := some 4 })] ∧
        g'.initNodes = [0, 5, 6] ∧ g'.isInitialized = true ∧ ∀ i ∈ [1, 2, 3], g'.Retired i := by
  have hwf : crossed.WellFormed := wellFormed_after _
  have habove : (crossed.get? 1).map (·.parent) = some (some 0) := by decide +kernel
  obtain ⟨n, hn, hparent⟩ := Option.map_eq_some_iff.1 habove
  obtain ⟨g', hrun, hrest, hretired⟩ := (prune_exact hwf).1 1 n hn
  obtain rfl := leftBy_of_ok hrun
  have hgone : ∀ i ∈ [1, 2, 3],
      crossed.contains i = true ∧ (leftBy (prune 1) crossed).contains i = false := by
    decide +kernel
  exact ⟨hwf, habove, _, hrun, hparent ▸ hrest, by decide +kernel, by decide +kernel,
    by decide +kernel, fun i hi => hretired i (hgone i hi).1 (hgone i hi).2⟩

end GuidedReach.Graph
