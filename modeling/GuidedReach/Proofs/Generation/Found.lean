import GuidedReach.Proofs.Generation.Mirrors
import GuidedReach.Proofs.Generation.Worklist
import GuidedReach.Proofs.Graph.Found

/-!
# Settling a search finds every search node

When every node of a well-formed graph has a search node, the nodes that are looked up while a search
is turned into distances have one: they are nodes that the search has met, or come from these along
the links of the graph.

* `Generation.Furnished.finds_deriveFrom` — what follows from known distances.
* `Generation.Furnished.finds_settleGuided`, `Generation.Furnished.finds_settleExhaustive` — a finished
  search.
-/

namespace GuidedReach

/-! ## Distances -/

section

variable {d e : Distance}

theorem Distance.finds_value : Finds d.value fun _ => True := by
  cases d <;> first | exact trivial | exact id

theorem Distance.finds_add {edges : Nat} : Finds (d.add edges) fun _ => True := by
  cases d <;> first | exact trivial | exact id

theorem Distance.finds_succ : Finds d.succ fun _ => True := finds_add

theorem Distance.finds_lt : Finds (d.lt e) fun _ => True := by
  cases d <;> cases e <;> first | exact trivial | exact id

theorem Distance.finds_le : Finds (d.le e) fun _ => True := by
  cases d <;> cases e <;> first | exact trivial | exact id

end

/-! ## Checked writes -/

namespace SearchNode

variable {k : SearchNode} {value : Distance} {isTarget : Bool}

theorem finds_checkAdmissible : Finds k.checkAdmissible fun _ => True := by
  unfold checkAdmissible
  split
  · exact Spares.bind Distance.finds_le fun _ _ _ => (finds_demand id).mono fun _ _ _ => trivial
  · exact spares_pure trivial

theorem finds_checkFits : Finds (k.checkFits isTarget) fun _ => True := by
  have hdistance : Finds (if k.distance.isKnown then do
      demand (!isTarget || k.distance == .zero) .targetDistanceNotZero
      k.checkAdmissible
    else k.checkAdmissible) fun _ => True := by
    split
    · exact Spares.bind (finds_demand id) fun _ _ _ => finds_checkAdmissible
    · exact finds_checkAdmissible
  unfold checkFits
  cases k.heuristic.isKnown with
  | true => exact Spares.bind (finds_demand id) fun _ _ _ => hdistance
  | false => exact hdistance

theorem finds_setHeuristic : (setHeuristic value isTarget).Finds k fun _ _ => True := by
  unfold setHeuristic
  refine Edit.Finds.bind (Edit.finds_lift (finds_demand id)) fun _ _ _ _ =>
    Edit.finds_get.bind fun k _ _ _ => ?_
  split
  · exact (Edit.finds_lift (finds_demand id)).mono fun _ _ _ _ => trivial
  · exact Edit.Finds.bind (Edit.finds_lift (finds_demand id)) fun _ _ _ _ =>
      Edit.finds_set.bind fun _ _ _ _ => Edit.finds_get.bind fun _ _ _ _ =>
        (Edit.finds_lift finds_checkAdmissible).mono fun _ _ _ _ => trivial

theorem finds_setDistance : (setDistance value isTarget).Finds k fun _ _ => True := by
  unfold setDistance
  refine Edit.Finds.bind (Edit.finds_lift (finds_demand id)) fun _ _ _ _ =>
    Edit.finds_get.bind fun k _ _ _ => ?_
  split
  · exact (Edit.finds_lift (finds_demand id)).mono fun _ _ _ _ => trivial
  · exact Edit.Finds.bind (Edit.finds_lift (finds_demand id)) fun _ _ _ _ =>
      Edit.finds_set.bind fun _ _ _ _ => Edit.finds_get.bind fun _ _ _ _ =>
        (Edit.finds_lift finds_checkAdmissible).mono fun _ _ _ _ => trivial

end SearchNode

namespace Generation

variable {S P K : Type} {gen gen' : Generation S P K} {id : NodeId} {value : Distance}

/-! ## Single nodes -/

theorem finds_searchNode (h : ∃ k, gen.searchNodes.get? id = some k) :
    Finds (gen.searchNode id) fun k => gen.searchNodes.get? id = some k := by
  obtain ⟨k, hk⟩ := h
  rw [searchNode_eq_ok.2 hk]
  exact hk

theorem finds_heuristic (h : ∃ k, gen.searchNodes.get? id = some k) :
    Finds (gen.heuristic id) fun _ => True :=
  Spares.bind (finds_searchNode h) fun _ _ _ => spares_pure trivial

theorem finds_distance (h : ∃ k, gen.searchNodes.get? id = some k) :
    Finds (gen.distance id) fun _ => True :=
  Spares.bind (finds_searchNode h) fun _ _ _ => spares_pure trivial

theorem finds_editSearchNode (h : ∃ k, gen.searchNodes.get? id = some k)
    {edit : Edit SearchNode Unit} (hedit : ∀ k, edit.Finds k fun _ _ => True) :
    Finds (gen.editSearchNode id edit) fun _ => True :=
  Spares.bind (finds_searchNode h) fun k _ _ => Spares.bind (hedit k) fun _ _ _ => spares_pure trivial

theorem finds_setHeuristic (h : ∀ n, gen.graph.get? id = some n →
    ∃ k, gen.searchNodes.get? id = some k) : Finds (gen.setHeuristic id value) fun _ => True :=
  Spares.bind Graph.finds_node fun n _ hn =>
    finds_editSearchNode (h n hn) fun _ => SearchNode.finds_setHeuristic

theorem finds_setDistance (h : ∀ n, gen.graph.get? id = some n →
    ∃ k, gen.searchNodes.get? id = some k) : Finds (gen.setDistance id value) fun _ => True :=
  Spares.bind Graph.finds_node fun n _ hn =>
    finds_editSearchNode (h n hn) fun _ => SearchNode.finds_setDistance

theorem finds_register [DecidableEq K] {analysis : Analysis S P K} {k : SearchNode} :
    Finds (gen.register analysis id k) fun _ => True := by
  unfold Generation.register
  refine Spares.bind Graph.finds_node fun _ _ _ => Spares.bind (finds_demand ?_) fun _ _ _ =>
    spares_pure trivial
  exact fun h => h

/-- The edge is refused for its values, if at all. -/
theorem finds_checkConsistent {parent child : NodeId}
    (hparent : ∃ k, gen.searchNodes.get? parent = some k)
    (hchild : ∃ k, gen.searchNodes.get? child = some k) :
    Finds (gen.checkConsistent parent child) fun _ => True := by
  unfold checkConsistent
  refine Spares.bind (finds_heuristic hparent) fun above _ _ =>
    Spares.bind (finds_heuristic hchild) fun below _ _ =>
      Spares.bind (finds_demand fun h => h) fun _ _ _ => ?_
  split
  · exact spares_pure trivial
  refine Spares.bind (finds_demand fun h => h) fun _ _ _ => ?_
  split
  · exact spares_pure trivial
  refine Spares.bind Graph.finds_node fun _ _ _ => Spares.bind Distance.finds_add fun _ _ _ =>
    Spares.bind Distance.finds_le fun _ _ _ => (finds_demand ?_).mono fun _ _ _ => trivial
  exact fun h => h

/-! ## Generations without pending nodes -/

theorem Filed.furnished [DecidableEq K] {analysis : Analysis S P K} (h : gen.Filed analysis [])
    (hwf : gen.graph.WellFormed) : gen.Furnished :=
  ⟨hwf, fun hn => h.registered hn List.not_mem_nil⟩

/-- The nodes in a bucket are in the graph. -/
theorem Filed.finds_coveringCandidates [DecidableEq K] {analysis : Analysis S P K}
    {pending : List NodeId} (h : gen.Filed analysis pending) :
    Finds (gen.coveringCandidates analysis id) fun candidates =>
      ∀ i ∈ candidates, ∃ n, gen.graph.get? i = some n :=
  Spares.bind Graph.finds_node fun _ _ _ => spares_pure fun i hi => by
    rw [h.find] at hi
    exact h.mem_graph (List.mem_of_mem_filter hi)

namespace Furnished

variable {n : Node S} {ids : List NodeId} {run : SearchRun} {goal : NodeId}

theorem finds_heuristic (h : gen.Furnished) (hid : ∃ n, gen.graph.get? id = some n) :
    Finds (gen.heuristic id) fun _ => True :=
  Generation.finds_heuristic (h.registered hid.choose_spec)

theorem finds_distance (h : gen.Furnished) (hid : ∃ n, gen.graph.get? id = some n) :
    Finds (gen.distance id) fun _ => True :=
  Generation.finds_distance (h.registered hid.choose_spec)

/-- A written distance leaves every node with its search node. -/
theorem finds_setDistance (h : gen.Furnished) :
    Finds (gen.setDistance id value) fun gen' => gen.DistanceWrites gen' :=
  (Generation.finds_setDistance fun _ hn => h.registered hn).mono fun _ hset _ => .of_setDistance hset

theorem finds_reachesTarget (h : gen.Furnished) :
    Finds (gen.reachesTarget id) fun _ => ∃ n, gen.graph.get? id = some n := by
  unfold reachesTarget
  refine Spares.bind Graph.finds_node fun n _ hn => ?_
  split
  · exact spares_pure ⟨n, hn⟩
  · exact Spares.bind (h.finds_distance ⟨n, hn⟩) fun _ _ _ => spares_pure ⟨n, hn⟩

theorem finds_isSettled (h : gen.Furnished) (hid : ∃ n, gen.graph.get? id = some n) :
    Finds (gen.isSettled id) fun _ => True :=
  Spares.bind (h.finds_distance hid) fun _ _ _ => spares_pure trivial

theorem finds_unsettled (h : gen.Furnished) (hids : ∀ i ∈ ids, ∃ n, gen.graph.get? i = some n) :
    Finds (gen.unsettled ids) fun waiting => ∀ i ∈ waiting, i ∈ ids :=
  Spares.filterM fun i hi => Spares.bind (h.finds_isSettled (hids i hi)) fun _ _ _ => spares_pure trivial

/-! ### Links lead to nodes of the graph -/

theorem exists_coverer (h : gen.Furnished) (hn : gen.graph.get? id = some n) {coverer : NodeId}
    (hcovering : n.covering = some coverer) : ∃ m, gen.graph.get? coverer = some m := by
  obtain ⟨-, m, hm, -⟩ := h.wellFormed.covering_link hn hcovering
  exact ⟨m, hm⟩

theorem exists_covered (h : gen.Furnished) (hn : gen.graph.get? id = some n) {i : NodeId}
    (hi : i ∈ n.covered) : ∃ m, gen.graph.get? i = some m := by
  obtain ⟨m, hm, -⟩ := h.wellFormed.covered_link hn hi
  exact ⟨m, hm⟩

theorem exists_succ (h : gen.Furnished) (hn : gen.graph.get? id = some n) {i : NodeId}
    (hi : i ∈ n.succs) : ∃ m, gen.graph.get? i = some m := by
  obtain ⟨m, hm, -⟩ := h.wellFormed.succ_link hn hi
  exact ⟨m, hm⟩

theorem exists_parent (h : gen.Furnished) (hn : gen.graph.get? id = some n) {parent : NodeId}
    (hparent : n.parent = some parent) : ∃ m, gen.graph.get? parent = some m := by
  obtain ⟨-, m, hm, -⟩ := h.wellFormed.parent_link hn hparent
  exact ⟨m, hm⟩

/-! ### What follows from known distances -/

theorem finds_derived (h : gen.Furnished) (hn : gen.graph.get? id = some n) :
    Finds (gen.derived id n) fun _ => True := by
  unfold derived
  split
  · rename_i coverer hcovering
    exact h.finds_distance (h.exists_coverer hn hcovering)
  split
  · refine Spares.bind (?_ : Finds _ fun _ => True) fun _ _ _ => spares_pure trivial
    unfold isDeadEnd
    split
    · exact spares_pure trivial
    · exact Spares.bind (h.finds_heuristic ⟨n, hn⟩) fun _ _ _ => spares_pure trivial
  split
  · exact spares_pure trivial
  · refine Spares.bind (Spares.mapM fun i hi => h.finds_distance (h.exists_succ hn hi))
      fun below _ _ => ?_
    split
    · exact Distance.finds_succ
    · exact spares_pure trivial

theorem finds_deriveWithin (h : gen.Furnished) (steps : Nat) :
    Finds (gen.deriveWithin steps ids) fun gen' => gen.DistanceWrites gen' := by
  induction steps generalizing gen ids with
  | zero => exact spares_pure (.refl gen)
  | succ steps ih =>
    cases ids with
    | nil => exact spares_pure (.refl gen)
    | cons id rest =>
      refine Spares.bind Graph.finds_node fun n _ hn => ?_
      split
      · exact ih h
      refine Spares.bind (h.finds_isSettled ⟨n, hn⟩) fun settled _ _ => ?_
      split
      · exact ih h
      refine Spares.bind (h.finds_derived hn) fun distance _ _ => ?_
      split
      · refine Spares.bind h.finds_setDistance fun gen' _ hwrites => ?_
        have h' := h.of_distanceWrites hwrites
        refine Spares.bind (h'.finds_unsettled fun i hi =>
          h'.exists_covered (hwrites.graph ▸ hn) hi) fun _ _ _ => ?_
        exact (ih h').mono fun _ _ hlater => hwrites.trans hlater
      · exact ih h

theorem finds_deriveFrom (h : gen.Furnished) :
    Finds (gen.deriveFrom ids) fun gen' => gen.DistanceWrites gen' :=
  h.finds_deriveWithin _

theorem finds_deriveFromDeadEnds (h : gen.Furnished) :
    Finds gen.deriveFromDeadEnds fun gen' => gen.DistanceWrites gen' := by
  refine Spares.bind (Spares.filterM fun entry hentry => ?_) fun _ _ _ => h.finds_deriveFrom
  obtain ⟨i, n⟩ := entry
  have hn := Graph.mem_toList.1 hentry
  dsimp only
  split
  · exact spares_pure trivial
  refine Spares.bind (h.finds_isSettled ⟨n, hn⟩) fun _ _ _ => ?_
  split
  · exact spares_pure trivial
  unfold isDead
  split
  · rename_i coverer hcovering
    exact Spares.bind (h.finds_distance (h.exists_coverer hn hcovering)) fun _ _ _ => spares_pure trivial
  split
  · exact spares_pure trivial
  refine Spares.bind (h.finds_heuristic ⟨n, hn⟩) fun _ _ _ => ?_
  split <;> exact spares_pure trivial

/-! ### Guided searches -/

theorem finds_assignOnPath (h : gen.Furnished) :
    Finds (gen.assignOnPath goal id value) fun result =>
      ∀ gen', result = some gen' → gen.DistanceWrites gen' := by
  refine Spares.bind Graph.finds_node fun n _ hn => Spares.bind (finds_demand fun h => h) fun _ _ _ =>
    Spares.bind (h.finds_distance ⟨n, hn⟩) fun known _ _ => ?_
  split
  · exact Spares.bind Distance.finds_le fun _ _ _ =>
      Spares.bind (finds_demand fun h => h) fun _ _ _ => spares_pure nofun
  refine Spares.bind (?_ : Finds _ fun _ => True) fun shorter _ _ => ?_
  · unfold hasShorterPath
    split
    · exact spares_pure trivial
    · refine Spares.anyM fun i hi => Spares.bind (h.finds_distance (h.exists_succ hn hi)) fun _ _ _ => ?_
      split
      · exact Spares.bind Distance.finds_succ fun _ _ _ => Distance.finds_lt
      · exact spares_pure trivial
  · split
    · exact spares_pure nofun
    · exact Spares.bind h.finds_setDistance fun gen' _ hwrites =>
        spares_pure fun _ heq => Option.some.inj heq ▸ hwrites

theorem finds_climb (h : gen.Furnished) (steps : Nat) {beside : List NodeId} :
    Finds (gen.climb run goal steps id value beside) fun result => gen.DistanceWrites result.1 := by
  induction steps generalizing gen id value beside with
  | zero => exact spares_pure (.refl gen)
  | succ steps ih =>
    unfold climb
    have hself : Finds (pure (some gen)) fun result =>
        ∀ gen', result = some gen' → gen.DistanceWrites gen' :=
      spares_pure fun _ heq => Option.some.inj heq ▸ .refl gen
    dsimp only
    by_cases hgoal : id = goal
    on_goal 1 =>
      rw [if_pos hgoal]
      refine Spares.bind hself fun result _ hresult => ?_
    on_goal 2 =>
      rw [if_neg hgoal]
      refine Spares.bind h.finds_assignOnPath fun result _ hresult => ?_
    all_goals
      cases result with
      | none => exact spares_pure (.refl gen)
      | some gen' =>
        have hwrites := hresult gen' rfl
        have h' := h.of_distanceWrites hwrites
        refine Spares.bind Graph.finds_node fun n _ hn => ?_
        split
        · exact spares_pure hwrites
        split
        · refine Spares.bind Graph.finds_node fun m _ _ => ?_
          split
          · exact Spares.bind (finds_demand fun h => h) fun _ _ _ =>
              (ih h').mono fun _ _ hlater => hwrites.trans hlater
          · exact Spares.bind (finds_demand fun h => h) fun _ _ _ =>
              Spares.bind Distance.finds_succ fun _ _ _ =>
                (ih h').mono fun _ _ hlater => hwrites.trans hlater
        · exact spares_pure hwrites

theorem finds_settlePath (h : gen.Furnished) (hgoal : ∃ n, gen.graph.get? goal = some n) :
    Finds (gen.settlePath run goal) fun gen' => gen.DistanceWrites gen' :=
  Spares.bind (h.finds_distance hgoal) fun _ _ _ => Spares.bind (finds_demand fun h => h) fun _ _ _ =>
    Spares.bind (h.finds_climb _) fun _ _ hwrites =>
      (h.of_distanceWrites hwrites).finds_deriveFrom.mono fun _ _ hlater => hwrites.trans hlater

/-- What is open below a node is in the graph. -/
theorem finds_openBelow (h : gen.Furnished) (hn : gen.graph.get? id = some n) :
    Finds (gen.openBelow id n) fun below => ∀ i ∈ below, ∃ m, gen.graph.get? i = some m := by
  refine Spares.bind (h.finds_heuristic ⟨n, hn⟩) fun _ _ _ => ?_
  split
  · exact spares_pure (by simp)
  split
  · rename_i coverer hcovering
    exact spares_pure (by simpa using h.exists_coverer hn hcovering)
  split
  · exact spares_pure fun i hi => h.exists_succ hn hi
  · exact Spares.bind (finds_demand fun h => h) fun _ _ _ => spares_pure (by simp)

theorem finds_sinkWithin (h : gen.Furnished) (steps : Nat) {visited queue beside : List NodeId}
    (hqueue : ∀ i ∈ queue, ∃ n, gen.graph.get? i = some n) :
    Finds (gen.sinkWithin steps visited queue beside) fun result => gen.DistanceWrites result.1 := by
  induction steps generalizing gen visited queue beside with
  | zero => exact spares_pure (.refl gen)
  | succ steps ih =>
    cases queue with
    | nil => exact spares_pure (.refl gen)
    | cons id rest =>
      obtain ⟨hid, hrest⟩ := List.forall_mem_cons.1 hqueue
      unfold sinkWithin
      split
      · exact ih h hrest
      refine Spares.bind (h.finds_distance hid) fun known _ _ => ?_
      split
      · exact Spares.bind (finds_demand fun h => h) fun _ _ _ => ih h hrest
      refine Spares.bind Graph.finds_node fun n _ hn => Spares.bind (finds_demand fun h => h)
        fun _ _ _ => Spares.bind (h.finds_unsettled fun i hi => h.exists_covered hn hi) fun _ _ _ =>
          Spares.bind h.finds_setDistance fun gen' _ hwrites => ?_
      have h' := h.of_distanceWrites hwrites
      have hn' : gen'.graph.get? id = some n := hwrites.graph ▸ hn
      refine Spares.bind (h'.finds_openBelow hn') fun below _ hbelow => ?_
      refine (ih h' fun i hi => ?_).mono fun _ _ hlater => hwrites.trans hlater
      exact (List.mem_append.1 hi).elim (fun hi => hwrites.graph ▸ hrest i hi) (hbelow i)

theorem finds_checkReachedOrder (h : gen.Furnished) (reached : List NodeId) :
    Finds (gen.checkReachedOrder run reached) fun _ => True := by
  have hlength : ∀ i, Finds (run.distanceUntilTarget gen i) fun _ => True := by
    intro i
    unfold SearchRun.distanceUntilTarget
    split
    · refine Spares.bind Graph.finds_node fun n _ hn => ?_
      split
      · exact spares_pure trivial
      · exact Spares.bind (h.finds_distance ⟨n, hn⟩) fun _ _ _ =>
          Spares.bind Distance.finds_value fun _ _ _ => spares_pure trivial
    · exact finds_throw fun h => h
  induction reached with
  | nil => exact spares_pure trivial
  | cons first rest ih =>
    cases rest with
    | nil => exact spares_pure trivial
    | cons second rest =>
      exact Spares.bind (hlength first) fun _ _ _ => Spares.bind (hlength second) fun _ _ _ =>
        Spares.bind (finds_demand fun h => h) fun _ _ _ => ih

/-- **A guided search is turned into distances without missing a search node.** -/
theorem finds_settleGuided (h : gen.Furnished)
    (hstart : ∀ i ∈ run.start, ∃ n, gen.graph.get? i = some n)
    (hreached : ∀ i ∈ run.reached, ∃ n, gen.graph.get? i = some n) :
    Finds (gen.settleGuided run) fun gen' => gen.DistanceWrites gen' := by
  unfold settleGuided
  split
  · exact Spares.bind (h.finds_sinkWithin _ hstart) fun _ _ hwrites =>
      (h.of_distanceWrites hwrites).finds_deriveFrom.mono fun _ _ hlater => hwrites.trans hlater
  refine Spares.bind (h.finds_checkReachedOrder _) fun _ _ _ => ?_
  refine Spares.bind (Spares.foldlM (motive := gen.DistanceWrites) (fun mid i _ hwrites => ?_)
    (.refl gen)) fun gen₁ _ hwrites₁ => ?_
  · refine Spares.bind Graph.finds_node fun n _ _ => ?_
    split
    · exact (h.of_distanceWrites hwrites).finds_setDistance.mono fun _ _ hlater =>
        hwrites.trans hlater
    · exact spares_pure hwrites
  refine Spares.bind (Spares.foldlM (motive := gen.DistanceWrites) (fun mid i hi hwrites => ?_)
    hwrites₁) fun gen₂ _ hwrites₂ => ?_
  · exact ((h.of_distanceWrites hwrites).finds_settlePath (hwrites.graph ▸ hreached i hi)).mono
      fun _ _ hlater => hwrites.trans hlater
  · exact (h.of_distanceWrites hwrites₂).finds_deriveFromDeadEnds.mono fun _ _ hlater =>
      hwrites₂.trans hlater

/-! ### Exhaustive searches -/

theorem finds_spreadWithin (h : gen.Furnished) (steps : Nat) {queue : List (NodeId × Nat)}
    (hqueue : ∀ entry ∈ queue, ∃ n, gen.graph.get? entry.1 = some n) :
    Finds (gen.spreadWithin steps queue) fun gen' => gen.DistanceWrites gen' := by
  induction steps generalizing gen queue with
  | zero => exact spares_pure (.refl gen)
  | succ steps ih =>
    cases queue with
    | nil => exact spares_pure (.refl gen)
    | cons entry rest =>
      obtain ⟨id, distance⟩ := entry
      obtain ⟨hid, hrest⟩ := List.forall_mem_cons.1 hqueue
      refine Spares.bind (h.finds_isSettled hid) fun settled _ _ => ?_
      split
      · exact ih h hrest
      refine Spares.bind h.finds_setDistance fun gen' _ hwrites =>
        Spares.bind Graph.finds_node fun n _ hn => ?_
      have h' := h.of_distanceWrites hwrites
      refine (ih h' fun entry hentry => ?_).mono fun _ _ hlater => hwrites.trans hlater
      simp only [List.mem_append, List.mem_map, List.mem_reverse, Option.mem_toList] at hentry
      obtain (⟨i, hi, rfl⟩ | hentry) | ⟨i, hi, rfl⟩ := hentry
      · exact h'.exists_covered hn hi
      · exact hwrites.graph ▸ hrest entry hentry
      · exact h'.exists_parent hn hi

/-- **An exhaustive search is turned into distances without missing a search node.** -/
theorem finds_settleExhaustive (h : gen.Furnished) :
    Finds (gen.settleExhaustive run) fun gen' => gen.DistanceWrites gen' := by
  unfold settleExhaustive
  refine Spares.bind (Spares.forM fun i _ => Spares.bind Graph.finds_node fun _ _ _ =>
    (finds_demand ?_).mono fun _ _ _ => trivial) fun _ _ _ => ?_
  · exact fun h => h
  refine Spares.bind (h.finds_spreadWithin _ fun entry hentry => ?_) fun gen₁ _ hwrites₁ => ?_
  · obtain ⟨i, hi, rfl⟩ := List.mem_map.1 hentry
    exact Graph.mem_ids.1 (List.mem_of_mem_filter hi)
  have h₁ := h.of_distanceWrites hwrites₁
  refine Spares.bind (h₁.finds_unsettled fun i hi => Graph.mem_ids.1 hi) fun _ _ _ => ?_
  exact Spares.foldlM (motive := gen.DistanceWrites) (fun mid i _ hwrites =>
    (h.of_distanceWrites hwrites).finds_setDistance.mono fun _ _ hlater => hwrites.trans hlater)
    hwrites₁

end Furnished

end Generation

end GuidedReach
