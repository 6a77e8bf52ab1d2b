import GuidedReach.Proofs.Checker.Correct
import GuidedReach.Proofs.Refinement.Pivot

/-!
# Refinement makes progress

Nodes get the blocks of the partition that is current when they are created, so a node may keep a block
that has been split since: it is *stale*. A spurious counterexample either splits a block inside the
pivot's, or the pivot is stale, and then it is pruned. No round creates stale nodes, so a loop of rounds
ends.

* `Graph.staleNodes` — the nodes whose states are not blocks of a partition.
* `Checker.Rounds` — what a number of rounds with spurious counterexamples arrives at.
* `Checker.measure` — how many blocks are missing at most, and how many nodes are stale.
* `Checker.Underway` — what holds between rounds.
* `Checker.Underway.explore`, `Checker.Underway.refine` — the two halves of a round.
* `Checker.refinement_progresses` — each spurious counterexample lowers the measure.
-/

namespace GuidedReach

/-! ## Stale nodes -/

namespace Graph

variable {g g' : Graph StateSet} {partition : Partition} {id : NodeId} {n : Node StateSet}

/-- The nodes whose states are not blocks of a partition. -/
def staleNodes (g : Graph StateSet) (partition : Partition) : List NodeId :=
  g.ids.filter (g.test fun n => !partition.blocks.contains n.state)

theorem mem_staleNodes :
    id ∈ g.staleNodes partition ↔ ∃ n, g.get? id = some n ∧ n.state ∉ partition.blocks := by
  simp only [staleNodes, List.mem_filter, mem_ids, test, Option.any_eq_true, Bool.not_eq_true',
    List.contains_eq_mem, decide_eq_false_iff_not]
  constructor
  · rintro ⟨-, n, hn, hstate⟩
    exact ⟨n, hn, hstate⟩
  · rintro ⟨n, hn, hstate⟩
    exact ⟨⟨n, hn⟩, n, hn, hstate⟩

theorem nodup_staleNodes (g : Graph StateSet) (partition : Partition) :
    (g.staleNodes partition).Nodup :=
  (List.nodup_range.filter _).filter _

/-- What is left of a graph has no other stale nodes. -/
theorem Remains.staleNodes_subset (h : g.Remains g') :
    g'.staleNodes partition ⊆ g.staleNodes partition := by
  intro i hi
  obtain ⟨n', hn', hstate⟩ := mem_staleNodes.1 hi
  obtain ⟨n, hn, hsame, -⟩ := h.node hn'
  exact mem_staleNodes.2 ⟨n, hn, hsame ▸ hstate⟩

/-- **Growing under a partition creates no stale nodes.** -/
theorem GrownFrom.staleNodes_subset {system : TransitionSystem}
    (h : g.GrownFrom system.blockAnalysis partition g') (hwf : g'.WellFormed) :
    g'.staleNodes partition ⊆ g.staleNodes partition := by
  intro i hi
  obtain ⟨n', hn', hstate⟩ := mem_staleNodes.1 hi
  cases hold : g.get? i with
  | some n =>
    obtain ⟨n'', hn'', hgrows⟩ := h.grows.node hold
    obtain rfl := Option.some.inj (hn'.symm.trans hn'')
    exact mem_staleNodes.2 ⟨n, hold, hgrows.state ▸ hstate⟩
  | none =>
    exfalso
    cases hparent : n'.parent with
    | none => exact hstate (Partition.mem_meeting.1 (h.root hn' hold hparent)).1
    | some p =>
      obtain ⟨m, hm, -⟩ := hwf.exists_parent hn' hparent
      exact hstate (Partition.mem_meeting.1 (h.child hn' hold hparent hm)).1

end Graph

/-- Two ways lead from the init state to state 3. Beside it, state 4 leads to the target. -/
def TransitionSystem.joined : TransitionSystem where
  states := 6
  init := .ofList [0]
  edges := [(0, 1), (0, 2), (1, 3), (2, 3), (4, 5)]
  targets := .ofList [5]
  succs := adjacency 6 [(0, 1), (0, 2), (1, 3), (2, 3), (4, 5)]
  states_pos := by decide
  states_le := by decide
  init_lt := by decide
  targets_lt := by decide
  edges_lt := by decide
  succs_eq := rfl

/-- The two ways are told apart, but not states 3 and 4. -/
def TransitionSystem.joinedPartition : Partition :=
  (Partition.initial joined).splitAll [[0], [1], [2], [3, 4]]

/-! ## Rounds -/

namespace Checker

open TransitionSystem (joined joinedPartition)

variable {system : TransitionSystem} {config : Config} {first checker explored refined : Checker}
variable {given partition finer : Partition} {fuel n : Nat} {verdict : Verdict}

/-- What a number of rounds arrives at that all find a spurious counterexample. -/
inductive Rounds (fuel : Nat) (first : Checker) (given : Partition) :
    Nat → Checker → Partition → Prop where
  | none : Rounds fuel first given 0 first given
  | spurious {n : Nat} {checker explored refined : Checker} {partition finer : Partition} :
    Rounds fuel first given n checker partition →
      checker.explore fuel partition = .ok (.counterexample, explored) →
      explored.refine partition = .ok (.spurious finer, refined) →
      Rounds fuel first given (n + 1) refined finer

/-- One round of a loop, with a clock that stands still. -/
theorem checkTimed_of_spurious
    (hexplore : checker.explore fuel partition = .ok (.counterexample, explored))
    (hrefine : explored.refine partition = .ok (.spurious finer, refined)) (rounds : Nat) :
    Id.run (checkTimed (pure 0) fuel (rounds + 1) checker partition) =
      Id.run (checkTimed (pure 0) fuel rounds refined finer) := by
  have hstill : (explored.addExploring 0).refine partition = .ok (.spurious finer, refined) := hrefine
  simp only [Checker.checkTimed, hexplore, Id.run_bind, Id.run_pure, Nat.sub_self, hstill]
  rfl

/-- A loop goes through these rounds. -/
theorem Rounds.run_checkTimed (h : Rounds fuel first given n checker partition) (rounds : Nat) :
    Id.run (checkTimed (pure 0) fuel (n + rounds) first given) =
      Id.run (checkTimed (pure 0) fuel rounds checker partition) := by
  induction h generalizing rounds with
  | none => rw [Nat.zero_add]
  | @spurious n _ _ _ _ _ _ hexplore hrefine ih =>
    rw [show n + 1 + rounds = n + (rounds + 1) by omega, ih (rounds + 1)]
    exact checkTimed_of_spurious hexplore hrefine rounds

/-! ## Between rounds -/

/-- Between rounds the checker is ready, and all nodes have blocks of partitions that the current one
comes from. -/
structure Underway (system : TransitionSystem) (partition : Partition) (checker : Checker) : Prop where
  ready : checker.Ready system
  derived : checker.graph.Derived system.blockAnalysis (system.Precedes partition)

theorem Underway.start (system : TransitionSystem) (config : Config) (partition : Partition) :
    (Checker.start system config).Underway system partition :=
  ⟨.start system config, .empty⟩

theorem Underway.wellFormed (h : checker.Underway system partition) : checker.graph.WellFormed :=
  h.ready.abstractor.faithful.wellFormed

/-- **Exploring creates no stale nodes.** -/
theorem Underway.explore (h : checker.Underway system partition)
    (hsplits : (Partition.initial system).SplitsInto partition)
    (hexplore : checker.explore fuel partition = .ok (verdict, explored)) :
    explored.Underway system partition ∧
      explored.graph.staleNodes partition ⊆ checker.graph.staleNodes partition := by
  have hvalid := hsplits.valid (.initial system)
  obtain ⟨hready, -⟩ := h.ready.explore hvalid hexplore
  obtain ⟨grown, hgrown, hwf, hremains⟩ := h.ready.explore_graph hvalid hexplore
  have hderived := hgrown.derived h.wellFormed h.derived ⟨hsplits, .refl⟩
  exact ⟨⟨hready, hremains.derived hderived⟩, fun _ hi =>
    hgrown.staleNodes_subset hwf (hremains.staleNodes_subset hi)⟩

/-- **A spurious counterexample prunes its pivot**, and splits the partition by some of its states. -/
theorem Underway.refine (h : checker.Underway system partition)
    (hsplits : (Partition.initial system).SplitsInto partition)
    (hrefine : checker.refine partition = .ok (.spurious finer, refined)) :
    refined.Underway system finer ∧ ∃ pivot node states, checker.graph.get? pivot = some node ∧
      (Graph.prune pivot).run checker.graph = .ok () refined.graph ∧
      finer = partition.split states ∧ (∀ s, s ∈ states → s ∈ node.state) ∧
      Partition.Divides states node.state := by
  have hready := (h.ready.refine (hsplits.valid (.initial system)) hrefine).1
  simp only [Checker.refine, bind_eq_ok, pure_eq_ok, Prod.mk.injEq] at hrefine
  obtain ⟨⟨_, graph⟩, hresult, rfl, rfl⟩ := hrefine
  have hrun := Edit.result_eq_ok.1 hresult
  rw [h.ready.system_eq] at hrun
  have hfaithful := h.ready.abstractor.faithful
  rw [h.ready.analysis_eq] at hfaithful
  obtain ⟨pivot, node, states, hpivot, hprune, rfl, hsub, hdivides⟩ :=
    TransitionSystem.refine_spurious hfaithful h.derived (fun q hq => hq.valid) hrun
  have hpruned := Graph.prune_ok h.wellFormed hprune
  refine ⟨⟨hready, (Graph.Remains.of_pruned hpruned).derived ?_⟩, pivot, node, states, hpivot, hprune,
    rfl, hsub, hdivides⟩
  exact h.derived.mono fun q hq => hq.split states

/-! ## Progress -/

/-- How many blocks the partition could get at most, and how many nodes are stale. -/
def measure (checker : Checker) (partition : Partition) : Nat ×ₗ Nat :=
  toLex (checker.system.states - partition.size, (checker.graph.staleNodes partition).length)

/-- What a spurious counterexample changes: a block inside the pivot's is divided, or the partition
stays as it is and the pivot was stale. -/
theorem Underway.split_or_stale (h : checker.Underway system partition)
    (hsplits : (Partition.initial system).SplitsInto partition) {pivot : NodeId}
    {node : Node StateSet} {states : StateSet} (hpivot : checker.graph.get? pivot = some node)
    (hsub : ∀ s, s ∈ states → s ∈ node.state) (hdivides : Partition.Divides states node.state) :
    (∃ block, block ∈ partition.blocks ∧ (∀ s, s ∈ block → s ∈ node.state) ∧
        Partition.Divides states block ∧ partition.size < (partition.split states).size) ∨
      partition.split states = partition ∧ pivot ∈ checker.graph.staleNodes partition := by
  have hvalid := hsplits.valid (.initial system)
  by_cases hany : ∃ block, block ∈ partition.blocks ∧ Partition.Divides states block
  · obtain ⟨block, hblock, hdivided⟩ := hany
    refine .inl ⟨block, hblock, ?_, hdivided, Partition.size_lt_split hvalid.nonempty hblock hdivided⟩
    -- the block is part of a block of the partition that the pivot's block comes from
    obtain ⟨q, hq, hnode⟩ := h.derived.exists_block h.wellFormed hpivot
    obtain ⟨b, hb, hpart⟩ := hq.2.exists_block hblock
    obtain ⟨⟨s, hs, hin⟩, -⟩ := hdivided
    rw [← hq.valid.eq_of_mem hb hnode (hpart s hs) (hsub s hin)]
    exact hpart
  · refine .inr ⟨Partition.split_eq_self hvalid.nonempty fun block hblock hdivided =>
      hany ⟨block, hblock, hdivided⟩, Graph.mem_staleNodes.2 ⟨node, hpivot, fun hnode => ?_⟩⟩
    exact hany ⟨node.state, hnode, hdivides⟩

/-- Pruning a stale node leaves fewer of them. -/
theorem length_staleNodes_lt {g g' : Graph StateSet} (hwf : g.WellFormed) {pivot : NodeId}
    (hprune : (Graph.prune pivot).run g = .ok () g') (hpivot : pivot ∈ g.staleNodes partition) :
    (g'.staleNodes partition).length < (g.staleNodes partition).length := by
  have hpruned := Graph.prune_ok hwf hprune
  have hgone : pivot ∉ g'.staleNodes partition := by
    intro hstale
    obtain ⟨n, hn, -⟩ := Graph.mem_staleNodes.1 hstale
    rw [hpruned.get?, if_pos hpruned.subtree.root_mem] at hn
    cases hn
  have hsub : pivot :: g'.staleNodes partition ⊆ g.staleNodes partition :=
    List.cons_subset.2 ⟨hpivot, (Graph.Remains.of_pruned hpruned).staleNodes_subset⟩
  have hnodup : (pivot :: g'.staleNodes partition).Nodup :=
    List.nodup_cons.2 ⟨hgone, g'.nodup_staleNodes partition⟩
  exact (List.subperm_of_subset hnodup hsub).length_le

/-- What a round changes that explores a graph and then prunes the pivot of a spurious counterexample. -/
structure Advances (checker explored refined : Checker) (partition finer : Partition) : Prop where
  measure_lt : refined.measure finer < checker.measure partition
  /-- Exploring created no stale nodes. -/
  no_new_stale : explored.graph.staleNodes partition ⊆ checker.graph.staleNodes partition
  /-- A block inside the pivot's was split, or nothing was split and the pivot was stale. -/
  pivot : ∃ pivot node, explored.graph.get? pivot = some node ∧ refined.graph.get? pivot = none ∧
    ((∃ block states, block ∈ partition.blocks ∧ (∀ s, s ∈ block → s ∈ node.state) ∧
        Partition.Divides states block ∧ finer = partition.split states ∧
        partition.size < finer.size) ∨
      finer = partition ∧ pivot ∈ explored.graph.staleNodes partition)
  size_le : partition.size ≤ finer.size
  size_le_states : finer.size ≤ checker.system.states

/-- **A round with a spurious counterexample advances**: it lowers the measure. -/
theorem Underway.advances (h : checker.Underway system partition)
    (hsplits : (Partition.initial system).SplitsInto partition)
    (hexplore : checker.explore fuel partition = .ok (.counterexample, explored))
    (hrefine : explored.refine partition = .ok (.spurious finer, refined)) :
    Advances checker explored refined partition finer := by
  obtain ⟨hexplored, hstale⟩ := h.explore hsplits hexplore
  obtain ⟨hrefined, pivot, node, states, hpivot, hprune, rfl, hsub, hdivides⟩ :=
    hexplored.refine hsplits hrefine
  have hpruned := Graph.prune_ok hexplored.wellFormed hprune
  have hgone : refined.graph.get? pivot = none := by
    rw [hpruned.get?, if_pos hpruned.subtree.root_mem]
  have hvalid := hsplits.valid (.initial system)
  have hsize := (hvalid.split states).size_le
  have hle : partition.size ≤ (partition.split states).size :=
    Partition.size_le_split hvalid.nonempty
  have hcases := hexplored.split_or_stale hsplits hpivot hsub hdivides
  refine ⟨?_, hstale, ⟨pivot, node, hpivot, hgone, ?_⟩, hle, h.ready.system_eq ▸ hsize⟩
  · unfold measure
    rw [hrefined.ready.system_eq, h.ready.system_eq, Prod.Lex.toLex_lt_toLex]
    rcases hcases with ⟨-, -, -, -, hlt⟩ | ⟨hsame, hpivot'⟩
    · exact .inl (by dsimp only; omega)
    · rw [hsame]
      have hfewer := length_staleNodes_lt hexplored.wellFormed hprune hpivot'
      have hnone := (List.subperm_of_subset (explored.graph.nodup_staleNodes partition) hstale).length_le
      exact .inr ⟨rfl, hfewer.trans_le hnone⟩
  · exact hcases.imp_left fun ⟨block, hblock, hpart, hdivided, hlt⟩ =>
      ⟨block, states, hblock, hpart, hdivided, rfl, hlt⟩

/-- Every round with a spurious counterexample keeps a checker underway. -/
theorem Rounds.underway (h : Rounds fuel (.start system config) given n checker partition)
    (hsplits : (Partition.initial system).SplitsInto given) :
    checker.Underway system partition ∧ (Partition.initial system).SplitsInto partition := by
  induction h with
  | none => exact ⟨.start system config given, hsplits⟩
  | spurious _ hexplore hrefine ih =>
    obtain ⟨hunderway, hsplits⟩ := ih
    obtain ⟨hexplored, -⟩ := hunderway.explore hsplits hexplore
    obtain ⟨hrefined, _, _, states, -, -, rfl, -⟩ := hexplored.refine hsplits hrefine
    exact ⟨hrefined, .split states hsplits⟩

/-- **A loop of rounds ends**, by induction on the measure, unless a check runs out of fuel. -/
theorem Rounds.exists_rounds (h : Rounds fuel (.start system config) given n checker partition)
    (hsplits : (Partition.initial system).SplitsInto given)
    (hchecks : ∀ {n checker partition}, Rounds fuel (.start system config) given n checker partition →
      checker.explore fuel partition ≠ .error .outOfFuel) :
    ∃ rounds, ∀ more, Id.run (checkTimed (pure 0) fuel (rounds + more) checker partition) ≠
      .error .outOfFuel := by
  induction hm : checker.measure partition using WellFoundedLT.induction
    generalizing n checker partition with
  | ind m ih =>
    subst hm
    obtain ⟨hunderway, hsplits'⟩ := h.underway hsplits
    -- one round is enough, unless it finds a spurious counterexample
    have hone : (∀ rounds, Id.run (checkTimed (pure 0) fuel (rounds + 1) checker partition) ≠
        .error .outOfFuel) → ∃ rounds, ∀ more,
          Id.run (checkTimed (pure 0) fuel (rounds + more) checker partition) ≠ .error .outOfFuel :=
      fun hends => ⟨1, fun more => Nat.add_comm more 1 ▸ hends more⟩
    cases hexplore : checker.explore fuel partition with
    | error halt =>
      refine hone fun rounds hfuel => hchecks h ?_
      simp only [Checker.checkTimed, hexplore, Id.run_bind, Id.run_pure, Except.error.injEq] at hfuel
      rw [hexplore, hfuel]
    | ok result =>
      obtain ⟨verdict, explored⟩ := result
      cases verdict with
      | safe => exact hone fun rounds => by simp [Checker.checkTimed, hexplore]
      | counterexample =>
        cases hrefine : explored.refine partition with
        | error fault =>
          have hstill : (explored.addExploring 0).refine partition = .error fault := hrefine
          exact hone fun rounds => by simp [Checker.checkTimed, hexplore, hstill]
        | ok result =>
          obtain ⟨refinement, refined⟩ := result
          cases refinement with
          | feasible trace =>
            have hstill : (explored.addExploring 0).refine partition =
                .ok (.feasible trace, refined) := hrefine
            exact hone fun rounds => by simp [Checker.checkTimed, hexplore, hstill]
          | spurious finer =>
            have hlt := (hunderway.advances hsplits' hexplore hrefine).measure_lt
            obtain ⟨rounds, hrounds⟩ := ih _ hlt (.spurious h hexplore hrefine) rfl
            refine ⟨rounds + 1, fun more => ?_⟩
            rw [Nat.add_right_comm, checkTimed_of_spurious hexplore hrefine]
            exact hrounds more

/-- **Refinement makes progress.** Each spurious counterexample either splits a block inside the pivot's
or prunes a stale pivot where exploring created no stale nodes; so the number of blocks never decreases
and is at most that of the states, and the loop ends once every check returns. -/
theorem refinement_progresses (system : TransitionSystem) (config : Config)
    (hsplits : (Partition.initial system).SplitsInto given) (fuel : Nat) :
    (∀ {n checker explored refined partition finer},
      Rounds fuel (.start system config) given n checker partition →
        checker.explore fuel partition = .ok (.counterexample, explored) →
        explored.refine partition = .ok (.spurious finer, refined) →
        Advances checker explored refined partition finer) ∧
      ((∀ {n checker partition}, Rounds fuel (.start system config) given n checker partition →
          checker.explore fuel partition ≠ .error .outOfFuel) →
        ∃ rounds, ∀ more,
          Id.run (checkTimed (pure 0) fuel (rounds + more) (.start system config) given) ≠
            .error .outOfFuel) := by
  refine ⟨fun hrounds hexplore hrefine => ?_, fun hchecks => Rounds.none.exists_rounds hsplits hchecks⟩
  obtain ⟨hunderway, hsplits'⟩ := hrounds.underway hsplits
  exact hunderway.advances hsplits' hexplore hrefine

/-- In the second round the trace goes through the other node with states 3 and 4, whose block was split
in the first: the partition stays as it is, and the node is pruned. -/
theorem refinement_progresses_joined :
    ∃ checker explored refined, ∃ partition : Partition,
      Rounds 20 (.start joined .standard) joinedPartition 1 checker partition ∧
      checker.explore 20 partition = .ok (.counterexample, explored) ∧
      explored.refine partition = .ok (.spurious partition, refined) ∧
      Advances checker explored refined partition partition := by
  have hsplits : (Partition.initial joined).SplitsInto joinedPartition := .splitAll .refl _
  have hrun : ((start joined .standard).explore 20 joinedPartition >>= fun a =>
      (liftM (a.2.refine joinedPartition) : Except Halt _) >>= fun b =>
      b.2.explore 20 (joinedPartition.split (.ofList [3])) >>= fun c =>
      (liftM (c.2.refine (joinedPartition.split (.ofList [3]))) : Except Halt _) >>= fun d =>
      pure (a.1, b.1, c.1, d.1)) =
        .ok (.counterexample, .spurious (joinedPartition.split (.ofList [3])), .counterexample,
          .spurious (joinedPartition.split (.ofList [3]))) := by
    decide +kernel
  simp only [bind_eq_ok, lift_eq_ok, pure_eq_ok, Prod.mk.injEq] at hrun
  obtain ⟨⟨_, explored⟩, hexplore, ⟨_, refined⟩, hrefine, ⟨_, explored'⟩, hexplore', ⟨_, refined'⟩,
    hrefine', rfl, rfl, rfl, rfl⟩ := hrun
  have hrounds : Rounds 20 (.start joined .standard) joinedPartition 1 refined _ :=
    .spurious .none hexplore hrefine
  exact ⟨refined, explored', refined', _, hrounds, hexplore', hrefine',
    (refinement_progresses joined .standard hsplits 20).1 hrounds hexplore' hrefine'⟩

end Checker

end GuidedReach
