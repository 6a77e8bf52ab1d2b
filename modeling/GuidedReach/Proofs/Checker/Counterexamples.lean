import GuidedReach.Proofs.Checker.Correct
import GuidedReach.Proofs.Refinement.Pivot

/-!
# Refining a checker's graph

Every node of a checker's graph has a block that the abstraction asked for under some partition, so init
blocks have init states. Therefore refining decides each counterexample that a checker comes across.

* `Checker.Sourced` — what holds of a checker between half rounds.
* `Checker.Reached.sourced` — it holds whatever half rounds a checker goes through.
* `Checker.Run.reached` — answers come from half rounds.
* `Checker.refine_decides` — **refining decides the shallowest counterexample of any graph that a checker
  produces**.
-/

namespace GuidedReach.Checker

open TransitionSystem (forked)

variable {system : TransitionSystem} {config : Config} {checker checker' explored refined : Checker}
variable {partition finer : Partition} {fuel rounds : Nat} {verdict : Verdict} {refinement : Refinement}
variable {answer : Answer}

/-- What is known about the graph is sound, and its nodes have blocks of partitions. -/
structure Sourced (system : TransitionSystem) (checker : Checker) : Prop where
  ready : checker.Ready system
  derived : checker.graph.Derived system.blockAnalysis (Partition.Valid system)

namespace Sourced

theorem start (system : TransitionSystem) (config : Config) :
    (Checker.start system config).Sourced system :=
  ⟨.start system config, .empty⟩

theorem wellFormed (h : checker.Sourced system) : checker.graph.WellFormed :=
  h.ready.abstractor.faithful.wellFormed

theorem explore (h : checker.Sourced system) (hvalid : partition.Valid system)
    (hexplore : checker.explore fuel partition = .ok (verdict, explored)) : explored.Sourced system := by
  obtain ⟨grown, hgrown, -, hremains⟩ := h.ready.explore_graph hvalid hexplore
  exact ⟨(h.ready.explore hvalid hexplore).1,
    hremains.derived (hgrown.derived h.wellFormed h.derived hvalid)⟩

/-- Refining a graph that is not safe decides its shallowest counterexample. -/
theorem exists_refinesAlong (h : checker.Sourced system) (hopen : checker.graph.isSafe = false)
    (partition : Partition) :
    ∃ target refinement g', checker.graph.Shallowest target ∧
      (system.refine partition).run checker.graph = .ok refinement g' ∧
      system.RefinesAlong partition checker.graph target refinement g' :=
  TransitionSystem.exists_refinesAlong partition h.wellFormed h.derived.exists_init hopen

/-- What a checker's refinement comes to. -/
theorem refinesAlong (h : checker.Sourced system)
    (hrefine : checker.refine partition = .ok (refinement, refined)) :
    ∃ target, system.RefinesAlong partition checker.graph target refinement refined.graph := by
  simp only [Checker.refine, bind_eq_ok, pure_eq_ok, Prod.mk.injEq] at hrefine
  obtain ⟨⟨_, graph⟩, hresult, rfl, rfl⟩ := hrefine
  have hrun := Edit.result_eq_ok.1 hresult
  rw [h.ready.system_eq] at hrun
  obtain ⟨target, refinement, g', -, hrun', hrefines⟩ :=
    h.exists_refinesAlong (TransitionSystem.isSafe_of_refine hrun) partition
  obtain ⟨rfl, rfl⟩ := EStateM.Result.ok.inj (hrun.symm.trans hrun')
  exact ⟨target, hrefines⟩

theorem refine (h : checker.Sourced system) (hvalid : partition.Valid system)
    (hrefine : checker.refine partition = .ok (refinement, refined)) : refined.Sourced system := by
  refine ⟨(h.ready.refine hvalid hrefine).1, ?_⟩
  obtain ⟨target, hrefines⟩ := h.refinesAlong hrefine
  generalize hgraph : refined.graph = graph at hrefines
  cases hrefines with
  | feasible => exact h.derived
  | spurious _ _ _ _ _ _ hpruned => exact (Graph.Remains.of_pruned hpruned).derived h.derived

end Sourced

/-! ## Half rounds -/

/-- **The graphs of a checker have blocks of partitions**, after any number of half rounds. -/
theorem Reached.sourced (h : Reached system config checker) : checker.Sourced system := by
  induction h with
  | start => exact .start system config
  | explore _ hsplits hexplore ih => exact ih.explore (hsplits.valid (.initial system)) hexplore
  | refine _ hsplits hrefine ih => exact ih.refine (hsplits.valid (.initial system)) hrefine
  | count stats _ ih => exact ⟨ih.ready.count stats, ih.derived⟩

/-- A checker that has found an answer got there by half rounds. -/
theorem Reached.checkTimed {clock : Id Nat} (h : Reached system config checker)
    (hsplits : (Partition.initial system).SplitsInto partition)
    (hcheck : Id.run (checkTimed clock fuel rounds checker partition) = .ok (answer, checker')) :
    Reached system config checker' := by
  induction rounds generalizing checker partition with
  | zero => simp [Checker.checkTimed] at hcheck
  | succ rounds ih =>
    obtain ⟨verdict, explored, exploring, hexplore, hlast | hnext⟩ := checkTimed_ok hcheck
    · obtain ⟨-, -, rfl⟩ := hlast
      exact .count _ (.explore h hsplits hexplore)
    · obtain ⟨refinement, refined, refining, hrefine, hrest⟩ := hnext
      have hexplored : Reached system config (explored.addExploring exploring) :=
        .count _ (.explore h hsplits hexplore)
      have hrefined : Reached system config (refined.addRefining refining) :=
        .count _ (.refine hexplored hsplits hrefine)
      obtain ⟨target, hrefines⟩ := hexplored.sourced.refinesAlong hrefine
      generalize refined.graph = graph at hrefines
      cases hrefines with
      | feasible => exact hrest.2 ▸ hrefined
      | spurious => exact ih hrefined (.split _ hsplits) hrest

/-- **Whatever answers leave behind is reached by half rounds.** -/
theorem Run.reached (h : Run system config checker) : Reached system config checker := by
  induction h with
  | start => exact .start
  | check _ hsplits hcheck ih => exact ih.checkTimed hsplits hcheck

/-! ## Refining -/

/-- **Refining decides the shallowest counterexample.** In any graph that a checker produces and that is
not safe, refining takes the open target of least depth, and of least number among those. It finds a path
through the blocks of the trace to a target just in case there is one, and leaves the graph as it is;
otherwise it splits the partition by the states in which the longest paths end, and takes away the subtree
of the node that they get to. It meets no fault. -/
theorem refine_decides (hreached : Reached system config checker)
    (hopen : checker.graph.isSafe = false) (partition : Partition) :
    ∃ target refinement g', checker.graph.Shallowest target ∧
      (system.refine partition).run checker.graph = .ok refinement g' ∧
      system.RefinesAlong partition checker.graph target refinement g' ∧
      ((∃ path, refinement = .feasible path) ↔
        ∃ path, system.FeasibleAlong (checker.graph.statesOf (checker.graph.traceTo target)) path) := by
  obtain ⟨target, refinement, g', htarget, hrun, hrefines⟩ :=
    hreached.sourced.exists_refinesAlong hopen partition
  exact ⟨target, refinement, g', htarget, hrun, hrefines, hrefines.feasible_iff⟩

/-- The first counterexample of the fork is spurious, and the next one is real. -/
theorem refine_decides_forked :
    ∃ first second target target' g g',
      Reached forked .standard first ∧ first.graph.isSafe = false ∧
      forked.RefinesAlong (.initial forked) first.graph target
        (.spurious ((Partition.initial forked).split (.ofList [0]))) g ∧
      Reached forked .standard second ∧ second.graph.isSafe = false ∧
      forked.RefinesAlong ((Partition.initial forked).split (.ofList [0])) second.graph target'
        (.feasible [0, 2, 3]) g' := by
  let finer := (Partition.initial forked).split (.ofList [0])
  have hrounds : ((Checker.start forked .standard).explore 9 (.initial forked) >>= fun a =>
      (liftM (a.2.refine (.initial forked)) : Except Halt _) >>= fun b =>
      b.2.explore 9 finer >>= fun c =>
      (liftM (c.2.refine finer) : Except Halt _) >>= fun d =>
      pure (a.2.graph.isSafe, b.1, c.2.graph.isSafe, d.1)) =
        .ok (false, .spurious finer, false, .feasible [0, 2, 3]) := by
    decide +kernel
  simp only [bind_eq_ok, lift_eq_ok, pure_eq_ok, Prod.mk.injEq] at hrounds
  obtain ⟨⟨_, first⟩, hexplore, ⟨_, refined⟩, hrefine, ⟨_, second⟩, hexplore', ⟨_, last⟩, hrefine',
    hopen, rfl, hopen', rfl⟩ := hrounds
  have hfirst : Reached forked .standard first := .explore .start .refl hexplore
  have hsplits : (Partition.initial forked).SplitsInto finer := .split _ .refl
  have hsecond : Reached forked .standard second :=
    .explore (.refine hfirst .refl hrefine) hsplits hexplore'
  -- what a checker refines to is what refining its graph yields
  have hrun : ∀ {checker refined : Checker} {partition : Partition} {refinement : Refinement},
      Reached forked .standard checker → checker.refine partition = .ok (refinement, refined) →
        (forked.refine partition).run checker.graph = .ok refinement refined.graph := by
    intro checker refined partition refinement hreached h
    simp only [Checker.refine, bind_eq_ok, pure_eq_ok, Prod.mk.injEq] at h
    obtain ⟨⟨_, graph⟩, hresult, rfl, rfl⟩ := h
    exact hreached.sourced.ready.system_eq ▸ Edit.result_eq_ok.1 hresult
  obtain ⟨target, _, g, -, hrun₁, hrefines, -⟩ := refine_decides hfirst hopen (.initial forked)
  obtain ⟨target', _, g', -, hrun₂, hrefines', -⟩ := refine_decides hsecond hopen' finer
  obtain ⟨rfl, -⟩ := EStateM.Result.ok.inj (hrun₁.symm.trans (hrun hfirst hrefine))
  obtain ⟨rfl, -⟩ := EStateM.Result.ok.inj (hrun₂.symm.trans (hrun hsecond hrefine'))
  exact ⟨first, second, target, target', g, g', hfirst, hopen, hrefines, hsecond, hopen', hrefines'⟩

end GuidedReach.Checker
