import GuidedReach.Proofs.Abstractor.HandedBack
import GuidedReach.Proofs.Abstractor.Refinement
import GuidedReach.Proofs.Exploration.Justified

/-!
# What a check leaves unexplored

A check ends once an init node is known to reach a target, or once it has explored the graph. It does
not look below nodes with infinite heuristics, from which no target can be reached. So in later rounds,
after the caller has pruned the graph, a solved generation need not count as complete.

* `Abstractor.Ready.explores` — a check finds a target or explores its graph.
* `Abstractor.unexplored_below_infinite_heuristics` — what is left open in refinement runs.
* `Abstractor.solved_generation_incomplete` — so some solved generations are not complete.
-/

namespace GuidedReach

/-- Three states in a row, and no target. -/
def TransitionSystem.harmless : TransitionSystem where
  states := 3
  init := .ofList [0]
  edges := [(0, 1), (1, 2)]
  targets := .ofList []
  succs := adjacency 3 [(0, 1), (1, 2)]
  states_pos := by decide
  states_le := by decide
  init_lt := by decide
  targets_lt := by decide
  edges_lt := by decide
  succs_eq := rfl

namespace Abstractor

variable {S P K : Type} {allowed : P → Prop} {dead : S → Prop}

/-- **A check finds a target or explores its graph.** -/
theorem Ready.explores [DecidableEq S] [DecidableEq K] {abstractor abstractor' : Abstractor S P K}
    {g g' : Graph S} {prec : P} {fuel : Nat} {verdict : Verdict}
    (h : Ready allowed dead abstractor g) (hprec : allowed prec)
    (hlaws : abstractor.analysis.Lawful) (hrefutes : abstractor.analysis.Refutes allowed dead)
    (hcheck : abstractor.check fuel g prec = .ok (verdict, abstractor', g')) :
    ∃ gen, abstractor'.solved? = some gen ∧ gen.graph.WellFormed ∧
      ((∃ i ∈ gen.graph.initNodes, ∃ m, gen.distance i = .ok (.finite m)) ∨ gen.Explored) := by
  obtain ⟨index, fresh, begun, solved, frozen, resumed, last, live, hcourse, -, -, -, -, hhistory,
    rfl⟩ := check_ok hcheck
  obtain ⟨rfl, -, first, hfirst, hgraph, -, hsound, hunknown⟩ := h.begins hprec hcourse
  obtain ⟨last', hlast, hexplored⟩ := Exploration.solveLive_explores hlaws hrefutes hsound hfirst
    abstractor.config.full_sees_all hunknown hcourse.solve
  obtain rfl := Option.some.inj (hcourse.last.symm.trans hlast)
  have hwf := ((h.solves hprec hcourse hlaws hrefutes).1.sound.faithful _ _ hcourse.last).1.wellFormed
  obtain ⟨gen, hgen, rfl | rfl, -⟩ := hcourse.leaves h.faithful.wellFormed hhistory
  · exact ⟨gen, hgen, hwf, hexplored⟩
  · refine ⟨last.releaseProvider, hgen, hwf, hexplored.imp ?_ fun hexplored => ?_⟩
    · simp only [last.distance_releaseProvider]
      exact id
    · refine hexplored.congr rfl fun {i d} => ?_
      rw [last.heuristic_releaseProvider]

/-! ## Refinement runs -/

open TransitionSystem (harmless)

variable {system : TransitionSystem} {config : Config} {partition : Partition}
variable {last : Option Partition} {abstractor : Abstractor StateSet Partition Unit}
variable {g : Graph StateSet}

/-- Pruning changes nothing about the generation that was solved. -/
theorem RefinementRun.explored (h : RefinementRun system config last abstractor g)
    (hchecked : last.isSome = true) :
    ∃ gen, abstractor.solved? = some gen ∧ gen.graph.WellFormed ∧
      ((∃ i ∈ gen.graph.initNodes, ∃ m, gen.distance i = .ok (.finite m)) ∨ gen.Explored) := by
  induction h with
  | start => cases hchecked
  | prune _ _ ih => exact ih hchecked
  | pruneAll _ _ ih => exact ih hchecked
  | check hrun hfollows hcheck _ =>
    obtain ⟨hready, hanalysis, -, hvalid⟩ := Ready.of_refinementRun hrun
    exact hready.explores (hfollows.valid hvalid) (hanalysis ▸ system.blockAnalysis_lawful)
      (hanalysis ▸ system.blockAnalysis_refutes) hcheck

/-- **What a check leaves open lies below an infinite heuristic.** After every check of a refinement run,
an init node has a finite distance; or every node is expanded that is no target and not excluded, if
neither it nor a node above it has an infinite heuristic. -/
theorem unexplored_below_infinite_heuristics
    (h : RefinementRun system config (some partition) abstractor g) :
    ∃ gen, abstractor.solved? = some gen ∧
      ((∃ i ∈ gen.graph.initNodes, ∃ m, gen.distance i = .ok (.finite m)) ∨
        ∀ i n, gen.graph.get? i = some n → n.isTarget = false → gen.graph.isExcluded i = false →
          (∀ x ∈ gen.graph.ancestors i, gen.heuristic x ≠ .ok .infinite) → n.isExpanded = true) := by
  obtain ⟨gen, hgen, hwf, hexplored⟩ := RefinementRun.explored h rfl
  refine ⟨gen, hgen, hexplored.imp_right fun hexplored i n hn _ hincluded hfinite => ?_⟩
  rcases hexplored i n hn with hexpanded | hsubsumed | ⟨x, hx, hinfinite⟩
  · exact hexpanded
  · -- a covered or empty node excludes itself
    have hself := List.any_eq_false.1 hincluded i (hwf.self_mem_ancestors hn)
    simp [Graph.test, hn, hsubsumed] at hself
  · exact absurd hinfinite (hfinite x hx)

/-- In a first round no heuristic is infinite, so without targets all nodes are expanded. -/
theorem unexplored_below_infinite_heuristics_harmless :
    ∃ partition abstractor g gen n, RefinementRun harmless .standard (some partition) abstractor g ∧
      abstractor.solved? = some gen ∧ gen.graph.get? 1 = some n ∧ n.isExpanded = true := by
  let partition := (Partition.initial harmless).split (.ofList [0])
  have hround : (check { analysis := harmless.blockAnalysis, config := .standard } 9 {} partition).map
      (fun round => do
        let gen ← round.2.1.solved?
        let n ← gen.graph.get? 1
        return decide (gen.graph.initNodes = [0] ∧ gen.distance 0 = .ok .infinite ∧
          n.isTarget = false ∧ gen.graph.isExcluded 1 = false ∧ gen.graph.ancestors 1 = [1, 0] ∧
          gen.heuristic 0 = .ok .zero ∧ gen.heuristic 1 = .ok .zero)) = .ok (some true) := by
    decide +kernel
  obtain ⟨⟨_, abstractor, g⟩, hcheck, hround⟩ := map_eq_ok.1 hround
  simp only [Option.bind_eq_bind, Option.bind_eq_some_iff, Option.pure_def, Option.some.injEq,
    decide_eq_true_eq] at hround
  obtain ⟨gen, hgen, n, hn, hinit, hdistance, htarget, hincluded, habove, hzero, hone⟩ := hround
  have hrun : RefinementRun harmless .standard (some partition) abstractor g :=
    .check .start (.split _ .refl) hcheck
  obtain ⟨gen', hgen', ⟨i, hi, m, hm⟩ | hall⟩ := unexplored_below_infinite_heuristics hrun
  all_goals obtain rfl := Option.some.inj (hgen.symm.trans hgen')
  · rw [hinit, List.mem_singleton] at hi
    rw [hi, hdistance] at hm
    cases hm
  · refine ⟨partition, abstractor, g, gen, n, hrun, hgen, hn, hall 1 n hn htarget hincluded ?_⟩
    rw [habove]
    intro x hx
    obtain rfl | rfl : x = 1 ∨ x = 0 := by simpa using hx
    · simp [hone, Distance.zero]
    · simp [hzero, Distance.zero]

/-- **A solved generation may be incomplete**, with no finite distance of an init node. After the first
round nothing reaches a target. The caller prunes the last node; the second round creates it again, as
the successor of a node from which no target is reached. It gets an infinite heuristic and stays open. -/
theorem solved_generation_incomplete :
    ∃ partition abstractor g gen,
      RefinementRun harmless ⟨.semiOnDemand, .fullExploration, by decide, by decide⟩ (some partition)
        abstractor g ∧ abstractor.solved? = some gen ∧ gen.isSolved = .ok false := by
  let config : Config := ⟨.semiOnDemand, .fullExploration, by decide, by decide⟩
  let partition := (((Partition.initial harmless).split (.ofList [0])).split (.ofList [1])).split
    (.ofList [2])
  have hrounds : (check { analysis := harmless.blockAnalysis, config } 9 {} partition).map
      (fun first => (Graph.prune 2).result first.2.2 |>.map fun pruned =>
        (first.2.1.check 9 pruned.2 partition).map fun second => do
          let gen ← second.2.1.solved?
          return decide (gen.isSolved = .ok false)) = .ok (.ok (.ok (some true))) := by
    decide +kernel
  obtain ⟨⟨_, abstractor, g⟩, hfirst, hrounds⟩ := map_eq_ok.1 hrounds
  obtain ⟨⟨⟨⟩, g'⟩, hprune, hrounds⟩ := map_eq_ok.1 hrounds
  obtain ⟨⟨_, abstractor', g''⟩, hsecond, hrounds⟩ := map_eq_ok.1 hrounds
  simp only [Option.bind_eq_bind, Option.bind_eq_some_iff, Option.pure_def, Option.some.injEq,
    decide_eq_true_eq] at hrounds
  obtain ⟨gen, hgen, hsolved⟩ := hrounds
  have hrun : RefinementRun harmless config (some partition) abstractor g' :=
    .prune (.check .start (.split _ (.split _ (.split _ .refl))) hfirst) (Edit.result_eq_ok.1 hprune)
  exact ⟨partition, abstractor', g'', gen, .check hrun .refl hsecond, hgen, hsolved⟩

end Abstractor

end GuidedReach
