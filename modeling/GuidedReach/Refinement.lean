import GuidedReach.Graph.Edit
import GuidedReach.Partition.Basic
import GuidedReach.TransitionSystem.Paths

/-!
# Refining a partition along a counterexample

`TransitionSystem.refine` replays the shallowest abstract counterexample of a graph. It is either
matched by a concrete path to a target, or spurious. Then the partition is split by the states that
paths can reach at the last step that still has any, and the graph is pruned at that step.
-/

namespace GuidedReach

/-- What replaying a counterexample shows. -/
inductive Refinement where
  /-- No concrete path matches it; the partition is finer now. -/
  | spurious (partition : Partition)
  /-- A concrete path from an init state to a target. -/
  | feasible (trace : List Nat)
  deriving DecidableEq, Repr

/-- The first of the given nodes that has the least depth. -/
def Graph.shallowest? {S : Type} (g : Graph S) : List NodeId → Option NodeId
  | [] => none
  | first :: rest =>
    let depth id := ((g.get? id).map (·.depth)).getD 0
    some (rest.foldl (fun best id => if depth id < depth best then id else best) first)

/-- Replay the shallowest counterexample of a graph, and refine the partition and prune the graph
if it is spurious. -/
def TransitionSystem.refine (system : TransitionSystem) (partition : Partition) :
    Edit (Graph StateSet) Refinement := do
  let g ← get
  let some target := g.shallowest? g.unsafeNodes | throw .nothingToRefine
  let nodes := g.traceTo target
  let blocks := g.statesOf nodes
  match system.concreteTrace blocks with
  | some trace => return .feasible trace
  | none =>
    let reach := (system.replay blocks).takeWhile fun set => !set.isEmpty
    match reach.getLast?, nodes[reach.length - 1]? with
    | some states, some node =>
      Graph.prune node
      return .spurious (partition.split states)
    | _, _ => throw (.noInitState (blocks.headD .empty))

end GuidedReach
