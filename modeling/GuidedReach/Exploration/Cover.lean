import GuidedReach.Exploration.Heuristic

/-!
# Covering nodes

An open node may be covered by another node of its generation whose state subsumes it and whose
heuristic is at least as large, so that nothing is lost by exploring the other node instead.

* `close` — tries to cover a node by one of its covering candidates.
-/

namespace GuidedReach.Exploration

open Explore

variable {S P K : Type} [DecidableEq K]
variable (setup : Setup S P K) (older : Older S P K) (index : Nat)

/-- Cover a node by the first of the given candidates that may cover it and whose heuristic is not
below the node's; a target only by a target. Returns the new coverer. -/
def coverByOneOf (id : NodeId) (isTarget : Bool) (heuristic : Distance) :
    List NodeId → Explore S P K (Option NodeId)
  | [] => return none
  | candidate :: rest => do
    let gen ← generation index
    if isTarget && !(← gen.graph.node candidate).isTarget then
      coverByOneOf id isTarget heuristic rest
    else if !(← gen.graph.mayCover setup.analysis id candidate) then
      coverByOneOf id isTarget heuristic rest
    else if ← (← ensureHeuristic setup older index candidate).lt heuristic then
      coverByOneOf id isTarget heuristic rest
    else
      editGraph index (Graph.cover id candidate)
      count fun stats => { stats with covered := stats.covered + 1 }
      return some candidate

/-- Try to cover an open node. Returns the new coverer. -/
def close (id : NodeId) : Explore S P K (Option NodeId) := do
  let gen ← generation index
  let node ← gen.graph.node id
  if node.isCovered || node.isExpanded || !node.isLeaf then return none
  let heuristic ← gen.heuristic id
  demand heuristic.isKnown (.closedWithoutHeuristic id)
  let candidates ← gen.coveringCandidates setup.analysis id
  coverByOneOf setup older index id node.isTarget heuristic candidates

end GuidedReach.Exploration
