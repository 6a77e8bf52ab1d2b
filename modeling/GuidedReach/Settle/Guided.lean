import GuidedReach.SearchRun
import GuidedReach.Settle.Derive

/-!
# Distances from a guided search

A guided search ends with the nodes it found to reach a target. Distances are assigned along the
search paths up to those nodes; if there are none, nothing below the start nodes reaches a target.
Then whatever follows is assigned as well.

* `Generation.settlePath` — walks up a search path and assigns the lengths below.
* `Generation.settleUnreachable` — everything below the start nodes is infinitely far away.
* `Generation.settleGuided` — turns a finished guided search into distances.
-/

namespace GuidedReach.Generation

variable {S P K : Type}

/-- Whether some successor of an expanded node gives it a distance below the given one. -/
def hasShorterPath (gen : Generation S P K) (node : Node S) (distance : Distance) :
    Except Fault Bool := do
  if !node.isExpanded then return false
  node.succs.anyM fun succ => do
    let below ← gen.distance succ
    if below.isFinite then (← below.succ).lt distance else return false

/-- Assign a distance to a node above `goal` on its search path. The walk ends, and there is no
result, at a node that is settled or has a shorter path. -/
def assignOnPath (gen : Generation S P K) (goal id : NodeId) (distance : Distance) :
    Except Fault (Option (Generation S P K)) := do
  let node ← gen.graph.node id
  demand (!node.isTarget) (.targetOnPath id goal)
  let known ← gen.distance id
  if known.isKnown then
    demand (← known.le distance) (.shorterPathKnownWrong id known goal distance)
    return none
  if ← gen.hasShorterPath node distance then return none
  return some (← gen.setDistance id distance)

/-- The nodes other than the search parent whose distances may follow from that of a node. -/
def offPath (node : Node S) (parent : Option NodeId) : List NodeId :=
  node.covered.filter (some · != parent) ++ node.parent.toList.filter (some · != parent)

/-- Walk up the search parents from `id`, assigning the length of the path down to `goal`. Returns
the nodes beside the path, from which more may follow. -/
def climb (gen : Generation S P K) (run : SearchRun) (goal : NodeId) :
    (steps : Nat) → (id : NodeId) → Distance → (beside : List NodeId) →
      Except Fault (Generation S P K × List NodeId)
  | 0, _, _, beside => return (gen, beside)
  | steps + 1, id, distance, beside => do
    let some gen ← if id = goal then pure (some gen) else gen.assignOnPath goal id distance
      | return (gen, beside)
    let node ← gen.graph.node id
    let above := run.parent? id
    let beside := beside ++ offPath node above
    if run.start.contains id then return (gen, beside)
    let some parent := above | return (gen, beside)
    if (← gen.graph.node parent).covering = some id then
      demand (node.covered.contains parent) (.oneSidedCovering parent id)
      climb gen run goal steps parent distance beside
    else
      demand (node.parent == some parent) (.strayPathParent id)
      climb gen run goal steps parent (← distance.succ) beside

/-- Assign distances along the search path up from a reached node, and whatever follows. Above the
goal, every step of the walk settles another node, so the steps suffice. -/
def settlePath (gen : Generation S P K) (run : SearchRun) (goal : NodeId) :
    Except Fault (Generation S P K) := do
  let distance ← gen.distance goal
  demand distance.isFinite (.reachedWithoutDistance goal)
  let (gen, beside) ← gen.climb run goal (2 * gen.graph.size + 2) goal distance []
  gen.deriveFrom beside

/-- What still has to be explored below a node that reaches no target. -/
def openBelow (gen : Generation S P K) (id : NodeId) (node : Node S) :
    Except Fault (List NodeId) := do
  if (← gen.heuristic id).isInfinite then return []
  match node.covering with
  | some coverer => return [coverer]
  | none =>
    if node.isExpanded then
      return node.succs
    else
      demand (!node.isFeasible) (.leftUnexplored id)
      return []

/-- Make everything below the nodes of a queue infinitely far away, once. Returns the covered nodes
from which more may follow. -/
def sinkWithin (gen : Generation S P K) :
    (steps : Nat) → (visited : List NodeId) → (queue : List NodeId) → (beside : List NodeId) →
      Except Fault (Generation S P K × List NodeId)
  | 0, _, _, beside | _ + 1, _, [], beside => return (gen, beside)
  | steps + 1, visited, id :: rest, beside => do
    if visited.contains id then
      sinkWithin gen steps visited rest beside
    else
      let known ← gen.distance id
      if known.isKnown then
        demand known.isInfinite (.finiteBelowUnreachable id known)
        sinkWithin gen steps (id :: visited) rest beside
      else
        let node ← gen.graph.node id
        demand (!node.isTarget) (.targetBelowUnreachable id)
        let waiting ← gen.unsettled node.covered
        let gen ← gen.setDistance id .infinite
        let below ← gen.openBelow id node
        sinkWithin gen steps (id :: visited) (rest ++ below) (beside ++ waiting)

/-- Nothing reachable from the start nodes reaches a target. Each node is entered once and adds at
most its successors or its coverer to the queue, so the steps suffice. -/
def settleUnreachable (gen : Generation S P K) (start : List NodeId) :
    Except Fault (Generation S P K) := do
  let (gen, beside) ← gen.sinkWithin (start.length + gen.graph.linkCount) [] start []
  gen.deriveFrom beside

/-- Refuse reached nodes that are out of order. -/
def checkReachedOrder (gen : Generation S P K) (run : SearchRun) : List NodeId → Except Fault Unit
  | first :: second :: rest => do
    let before ← run.distanceUntilTarget gen first
    let after ← run.distanceUntilTarget gen second
    demand (before ≤ after) (.reachedOutOfOrder first second)
    checkReachedOrder gen run (second :: rest)
  | _ => return

/-- Turn a finished guided search into distances. -/
def settleGuided (gen : Generation S P K) (run : SearchRun) : Except Fault (Generation S P K) := do
  if run.reached.isEmpty then
    gen.settleUnreachable run.start
  else
    gen.checkReachedOrder run run.reached
    let gen ← run.reached.foldlM (fun gen id => do
      if (← gen.graph.node id).isTarget then gen.setDistance id .zero else return gen) gen
    let gen ← run.reached.foldlM (fun gen id => gen.settlePath run id) gen
    gen.deriveFromDeadEnds

end GuidedReach.Generation
