import GuidedReach.Generation
import GuidedReach.StopCriterion

/-!
# One run of the distance search

A `SearchRun` looks for the targets nearest to its start nodes. Nodes wait in a list ordered by
their estimated path length: the depth at which they were found plus their distance, if it is
finite, or else their heuristic. Among equal estimates nodes that reach a target go first, then
nodes with a heuristic of 0 or 1, then those that have waited longer.

* `Entry.before` — the order of the waitlist.
* `SearchRun.enqueue` — lets a node wait, unless it was already seen at this depth or above.
* `SearchRun.next` — hands out the next node to visit.
* `SearchRun.distanceUntilTarget` — the length of the path through a node to its nearest target.
-/

namespace GuidedReach

/-- A waiting node. Its weight and flags stay as they were when it was enqueued. -/
structure Entry where
  node : NodeId
  depth : Nat
  /-- The estimated length of the path through the node to a target. -/
  weight : Nat
  reachesTarget : Bool
  /-- Whether the heuristic is 0 or 1. -/
  hasSmallHeuristic : Bool
  /-- The number of entries made before this one. -/
  serial : Nat
  deriving DecidableEq, Repr

/-- Whether an entry is handed out before another one. -/
def Entry.before (a b : Entry) : Bool :=
  if a.weight ≠ b.weight then a.weight < b.weight
  else if a.reachesTarget ≠ b.reachesTarget then a.reachesTarget
  else if a.hasSmallHeuristic ≠ b.hasSmallHeuristic then a.hasSmallHeuristic
  else a.serial < b.serial

/-- Put an entry into its place in an ordered waitlist. -/
def Entry.insert (entry : Entry) : List Entry → List Entry
  | [] => [entry]
  | first :: rest =>
    if entry.before first then entry :: first :: rest else first :: Entry.insert entry rest

/-- The state of one search. -/
structure SearchRun where
  start : List NodeId
  stop : StopCriterion
  /-- Waiting entries, the next one first. A node that was found again at a smaller depth has a
  stale entry as well. -/
  waitlist : List Entry := []
  /-- The nodes that were handed out or recorded as reached, oldest first. -/
  finished : List NodeId := []
  /-- The least depth at which each node was found. -/
  depths : NodeMap Nat := {}
  /-- The node from which each node was found at that depth. -/
  parents : NodeMap (Option NodeId) := {}
  /-- The nodes that reach a target, in the order in which they were finished. -/
  reached : List NodeId := []
  /-- The number of entries made so far. -/
  serial : Nat := 0
  deriving DecidableEq, Repr

namespace SearchRun

variable {S P K : Type}

/-- The node from which a node was found; start nodes and nodes never found have none. -/
def parent? (run : SearchRun) (id : NodeId) : Option NodeId := (run.parents.get? id).join

/-- The least depth at which a node was found. -/
def depth? (run : SearchRun) (id : NodeId) : Option Nat := run.depths.get? id

def forgetParent (run : SearchRun) (id : NodeId) : SearchRun :=
  { run with parents := run.parents.erase id }

/-- Record that a node was found, if that is news: not if it is finished, which is refused when it
was finished at a larger depth, and not if it was found at this depth or above. -/
def find (id : NodeId) (parent : Option NodeId) (depth : Nat) : Edit SearchRun Bool := do
  let run ← get
  if run.finished.contains id then
    match run.depth? id with
    | some old => demand (old ≤ depth) (.finishedTooDeep id old depth)
    | none => throw .neverEnqueued
    return false
  else if (run.depth? id).any (· ≤ depth) then
    return false
  else
    set { run with
      depths := run.depths.insert id depth
      parents := run.parents.insert id parent }
    return true

/-- Let a node wait that was found at a depth. Its heuristic must be known; a node that cannot reach
a target is left out. -/
def enqueue (gen : Generation S P K) (id : NodeId) (parent : Option NodeId) (depth : Nat) :
    Edit SearchRun Unit := do
  let known ← gen.searchNode id
  demand known.heuristic.isKnown (.noHeuristicToEnqueue id)
  if known.heuristic.isInfinite || known.distance.isInfinite then return
  if ← find id parent depth then
    let estimate := if known.distance.isFinite then known.distance else known.heuristic
    let weight ← (← estimate.add depth).value
    let reachesTarget ← gen.reachesTarget id
    let hasSmallHeuristic ← known.heuristic.le (.finite 1)
    modify fun run =>
      let entry : Entry :=
        { node := id, depth, weight, reachesTarget, hasSmallHeuristic, serial := run.serial }
      { run with waitlist := entry.insert run.waitlist, serial := run.serial + 1 }

/-- Whether the search may stop before the given entry: the criterion holds and the entry does not
reach a target. -/
def stopsBefore (run : SearchRun) (gen : Generation S P K) (entry : Entry) :
    Except Fault Bool := do
  if ← run.stop.canStop gen.graph run.reached then
    return !(← gen.reachesTarget entry.node)
  else
    return false

/-- Hand out the next node of the given waitlist. -/
def nextOf (gen : Generation S P K) (visitsReached : Bool) :
    List Entry → Edit SearchRun (Option (NodeId × Nat))
  | [] => return none
  | entry :: rest => do
    if ← (← get).stopsBefore gen entry then
      return none
    modify fun run => { run with waitlist := rest }
    if (← get).finished.contains entry.node then
      nextOf gen visitsReached rest
    else
      modify fun run => { run with finished := run.finished ++ [entry.node] }
      if ← gen.reachesTarget entry.node then
        modify fun run => { run with reached := run.reached ++ [entry.node] }
        if visitsReached then
          return some (entry.node, entry.depth)
        else
          nextOf gen visitsReached rest
      else
        return some (entry.node, entry.depth)

/-- Hand out the next node to visit and its depth. Nodes that reach a target are recorded, and only
handed out when `visitsReached` is set. There is no next node once the waitlist is empty, or once
the search may stop. -/
def next (gen : Generation S P K) (visitsReached : Bool) :
    Edit SearchRun (Option (NodeId × Nat)) := do
  nextOf gen visitsReached (← get).waitlist

/-- The length of the path from the start nodes through a node to the nearest target below it. -/
def distanceUntilTarget (run : SearchRun) (gen : Generation S P K) (id : NodeId) :
    Except Fault Nat := do
  let some depth := run.depth? id | throw .neverEnqueued
  if (← gen.graph.node id).isTarget then
    return depth
  else
    return depth + (← (← gen.distance id).value)

end SearchRun

end GuidedReach
