import GuidedReach.Exploration.Cover
import GuidedReach.Exploration.Provider
import GuidedReach.Settle.Exhaustive
import GuidedReach.Settle.Guided

/-!
# The distance search in a generation

A search visits nodes in the order of a `SearchRun`, covers or expands them on the way, and turns
the finished run into distances.

* `visit` — covers or expands a node and lets its successors wait.
* `visitAll` — visits nodes until the run hands out no more.
* `solve` — finds the distance of one of some start nodes.
-/

namespace GuidedReach.Exploration

open Explore

variable {S P K : Type}

/-! ## Start nodes and edges -/

section

variable (setup : Setup S P K) (older : Older S P K) (index : Nat)

/-- Let the node at the end of an edge wait. -/
def follow (run : SearchRun) (id next : NodeId) (depth : Nat) : Explore S P K SearchRun := do
  let _ ← ensureHeuristic setup older index next
  let gen ← generation index
  gen.checkConsistent id next
  let ((), run) ← (SearchRun.enqueue gen next (some id) depth).result run
  return run

/-- Give the start nodes that cannot reach a target an infinite distance; the others are left to be
searched from. -/
def searchableStart : List NodeId → Explore S P K (List NodeId)
  | [] => return []
  | id :: rest => do
    let gen ← generation index
    if (← gen.heuristic id).isInfinite then
      setDistance index id .infinite
      searchableStart rest
    else if (← gen.distance id).isInfinite then
      searchableStart rest
    else
      return id :: (← searchableStart rest)

end

/-! ## Visiting nodes -/

variable [DecidableEq S] [DecidableEq K]
variable (setup : Setup S P K) (older : Older S P K) (index : Nat)

/-- Expand a node, and attach search nodes to its new successors, which are returned. -/
def expand (id : NodeId) : Explore S P K (List NodeId) := do
  let new ← editGraph index (Graph.expand setup.analysis id (← generation index).prec)
  count fun stats => { stats with expanded := stats.expanded + 1 }
  return new

/-- Try to cover a node and return the node to continue with. That is its search parent, if the
parent was covered by the node and is now covered by the new coverer directly. -/
def reroute (run : SearchRun) (id : NodeId) : Explore S P K (NodeId × SearchRun) := do
  let some coverer ← close setup older index id | return (id, run)
  let some parent := run.parent? id | return (id, run)
  let gen ← generation index
  if (← gen.graph.node parent).covering = some coverer then
    gen.checkConsistent parent coverer
    return (parent, run.forgetParent id)
  else
    return (id, run)

/-- Make sure that a node is expanded and that its successors have search nodes. -/
def ensureExpanded (id : NodeId) : Explore S P K Unit := do
  if (← node index id).isExpanded then return
  let new ← expand setup index id
  new.forM (createSearchNode setup older index)

/-- Visit a node that was found at a depth: try to cover it; then let its coverer wait, or expand it
and let its successors wait. -/
def visit (run : SearchRun) (id : NodeId) (depth : Nat) : Explore S P K SearchRun := do
  let (id, run) ← reroute setup older index run id
  let current ← node index id
  match current.covering with
  | some coverer => follow setup older index run id coverer depth
  | none =>
    if !current.isFeasible then return run
    ensureExpanded setup older index id
    let succs := (← node index id).succs
    succs.foldlM (fun run succ => follow setup older index run id succ (depth + 1)) run

/-- Visit nodes until the search hands out no more. -/
def visitAll : (fuel : Nat) → SearchRun → Explore S P K SearchRun
  | 0, _ => throw .outOfFuel
  | fuel + 1, run => do
    let gen ← generation index
    let (next, run) ← (SearchRun.next gen setup.search.visitsReached).result run
    match next with
    | none => return run
    | some (id, depth) => visitAll fuel (← visit setup older index run id depth)

/-! ## Solving -/

/-- Turn a finished run into distances. -/
def settle (run : SearchRun) : Explore S P K Unit := do
  let gen ← generation index
  match setup.search with
  | .full => putGeneration index (← gen.settleExhaustive run)
  | _ => putGeneration index (← gen.settleGuided run)

/-- Run a search from the given nodes and turn it into distances. -/
def search (start : List NodeId) (stop : StopCriterion) : Explore S P K Unit := do
  start.forM fun id => do
    let _ ← ensureHeuristic setup older index id
  let searched ← searchableStart index start
  let gen ← generation index
  let ((), run) ← (searched.forM fun id => SearchRun.enqueue gen id none 0).result
    { start := searched, stop }
  let run ← visitAll setup older index setup.fuel run
  settle setup index run
  let gen ← generation index
  let decided ← start.anyM fun id => return (← gen.distance id).isFinite
  let refuted ← start.allM fun id => return (← gen.distance id).isInfinite
  demand (decided || refuted) (.undecidedStart index)

/-- Find the distance of one of the start nodes: afterwards one of them has a finite distance, or
all of them have an infinite one. -/
def solve (start : List NodeId) (stop : StopCriterion) : Explore S P K Unit := do
  let gen ← generation index
  if ← start.anyM fun id => return (← gen.distance id).isFinite then return
  let targets ← start.filterM fun id => return (← gen.graph.node id).isTarget
  if targets.isEmpty then
    search setup older index start stop
  else
    targets.forM fun id => do
      let _ ← ensureHeuristic setup older index id
      setDistance index id .zero

end GuidedReach.Exploration
