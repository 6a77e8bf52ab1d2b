import GuidedReach.SearchRun
import GuidedReach.Settle.Derive

/-!
# Distances from an exhaustive search

After an exhaustive search every distance can be computed from the targets backwards.

* `Generation.spreadWithin` — backward breadth-first search in which covering edges are free.
* `Generation.settleExhaustive` — turns a finished exhaustive search into distances: what the
  backward search does not meet is infinitely far away.
-/

namespace GuidedReach.Generation

variable {S P K : Type}

/-- Settle the nodes of a queue at the distances they wait with, nearest first. A newly settled node
puts the nodes it covers at the front, at its own distance, and its tree parent at the back, one
edge farther. -/
def spreadWithin (gen : Generation S P K) :
    (steps : Nat) → List (NodeId × Nat) → Except Fault (Generation S P K)
  | 0, _ | _ + 1, [] => return gen
  | steps + 1, (id, distance) :: rest => do
    if ← gen.isSettled id then
      spreadWithin gen steps rest
    else
      let gen ← gen.setDistance id (.finite distance)
      let node ← gen.graph.node id
      let free := node.covered.reverse.map (·, distance)
      let above := node.parent.toList.map (·, distance + 1)
      spreadWithin gen steps (free ++ rest ++ above)

/-- Settle every node that can reach a target. Each node is settled once and adds at most its parent
and the nodes it covers to the queue, so the steps suffice. -/
def spreadFromTargets (gen : Generation S P K) : Except Fault (Generation S P K) :=
  let targets := gen.graph.ids.filter (gen.graph.test (·.isTarget))
  gen.spreadWithin (targets.length + gen.graph.linkCount) (targets.map (·, 0))

/-- Turn a finished exhaustive search into distances. -/
def settleExhaustive (gen : Generation S P K) (run : SearchRun) :
    Except Fault (Generation S P K) := do
  run.reached.forM fun id => do
    demand (← gen.graph.node id).isTarget (.reachedNonTarget id)
  let gen ← gen.spreadFromTargets
  let unreachable ← gen.unsettled gen.graph.ids
  unreachable.foldlM (fun gen id => gen.setDistance id .infinite) gen

end GuidedReach.Generation
