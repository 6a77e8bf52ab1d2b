import GuidedReach.Generation

/-!
# Distances that follow from known ones

A node's distance follows from its neighbours when the node is covered by a node of known distance,
when it is a dead end, or when it is expanded and all its successors have known distances.

* `Generation.derived` — the distance that follows for one node, if any.
* `Generation.deriveFrom` — assigns what follows, moving up the tree and back along covering edges.
* `Generation.deriveFromDeadEnds` — does so starting at the nodes below which nothing is left.
-/

namespace GuidedReach

/-- The least of some known distances; `infinite` if there are none. -/
def Distance.nearest (ds : List Distance) : Distance := ds.foldl Distance.smaller .infinite

/-- A bound on the steps of a walk that enters each node once and moves on along its links. -/
def Graph.linkCount {S : Type} (g : Graph S) : Nat :=
  g.toList.foldl (fun total (_, node) => total + 1 + node.succs.length + node.covered.length) 0

namespace Generation

variable {S P K : Type}

/-- Whether the distance of a node is known. -/
def isSettled (gen : Generation S P K) (id : NodeId) : Except Fault Bool :=
  return (← gen.distance id).isKnown

/-- The nodes of a list whose distances are unknown. -/
def unsettled (gen : Generation S P K) (ids : List NodeId) : Except Fault (List NodeId) :=
  ids.filterM fun id => return !(← gen.isSettled id)

/-- Whether nothing lies below a node without tree successors. -/
def isDeadEnd (gen : Generation S P K) (id : NodeId) (node : Node S) : Except Fault Bool := do
  if node.isExpanded || !node.isFeasible then return true
  return (← gen.heuristic id).isInfinite

/-- The distance of a non-target that follows from its neighbours; unknown if none does. -/
def derived (gen : Generation S P K) (id : NodeId) (node : Node S) : Except Fault Distance := do
  match node.covering with
  | some coverer => gen.distance coverer
  | none =>
    if node.isLeaf then
      return if ← gen.isDeadEnd id node then .infinite else .unknown
    else if !node.isExpanded then
      return .unknown
    else
      let below ← node.succs.mapM gen.distance
      if below.all Distance.isKnown then (Distance.nearest below).succ else return .unknown

/-- Take up the nodes of a worklist in turn. A node whose distance is open and follows from its
neighbours gets it; then its tree parent goes first and the nodes it covers go last. -/
def deriveWithin (gen : Generation S P K) :
    (steps : Nat) → List NodeId → Except Fault (Generation S P K)
  | 0, _ | _ + 1, [] => return gen
  | steps + 1, id :: rest => do
    let node ← gen.graph.node id
    if node.isTarget then
      deriveWithin gen steps rest
    else if ← gen.isSettled id then
      deriveWithin gen steps rest
    else
      let distance ← gen.derived id node
      if distance.isKnown then
        let gen ← gen.setDistance id distance
        let waiting ← gen.unsettled node.covered
        deriveWithin gen steps (node.parent.toList ++ rest ++ waiting)
      else
        deriveWithin gen steps rest

/-- Assign the distances that follow, starting at the given nodes. Each assignment settles another
node and adds at most its parent and the nodes it covers to the worklist, so the steps suffice. -/
def deriveFrom (gen : Generation S P K) (ids : List NodeId) : Except Fault (Generation S P K) :=
  gen.deriveWithin (ids.length + gen.graph.linkCount) ids

/-- Whether nothing is left below a node: it is covered by a node from which no target can be
reached, or it is uncovered and a dead end. -/
def isDead (gen : Generation S P K) (id : NodeId) (node : Node S) : Except Fault Bool := do
  match node.covering with
  | some coverer => return (← gen.distance coverer).isInfinite
  | none =>
    if node.isExpanded then return node.isLeaf
    if (← gen.heuristic id).isInfinite then return true
    return !node.isFeasible

/-- Assign the distances that follow from the dead nodes. -/
def deriveFromDeadEnds (gen : Generation S P K) : Except Fault (Generation S P K) := do
  let dead ← gen.graph.toList.filterM fun (id, node) => do
    if node.isTarget then return false
    if ← gen.isSettled id then return false
    gen.isDead id node
  gen.deriveFrom (dead.map Prod.fst)

end Generation

end GuidedReach
