import GuidedReach.Graph.Basic

/-!
# Changing a reachability graph

Nodes are created as init nodes or as tree successors; covering edges are drawn and removed;
subtrees are pruned. Each change is an `Edit`, refused with a `Fault` when a node is missing or an
edge may not be drawn.

* `Graph.createInit`, `Graph.createSucc` — new nodes under the next fresh number.
* `Graph.cover` — a covering edge; nodes covered by the newly covered one move over to its coverer,
  so a covering edge always points at an uncovered node.
* `Graph.uncover`, `Graph.clearCovered` — remove covering edges.
* `Graph.prune`, `Graph.pruneAll` — remove subtrees with every covering edge that touches them.
-/

namespace GuidedReach.Graph

variable {S : Type}

/-- Change the node with a number, which has to be in the graph. -/
def updateNode (id : NodeId) (f : Node S → Node S) : Edit (Graph S) Unit := do
  let g ← get
  let node ← g.node id
  set { g with nodes := g.nodes.insert id (f node) }

/-- Read the node with a number, which has to be in the graph. -/
def readNode (id : NodeId) : Edit (Graph S) (Node S) := do
  let g ← get
  g.node id

/-- Add a node under the next fresh number. -/
def allocate (node : Node S) : Edit (Graph S) NodeId := do
  let g ← get
  set { g with nodes := g.nodes.push node }
  return g.nodes.slotCount

/-- Add an init node. -/
def createInit (state : S) (isTarget isFeasible : Bool) : Edit (Graph S) NodeId := do
  let id ← allocate { state, depth := 0, isTarget, isFeasible, parent := none }
  modify fun g => { g with initNodes := g.initNodes ++ [id] }
  return id

/-- Add a tree successor of an uncovered node. -/
def createSucc (parent : NodeId) (state : S) (isTarget isFeasible : Bool) :
    Edit (Graph S) NodeId := do
  let above ← readNode parent
  demand (!above.isCovered) (.successorOfCovered parent)
  let id ← allocate
    { state, depth := above.depth + 1, isTarget, isFeasible, parent := some parent }
  updateNode parent fun node => { node with succs := node.succs ++ [id] }
  return id

/-- Record whether all successors of a node have been created. -/
def setExpanded (id : NodeId) (isExpanded : Bool) : Edit (Graph S) Unit :=
  updateNode id fun node => { node with isExpanded }

/-- Record whether all init states have been added. -/
def setInitialized (isInitialized : Bool) : Edit (Graph S) Unit :=
  modify fun g => { g with isInitialized }

/-- Cover a node by another one. Neither may be covered already. -/
def cover (id coverer : NodeId) : Edit (Graph S) Unit := do
  demand (id != coverer) (.coversItself id)
  demand (!(← readNode id).isCovered) (.alreadyCovered id)
  demand (!(← readNode coverer).isCovered) (.covererIsCovered coverer)
  let moved := (← readNode id).covered
  updateNode id fun node => { node with covered := [] }
  moved.forM fun other => updateNode other fun node => { node with covering := some coverer }
  updateNode coverer fun node => { node with covered := node.covered ++ moved ++ [id] }
  updateNode id fun node => { node with covering := some coverer }

/-- Remove the covering edge that leaves a node, if there is one. -/
def uncover (id : NodeId) : Edit (Graph S) Unit := do
  match (← readNode id).covering with
  | none => return
  | some coverer =>
    updateNode id fun node => { node with covering := none }
    updateNode coverer fun node => { node with covered := node.covered.filter (· != id) }

/-- Remove the covering edges that enter a node. -/
def clearCovered (id : NodeId) : Edit (Graph S) Unit := do
  let covered := (← readNode id).covered
  updateNode id fun node => { node with covered := [] }
  covered.forM fun other => updateNode other fun node => { node with covering := none }

/-- Unlink a node from its tree parent, which is then no longer expanded, or from the init nodes of
the graph, which is then no longer initialized. -/
def detach (id : NodeId) : Edit (Graph S) Unit := do
  match (← readNode id).parent with
  | some parent =>
    updateNode parent fun node =>
      { node with succs := node.succs.filter (· != id), isExpanded := false }
  | none =>
    modify fun g => { g with initNodes := g.initNodes.filter (· != id), isInitialized := false }

/-- Remove a node and its subtree, together with the covering edges that touch it. -/
def prune (id : NodeId) : Edit (Graph S) Unit := do
  let _ ← readNode id
  let subtree := (← get).descendants id
  subtree.forM fun n => do
    uncover n
    clearCovered n
  detach id
  modify fun g => { g with nodes := subtree.foldl NodeMap.erase g.nodes }

/-- Remove every node. -/
def pruneAll : Edit (Graph S) Unit := do
  (← get).initNodes.forM prune
  setInitialized false

end GuidedReach.Graph
