import GuidedReach.Analysis
import GuidedReach.Graph.Edit

/-!
# Growing a graph by an analysis

* `Graph.seed` — adds the init states that are missing.
* `Graph.expand` — adds the successors of a node that are missing among its children.
* `Graph.mayCover` — whether one node may stand in for another.

A state counts as present when an init node, or a child of the node, already has it; so growing
twice under one precision adds nothing the second time.
-/

namespace GuidedReach.Graph

variable {S P K : Type}

/-- Whether `candidate` may cover `id`: its state subsumes the node's state, and on its tree path
there is neither the node itself nor a covered or infeasible node. -/
def mayCover (g : Graph S) (analysis : Analysis S P K) (id candidate : NodeId) :
    Except Fault Bool := do
  if id == candidate then return false
  let below ← g.node id
  let above ← g.node candidate
  return analysis.isLeq below.state above.state &&
    (g.ancestors candidate).all fun n => n != id && !g.test Node.isSubsumed n

variable [DecidableEq S]

/-- Add an init node for each state of a list that no init node has, in order. -/
def addInitStates (analysis : Analysis S P K) : List S → Edit (Graph S) (List NodeId)
  | [] => return []
  | state :: rest => do
    let g ← get
    if state ∈ g.statesOf g.initNodes then
      addInitStates analysis rest
    else
      let id ← createInit state (analysis.isTarget state) (!analysis.isBottom state)
      return id :: (← addInitStates analysis rest)

/-- Add the missing init states and return the new nodes. -/
def seed (analysis : Analysis S P K) (prec : P) : Edit (Graph S) (List NodeId) := do
  let new ← addInitStates analysis (analysis.initStates prec)
  setInitialized true
  return new

/-- Add a child for each state of a list that no child of the node has, in order. -/
def addSuccStates (analysis : Analysis S P K) (parent : NodeId) :
    List S → Edit (Graph S) (List NodeId)
  | [] => return []
  | state :: rest => do
    let children := (← readNode parent).succs
    if state ∈ (← get).statesOf children then
      addSuccStates analysis parent rest
    else
      let id ← createSucc parent state (analysis.isTarget state) (!analysis.isBottom state)
      return id :: (← addSuccStates analysis parent rest)

/-- Add the missing successors of a node and return the new nodes. Children left over from an
earlier expansion are kept. -/
def expand (analysis : Analysis S P K) (id : NodeId) (prec : P) :
    Edit (Graph S) (List NodeId) := do
  let state := (← readNode id).state
  let new ← addSuccStates analysis id (← analysis.successors? state prec)
  setExpanded id true
  return new

end GuidedReach.Graph
