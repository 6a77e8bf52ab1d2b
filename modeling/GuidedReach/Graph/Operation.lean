import GuidedReach.Graph.Edit

/-!
# Sequences of graph operations

An `Operation` is a call of one of the functions that change a graph. A call may fail; what it had
written by then stays.

* `Operation.apply` — the graph after a call, also if it failed.
* `Graph.after` — the graph after a sequence of calls on an empty graph.
-/

namespace GuidedReach

/-- A change of a graph. -/
inductive Operation (S : Type) where
  | createInit (state : S) (isTarget isFeasible : Bool)
  | createSucc (parent : NodeId) (state : S) (isTarget isFeasible : Bool)
  | setExpanded (id : NodeId) (isExpanded : Bool)
  | setInitialized (isInitialized : Bool)
  | cover (id coverer : NodeId)
  | uncover (id : NodeId)
  | clearCovered (id : NodeId)
  | prune (id : NodeId)
  | pruneAll
  deriving DecidableEq, Repr

namespace Operation

variable {S : Type}

def edit : Operation S → Edit (Graph S) Unit
  | .createInit state isTarget isFeasible => do
    let _ ← Graph.createInit state isTarget isFeasible
  | .createSucc parent state isTarget isFeasible => do
    let _ ← Graph.createSucc parent state isTarget isFeasible
  | .setExpanded id isExpanded => Graph.setExpanded id isExpanded
  | .setInitialized isInitialized => Graph.setInitialized isInitialized
  | .cover id coverer => Graph.cover id coverer
  | .uncover id => Graph.uncover id
  | .clearCovered id => Graph.clearCovered id
  | .prune id => Graph.prune id
  | .pruneAll => Graph.pruneAll

/-- The graph after a call, also if it failed. -/
def apply (operation : Operation S) (g : Graph S) : Graph S :=
  match operation.edit.run g with
  | .ok _ g' | .error _ g' => g'

end Operation

/-- The graph after a sequence of calls on an empty graph. -/
def Graph.after {S : Type} (operations : List (Operation S)) : Graph S :=
  operations.foldl (fun g operation => operation.apply g) {}

end GuidedReach
