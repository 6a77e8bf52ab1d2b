import GuidedReach.Graph.Grow
import GuidedReach.Graph.Operation

/-!
# Graphs built by an analysis

The nodes of a graph that is used with an analysis come from the analysis only: a `BuildStep` grows the
graph, or changes what is there already.

* `BuildStep.apply` — the graph after a step, also if it failed.
* `Graph.built` — the graph after a sequence of steps on an empty graph.
-/

namespace GuidedReach

variable {S P K : Type}

/-- Whether a call adds a node. -/
def Operation.creates : Operation S → Bool
  | .createInit .. | .createSucc .. => true
  | .setExpanded .. | .setInitialized _ | .cover .. | .uncover _ | .clearCovered _ | .prune _
  | .pruneAll => false

/-- A change of a graph whose nodes come from an analysis. -/
inductive BuildStep (S P : Type) where
  | seed (prec : P)
  | expand (id : NodeId) (prec : P)
  /-- Any other change, as long as it adds no node. -/
  | change (operation : Operation S) (addsNone : operation.creates = false)

namespace BuildStep

variable [DecidableEq S]

def edit (analysis : Analysis S P K) : BuildStep S P → Edit (Graph S) Unit
  | .seed prec => do
    let _ ← Graph.seed analysis prec
  | .expand id prec => do
    let _ ← Graph.expand analysis id prec
  | .change operation _ => operation.edit

/-- The graph after a step, also if it failed. -/
def apply (analysis : Analysis S P K) (step : BuildStep S P) (g : Graph S) : Graph S :=
  match (step.edit analysis).run g with
  | .ok _ g' | .error _ g' => g'

end BuildStep

/-- The graph after a sequence of steps on an empty graph. -/
def Graph.built [DecidableEq S] (analysis : Analysis S P K) (steps : List (BuildStep S P)) :
    Graph S :=
  steps.foldl (fun g step => step.apply analysis g) {}

end GuidedReach
