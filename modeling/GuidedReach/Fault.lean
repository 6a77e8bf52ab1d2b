import GuidedReach.Distance.Basic
import GuidedReach.NodeMap
import GuidedReach.StateSet

/-!
# Faults

A `Fault` is a broken promise of a caller or of an earlier step: a node that is not there, an edge
that may not be drawn, a distance that contradicts another one. Each constructor is one cause and
carries what its message mentions.

* `Fault.message` — the text of a fault.
* `Edit σ α` — a change of a `σ` that may fail. A failing change keeps what it had written so far.
* `Halt` — why a computation with bounded work ended without a result.
-/

namespace GuidedReach

/-- Why an operation was refused. -/
inductive Fault where
  -- graphs
  | notInGraph (node : NodeId)
  | successorOfCovered (parent : NodeId)
  | coversItself (node : NodeId)
  | alreadyCovered (node : NodeId)
  | covererIsCovered (coverer : NodeId)
  -- distances
  | noFiniteValue (distance : Distance)
  | addedToUnknown
  | comparedUnknown (left right : Distance)
  -- search nodes
  | heuristicSetToUnknown
  | heuristicAlreadyKnown
  | targetHeuristicNotZero
  | distanceSetToUnknown
  | distanceAlreadyKnown
  | targetDistanceNotZero
  | heuristicTooLarge (heuristic distance : Distance)
  -- generations
  | noSearchNode (node : NodeId)
  | alreadyHasSearchNode (node : NodeId)
  | heuristicsNotKnown (parent child : NodeId)
  | infiniteAboveFinite (parent child : NodeId) (heuristic : Distance)
  | inconsistentHeuristics (parent : NodeId) (above : Distance) (child : NodeId) (below : Distance)
  | noSuchGeneration (index : Nat)
  | nothingToFreeze
  | liveGenerationLost
  -- search runs
  | noHeuristicToEnqueue (node : NodeId)
  | finishedTooDeep (node : NodeId) (finished depth : Nat)
  | neverEnqueued
  | targetWithDistantProvider (target : NodeId) (distance : Distance)
  | undecidedStart (index : Nat)
  | closedWithoutHeuristic (node : NodeId)
  | noProvider (node : NodeId) (provider : Nat)
  | parentWithoutProvider (parent node : NodeId)
  | providerNotExpanded (provider parent : NodeId)
  | providerLeftOpen (provider : NodeId)
  | targetCoveredByNonTarget (target : NodeId)
  | distanceMissingInFullSearch (node : NodeId) (index : Nat)
  | noProviderToSearchFrom (node : NodeId) (index : Nat)
  | nestedSearchUndecided (provider : NodeId)
  | parentWithoutHeuristic (parent node : NodeId)
  -- turning a search into distances
  | reachedOutOfOrder (first second : NodeId)
  | reachedNonTarget (node : NodeId)
  | reachedWithoutDistance (node : NodeId)
  | targetOnPath (target reached : NodeId)
  | shorterPathKnownWrong (node : NodeId) (known : Distance) (reached : NodeId) (path : Distance)
  | oneSidedCovering (covered coverer : NodeId)
  | strayPathParent (node : NodeId)
  | finiteBelowUnreachable (node : NodeId) (distance : Distance)
  | targetBelowUnreachable (target : NodeId)
  | leftUnexplored (node : NodeId)
  -- systems and refinement
  | stateOutOfRange
  | nothingToRefine
  | noInitState (block : StateSet)
  deriving DecidableEq, Repr

/-- The text of a fault. -/
def Fault.message : Fault → String
  | .notInGraph n => "node " ++ n.text ++ " is not in the graph"
  | .successorOfCovered p => "cannot create a successor of covered node " ++ p.text
  | .coversItself n => "node " ++ n.text ++ " cannot cover itself"
  | .alreadyCovered n => "node " ++ n.text ++ " is already covered"
  | .covererIsCovered c => "covering node " ++ c.text ++ " is itself covered"
  | .noFiniteValue d => "distance " ++ d.text ++ " has no finite value"
  | .addedToUnknown => "cannot add to an unknown distance"
  | .comparedUnknown a b => "comparing unknown distances: " ++ a.text ++ " and " ++ b.text
  | .heuristicSetToUnknown => "heuristic cannot be set to unknown"
  | .heuristicAlreadyKnown => "heuristic already known with a different value"
  | .targetHeuristicNotZero => "heuristic of a target must be 0"
  | .distanceSetToUnknown => "distance cannot be set to unknown"
  | .distanceAlreadyKnown => "distance already known with a different value"
  | .targetDistanceNotZero => "distance of a target must be 0"
  | .heuristicTooLarge h d => "heuristic " ++ h.text ++ " overestimates distance " ++ d.text
  | .noSearchNode n => n.text ++ " has no search node"
  | .alreadyHasSearchNode n => n.text ++ " already has a search node"
  | .heuristicsNotKnown p c => "heuristics of " ++ p.text ++ " and " ++ c.text ++ " must be known"
  | .infiniteAboveFinite p c h =>
    p.text ++ " has infinite heuristic but its successor " ++ c.text ++ " has " ++ h.text
  | .inconsistentHeuristics p a c b =>
    "inconsistent heuristics: " ++ p.text ++ " has " ++ a.text ++ ", " ++ c.text ++ " has "
      ++ b.text
  | .noSuchGeneration i => "generation " ++ toString i ++ " is not in the history"
  | .nothingToFreeze => "no live generation to freeze"
  | .liveGenerationLost => "history lost its live generation"
  | .noHeuristicToEnqueue n => n.text ++ " must have a heuristic before entering the waitlist"
  | .finishedTooDeep n old depth =>
    n.text ++ " was finished at depth " ++ toString old ++ " but is reachable at depth "
      ++ toString depth
  | .neverEnqueued => "key not found"
  | .targetWithDistantProvider t d =>
    "target " ++ t.text ++ " has a provider at distance " ++ d.text
  | .undecidedStart i =>
    "search in generation " ++ toString i ++ " left the start nodes undecided"
  | .closedWithoutHeuristic n => n.text ++ " is closed without a heuristic"
  | .noProvider n i => n.text ++ " has no provider in generation " ++ toString i
  | .parentWithoutProvider p n => "tree parent " ++ p.text ++ " of " ++ n.text ++ " has no provider"
  | .providerNotExpanded q p => "provider " ++ q.text ++ " of " ++ p.text ++ " is not expanded"
  | .providerLeftOpen q =>
    "provider " ++ q.text ++ " is neither expanded nor covered by an expanded node"
  | .targetCoveredByNonTarget t => "target " ++ t.text ++ " covered by non-target"
  | .distanceMissingInFullSearch n i =>
    "full search knows every provider distance, but not that of " ++ n.text ++ " in generation "
      ++ toString i
  | .noProviderToSearchFrom n i =>
    n.text ++ " in generation " ++ toString i ++ " has no provider to search from"
  | .nestedSearchUndecided q => "nested search left the distance of " ++ q.text ++ " unknown"
  | .parentWithoutHeuristic p n =>
    "tree parent " ++ p.text ++ " of " ++ n.text ++ " has no heuristic"
  | .reachedOutOfOrder a b =>
    a.text ++ " was reached before " ++ b.text ++ " but lies on a longer path"
  | .reachedNonTarget n => "full search reached non-target " ++ n.text
  | .reachedWithoutDistance n => "reached node " ++ n.text ++ " has no distance"
  | .targetOnPath t n => "target " ++ t.text ++ " lies on the path to " ++ n.text
  | .shorterPathKnownWrong n known r path =>
    n.text ++ " has distance " ++ known.text ++ " but a path to " ++ r.text ++ " of length "
      ++ path.text
  | .oneSidedCovering n c => "covering edge " ++ n.text ++ " -> " ++ c.text ++ " is one-sided"
  | .strayPathParent n =>
    "search parent of " ++ n.text ++ " is neither its tree parent nor covered by it"
  | .finiteBelowUnreachable n d =>
    n.text ++ " is below an unreachable start node but has distance " ++ d.text
  | .targetBelowUnreachable t => "target " ++ t.text ++ " found below an unreachable start node"
  | .leftUnexplored n => n.text ++ " was left unexplored by an exhaustive search"
  | .stateOutOfRange => "index out of bounds"
  | .nothingToRefine => "refining a graph without abstract counterexample"
  | .noInitState block => "init block " ++ block.text ++ " contains no init state"

/-- A change of a `σ` that may fail. Writes made before a failure stay. -/
abbrev Edit (σ : Type) := EStateM Fault σ

instance (σ : Type) : MonadLift (Except Fault) (EStateM Fault σ) where
  monadLift x := match x with
    | .ok a => pure a
    | .error fault => throw fault

/-- The result and the changed value, or the fault alone. -/
def Edit.result {σ α : Type} (edit : Edit σ α) (s : σ) : Except Fault (α × σ) :=
  match edit.run s with
  | .ok a s' => .ok (a, s')
  | .error fault _ => .error fault

/-- Why a computation ended without a result. -/
inductive Halt where
  /-- A promise was broken. -/
  | fault (cause : Fault)
  /-- The allowed number of steps did not suffice. -/
  | outOfFuel
  deriving DecidableEq, Repr

instance : MonadLift (Except Fault) (Except Halt) where
  monadLift x := x.mapError .fault

/-- Refuse to go on unless a condition holds. -/
def demand (condition : Bool) (fault : Fault) : Except Fault Unit :=
  if condition then .ok () else .error fault

theorem demand_eq_ok {condition : Bool} {fault : Fault} {u : Unit} :
    demand condition fault = .ok u ↔ condition = true := by
  cases condition <;> simp [demand]

end GuidedReach
