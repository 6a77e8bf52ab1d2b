import GuidedReach.Graph.Basic

/-!
# When a search may stop

A `StopCriterion` decides, from the nodes reached so far, whether a search may stop early.
-/

namespace GuidedReach

/-- When a search may stop. -/
inductive StopCriterion where
  /-- As soon as a target that is not excluded was reached. -/
  | firstCounterexample
  /-- Never early. -/
  | fullExploration
  /-- As soon as any node was reached, since its distance settles that of the start node. -/
  | distanceKnowable
  deriving DecidableEq, Repr, Inhabited

namespace StopCriterion

/-- The name that messages use. -/
def name : StopCriterion → String
  | .firstCounterexample => "FirstCex"
  | .fullExploration => "FullExploration"
  | .distanceKnowable => "DistanceKnowable"

/-- Whether a search that reached these nodes may stop. -/
def canStop {S : Type} (criterion : StopCriterion) (g : Graph S) (reached : List NodeId) :
    Except Fault Bool :=
  match criterion with
  | .firstCounterexample =>
    reached.anyM fun id => do
      let node ← g.node id
      return node.isTarget && !g.isExcluded id
  | .fullExploration => return false
  | .distanceKnowable => return !reached.isEmpty

end StopCriterion

end GuidedReach
