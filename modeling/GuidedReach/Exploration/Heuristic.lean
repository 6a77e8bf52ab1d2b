import GuidedReach.Exploration.Basic

/-!
# Heuristics of an exploration

A heuristic is a lower bound for the distance of a node. It is computed once per node, when it is
first needed.

* `heuristicWithoutDistance` — what the search type does when the provider has no known distance.
* `computeHeuristic` — the heuristic of a node, from its provider if possible.
* `ensureHeuristic` — makes the heuristic of a node known.
-/

namespace GuidedReach.Exploration

open Explore

variable {S P K : Type}
variable (setup : Setup S P K) (older : Older S P K) (index : Nat)

/-- The heuristic of a non-target whose provider has no known distance. -/
def heuristicWithoutDistance (id : NodeId) : Explore S P K Distance := do
  let gen ← generation index
  match setup.search with
  | .full => fail (.distanceMissingInFullSearch id index)
  | .semiOnDemand =>
    match gen.provider, (← gen.searchNode id).provider with
    | some below, some provider =>
      count fun stats => { stats with nestedSearches := stats.nestedSearches + 1 }
      demand (below < index) (.noSuchGeneration below)
      older.solve below [provider] .distanceKnowable
      let distance ← (← generation below).distance provider
      demand distance.isKnown (.nestedSearchUndecided provider)
      return distance
    | _, _ => fail (.noProviderToSearchFrom id index)
  | .decreasing =>
    match (← gen.graph.node id).parent with
    | none => return .zero
    | some parent =>
      match ← gen.heuristic parent with
      | .finite edges => return .finite (edges - 1)
      | .infinite => return .infinite
      | .unknown => fail (.parentWithoutHeuristic parent id)

/-- The distance of the provider of a node; unknown if there is no provider. -/
def inheritedDistance (id : NodeId) : Explore S P K Distance := do
  let gen ← generation index
  match gen.provider, (← gen.searchNode id).provider with
  | some below, some provider => return ← (← generation below).distance provider
  | _, _ => return .unknown

/-- The heuristic of a node. Targets, and all nodes of a generation without a provider, have
heuristic 0; otherwise it is the distance of the node's provider, if known. -/
def computeHeuristic (id : NodeId) : Explore S P K Distance := do
  let gen ← generation index
  let inherited ← inheritedDistance index id
  if (← gen.graph.node id).isTarget then
    demand (!inherited.isKnown || inherited == .zero) (.targetWithDistantProvider id inherited)
    return .zero
  else if gen.provider.isNone then
    return .zero
  else if inherited.isKnown then
    return inherited
  else
    heuristicWithoutDistance setup older index id

/-- Make the heuristic of a node known and return it. -/
def ensureHeuristic (id : NodeId) : Explore S P K Distance := do
  let known ← (← generation index).searchNode id
  if known.heuristic.isKnown then return known.heuristic
  let value ← computeHeuristic setup older index id
  setHeuristic index id value
  return value

end GuidedReach.Exploration
