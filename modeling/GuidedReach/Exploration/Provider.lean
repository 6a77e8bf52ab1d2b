import GuidedReach.Exploration.Basic

/-!
# Providers of new nodes

A new node takes its heuristic from its *provider*: a node of the provider generation whose state
subsumes its own, so that targets below it are no nearer than those below the provider.

* `providerCandidates` — where a provider can be found.
* `findProvider` — the candidate that gives the tightest bound.
* `createSearchNode` — attaches a search node, with its provider, to a new graph node.
-/

namespace GuidedReach.Exploration

open Explore

variable {S P K : Type}

section

variable (setup : Setup S P K) (older : Older S P K) (index : Nat)

/-- Let a provider have its successors created, if the search type needs that. -/
def askForSuccessors (below : Nat) (provider : NodeId) : Explore S P K Unit := do
  if setup.search.expandsProviders then
    demand (below < index) (.noSuchGeneration below)
    older.openProvider below provider

/-- The provider of a node or, if the provider is covered, its coverer, which then takes its
place. -/
def uncoveredProvider (below : Nat) (id provider : NodeId) : Explore S P K NodeId := do
  let some coverer := (← node below provider).covering | return provider
  let gen ← generation index
  putGeneration index (← gen.editSearchNode id (SearchNode.setProvider (some coverer)))
  return coverer

/-- The nodes of the provider generation `below` among which the provider of a node is found: the
successors of its tree parent's provider, or the init nodes if it has no parent. A parent's provider
that is covered is replaced by its coverer first. -/
def providerCandidates (below : Nat) (id : NodeId) : Explore S P K (List NodeId) := do
  let gen ← generation index
  let some parent := (← gen.graph.node id).parent
    | return (← generation below).graph.initNodes
  let some provider := (← gen.searchNode parent).provider
    | do
      demand setup.search.toleratesMissingProvider (.parentWithoutProvider parent id)
      return []
  askForSuccessors setup older index below provider
  let provider ← uncoveredProvider index below parent provider
  let above ← node below provider
  if above.isExpanded then
    return above.succs
  else
    demand setup.search.toleratesMissingProvider (.providerNotExpanded provider parent)
    return []

/-- The first node with the largest distance. -/
def farthest : List (NodeId × Distance) → Option NodeId
  | [] => none
  | first :: rest =>
    some (rest.foldl (fun best next => if next.2.notAbove best.2 then best else next) first).1

/-- The provider of a node in generation `below`: of the candidates that subsume the node the one
with the largest known distance, the tightest bound, or else the first. -/
def findProvider (below : Nat) (id : NodeId) : Explore S P K (Option NodeId) := do
  let candidates ← providerCandidates setup older index below id
  let gen ← generation index
  let provider ← generation below
  let state := (← gen.graph.node id).state
  let subsuming ← candidates.filterM fun candidate => do
    return setup.analysis.isLeq state (← provider.graph.node candidate).state
  let distances ← subsuming.mapM fun candidate => do
    return (candidate, ← provider.distance candidate)
  let found := (farthest (distances.filter (·.2.isKnown))).or subsuming.head?
  if found.isNone then
    demand setup.search.toleratesMissingProvider (.noProvider id below)
  return found

end

/-- Attach a search node to a new graph node. -/
def createSearchNode [DecidableEq K] (setup : Setup S P K) (older : Older S P K) (index : Nat)
    (id : NodeId) : Explore S P K Unit := do
  let provider ← match (← generation index).provider with
    | some below => findProvider setup older index below id
    | none => pure none
  putGeneration index (← (← generation index).register setup.analysis id { provider })

end GuidedReach.Exploration
