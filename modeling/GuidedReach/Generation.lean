import GuidedReach.Analysis
import GuidedReach.Graph.Basic
import GuidedReach.SearchNode

/-!
# Generations

A `Generation` is a reachability graph with a search node for every graph node, as explored under
one precision. Heuristics come from an older generation, its *provider*; the provider of a search
node is a node of that generation's graph.

* `Generation.listed` — all search nodes.
* `Generation.setHeuristic`, `Generation.setDistance` — checked writes to a search node.
* `Generation.register` — attaches a search node to a new graph node.
* `Generation.coveringCandidates` — the nodes that share a key with a given one.
* `Generation.checkConsistent` — the heuristic drops by at most the weight of an edge.
* `Generation.checkSearchNodes` — the known values fit the nodes of the graph.
* `Generation.dropPruned`, `Generation.resetOnto`, `Generation.releaseProvider` — between checks.
-/

namespace GuidedReach

/-- Node numbers filed under keys. -/
abbrev Buckets (K : Type) := List (K × List NodeId)

namespace Buckets

variable {K : Type} [DecidableEq K]

/-- The numbers filed under a key, oldest first. -/
def find (buckets : Buckets K) (key : K) : List NodeId :=
  (List.lookup key buckets).getD []

/-- File a number under a key. -/
def file (key : K) (id : NodeId) : Buckets K → Buckets K
  | [] => [(key, [id])]
  | (k, ids) :: rest => if key = k then (k, ids ++ [id]) :: rest else (k, ids) :: file key id rest

end Buckets

/-- A graph with what the searches in it found out. -/
structure Generation (S P K : Type) where
  graph : Graph S
  prec : P
  searchNodes : NodeMap SearchNode := {}
  /-- The nodes with search nodes, in the order in which these were attached. -/
  attached : List NodeId := []
  buckets : Buckets K := []
  /-- The index of the generation that heuristics are taken from. -/
  provider : Option Nat := none

namespace Generation

variable {S P K : Type}

/-! ## Reading and writing search nodes -/

/-- The search nodes with their numbers, in the order in which they were attached. -/
def listed (gen : Generation S P K) : List (NodeId × SearchNode) :=
  gen.attached.filterMap fun id => (gen.searchNodes.get? id).map (id, ·)

def searchNode (gen : Generation S P K) (id : NodeId) : Except Fault SearchNode :=
  match gen.searchNodes.get? id with
  | some node => .ok node
  | none => .error (.noSearchNode id)

def heuristic (gen : Generation S P K) (id : NodeId) : Except Fault Distance :=
  return (← gen.searchNode id).heuristic

def distance (gen : Generation S P K) (id : NodeId) : Except Fault Distance :=
  return (← gen.searchNode id).distance

/-- Apply a change to the search node of a graph node. -/
def editSearchNode (gen : Generation S P K) (id : NodeId) (edit : Edit SearchNode Unit) :
    Except Fault (Generation S P K) := do
  let node ← gen.searchNode id
  let ((), node) ← edit.result node
  return { gen with searchNodes := gen.searchNodes.insert id node }

def setHeuristic (gen : Generation S P K) (id : NodeId) (value : Distance) :
    Except Fault (Generation S P K) := do
  let node ← gen.graph.node id
  gen.editSearchNode id (SearchNode.setHeuristic value node.isTarget)

def setDistance (gen : Generation S P K) (id : NodeId) (value : Distance) :
    Except Fault (Generation S P K) := do
  let node ← gen.graph.node id
  gen.editSearchNode id (SearchNode.setDistance value node.isTarget)

/-- Whether a node is a target or has a finite distance. -/
def reachesTarget (gen : Generation S P K) (id : NodeId) : Except Fault Bool := do
  if (← gen.graph.node id).isTarget then return true
  return (← gen.distance id).isFinite

/-! ## Checks -/

/-- Refuse an edge along which the heuristic drops by more than the edge's weight: 0 for a covering
edge, 1 for a tree edge. -/
def checkConsistent (gen : Generation S P K) (parent child : NodeId) : Except Fault Unit := do
  let above ← gen.heuristic parent
  let below ← gen.heuristic child
  demand (above.isKnown && below.isKnown) (.heuristicsNotKnown parent child)
  if above.isInfinite && below.isInfinite then return
  demand (!above.isInfinite) (.infiniteAboveFinite parent child below)
  if below.isInfinite then return
  let weight := if (← gen.graph.node parent).isCovered then 0 else 1
  demand (← above.le (← below.add weight)) (.inconsistentHeuristics parent above child below)

/-- Whether the graph is fully explored or an init node has a finite distance. -/
def isSolved (gen : Generation S P K) : Except Fault Bool := do
  if gen.graph.isComplete then return true
  gen.graph.initNodes.anyM fun id => return (← gen.distance id).isFinite

/-- Refuse known values that do not fit their graph nodes. The caller may have put other nodes in
place of those for which the values were found. -/
def checkSearchNodes (gen : Generation S P K) : Except Fault Unit :=
  gen.searchNodes.toList.forM fun (id, known) => do
    known.checkFits (← gen.graph.node id).isTarget

/-! ## Between checks -/

/-- Point every node at itself in the generation `copy`, and forget what was computed here. -/
def resetOnto (gen : Generation S P K) (copy : Nat) : Generation S P K :=
  { gen with
    searchNodes := gen.searchNodes.mapWithId fun id _ => { provider := some id }
    provider := some copy }

/-- Forget the provider generation. -/
def releaseProvider (gen : Generation S P K) : Generation S P K :=
  { gen with
    searchNodes := gen.searchNodes.mapWithId fun _ node => { node with provider := none }
    provider := none }

/-! ## Keeping search nodes and graph together -/

variable [DecidableEq K]

/-- Attach a search node to a graph node that has none. -/
def register (gen : Generation S P K) (analysis : Analysis S P K) (id : NodeId)
    (searchNode : SearchNode) : Except Fault (Generation S P K) := do
  let node ← gen.graph.node id
  demand (!gen.searchNodes.contains id) (.alreadyHasSearchNode id)
  return { gen with
    searchNodes := gen.searchNodes.insert id searchNode
    attached := gen.attached ++ [id]
    buckets := gen.buckets.file (analysis.key node.state) id }

/-- The nodes whose states may subsume the state of a node. -/
def coveringCandidates (gen : Generation S P K) (analysis : Analysis S P K) (id : NodeId) :
    Except Fault (List NodeId) := do
  let node ← gen.graph.node id
  return gen.buckets.find (analysis.key node.state)

/-- Forget the search nodes of pruned graph nodes, and file the others anew. -/
def dropPruned (gen : Generation S P K) (analysis : Analysis S P K) :
    Except Fault (Generation S P K) := do
  let kept := gen.searchNodes.filterIds gen.graph.contains
  gen.graph.ids.forM fun id => demand (kept.contains id) (.noSearchNode id)
  let filed := gen.graph.toList.foldl
    (fun buckets (id, node) => Buckets.file (analysis.key node.state) id buckets) []
  return { gen with
    searchNodes := kept
    attached := gen.attached.filter kept.contains
    buckets := filed }

end Generation

end GuidedReach
