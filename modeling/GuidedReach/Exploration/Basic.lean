import GuidedReach.Analysis
import GuidedReach.Graph.Grow
import GuidedReach.History
import GuidedReach.Stats

/-!
# Working on the generations of a history

An exploration reads and changes the generations of a history and counts what it does. It ends in a
result, or in a `Halt` when a promise is broken or the allowed steps run out.

* `Setup` — the analysis, the search type and the allowed steps of each search.
* `Explore` — computations on a `Progress`: the history and the counters.
* `Older` — what an exploration of one generation may ask of the generations before it.
-/

namespace GuidedReach

/-- What an exploration is given. -/
structure Setup (S P K : Type) where
  analysis : Analysis S P K
  search : SearchType
  /-- The number of steps that each search may take. -/
  fuel : Nat

/-- What an exploration has done so far. -/
structure Progress (S P K : Type) where
  history : History S P K
  stats : Stats

/-- Computations on the generations of a history. -/
abbrev Explore (S P K : Type) := StateT (Progress S P K) (Except Halt)

/-- What an exploration may ask of older generations, by their index. -/
structure Older (S P K : Type) where
  /-- Find the distance of one of the given nodes. -/
  solve : Nat → List NodeId → StopCriterion → Explore S P K Unit
  /-- Make sure that a node, or the node that covers it, has its successors. -/
  openProvider : Nat → NodeId → Explore S P K Unit

namespace Explore

variable {S P K : Type}

def fail {α : Type} (fault : Fault) : Explore S P K α := throw (Halt.fault fault)

/-- The generation with an index, which has to be held. -/
def generation (index : Nat) : Explore S P K (Generation S P K) := do
  match (← get).history.get? index with
  | some gen => return gen
  | none => fail (.noSuchGeneration index)

def putGeneration (index : Nat) (gen : Generation S P K) : Explore S P K Unit :=
  modify fun progress => { progress with history := progress.history.set index gen }

/-- Change the graph of a generation. -/
def editGraph {α : Type} (index : Nat) (edit : Edit (Graph S) α) : Explore S P K α := do
  let gen ← generation index
  let (result, graph) ← edit.result gen.graph
  putGeneration index { gen with graph }
  return result

/-- The node of a generation's graph. -/
def node (index : Nat) (id : NodeId) : Explore S P K (Node S) := do
  (← generation index).graph.node id

def setHeuristic (index : Nat) (id : NodeId) (value : Distance) : Explore S P K Unit := do
  putGeneration index (← (← generation index).setHeuristic id value)

def setDistance (index : Nat) (id : NodeId) (value : Distance) : Explore S P K Unit := do
  putGeneration index (← (← generation index).setDistance id value)

def count (f : Stats → Stats) : Explore S P K Unit :=
  modify fun progress => { progress with stats := f progress.stats }

end Explore

end GuidedReach
