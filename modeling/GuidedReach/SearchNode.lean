import GuidedReach.Distance.Known

/-!
# What a search knows about a node

A `SearchNode` holds a lower bound for the distance of a graph node, its *heuristic*, and the
distance itself. Each is written once: a known value may only be written again as it is. A write is
refused when a target would not sit at 0 or when the heuristic would exceed the distance.

* `SearchNode.setHeuristic`, `SearchNode.setDistance` — the checked writes.
* `SearchNode.checkFits` — whether the known values could be written to a given node.
* `SearchNode.Admissible` — what the checks keep true.
-/

namespace GuidedReach

/-- The search data of one graph node. -/
structure SearchNode where
  /-- The corresponding node of the generation that heuristics are taken from. -/
  provider : Option NodeId := none
  heuristic : Distance := .unknown
  distance : Distance := .unknown
  deriving DecidableEq, Repr, Inhabited

namespace SearchNode

/-- Known values are in order. -/
def Admissible (node : SearchNode) : Prop :=
  node.heuristic.isKnown = true → node.distance.isKnown = true →
    node.heuristic.notAbove node.distance = true

def setProvider (provider : Option NodeId) : Edit SearchNode Unit :=
  modify fun node => { node with provider }

/-- Refuse a heuristic above the distance. -/
def checkAdmissible (node : SearchNode) : Except Fault Unit := do
  if node.heuristic.isKnown && node.distance.isKnown then
    demand (← node.heuristic.le node.distance) (.heuristicTooLarge node.heuristic node.distance)

/-- Refuse known values that do not fit a graph node: they could not be written now. -/
def checkFits (node : SearchNode) (isTarget : Bool) : Except Fault Unit := do
  if node.heuristic.isKnown then
    demand (!isTarget || node.heuristic == .zero) .targetHeuristicNotZero
  if node.distance.isKnown then
    demand (!isTarget || node.distance == .zero) .targetDistanceNotZero
  node.checkAdmissible

/-- Write the heuristic. -/
def setHeuristic (value : Distance) (isTarget : Bool) : Edit SearchNode Unit := do
  demand value.isKnown .heuristicSetToUnknown
  let node ← get
  if node.heuristic.isKnown then
    demand (node.heuristic == value) .heuristicAlreadyKnown
  else
    demand (!isTarget || value == .zero) .targetHeuristicNotZero
    set { node with heuristic := value }
    (← get).checkAdmissible

/-- Write the distance. -/
def setDistance (value : Distance) (isTarget : Bool) : Edit SearchNode Unit := do
  demand value.isKnown .distanceSetToUnknown
  let node ← get
  if node.distance.isKnown then
    demand (node.distance == value) .distanceAlreadyKnown
  else
    demand (!isTarget || value == .zero) .targetDistanceNotZero
    set { node with distance := value }
    (← get).checkAdmissible

/-- Forget heuristic and distance, and keep the provider. -/
def reset : Edit SearchNode Unit :=
  modify fun node => { provider := node.provider }

end SearchNode

end GuidedReach
