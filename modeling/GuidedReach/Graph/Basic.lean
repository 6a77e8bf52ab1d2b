import GuidedReach.Fault

/-!
# Abstract reachability graphs

A `Graph` is a forest of abstract states together with covering edges. Its roots are the *init*
nodes; a *covered* node points at the node that stands in for it. Pruned nodes leave a vacant slot,
so a number that is still in the graph always names the same node.

* `Graph.ancestors`, `Graph.descendants`, `Graph.traceTo` — walks along the tree edges.
* `Graph.isExcluded` — whether a node lies below a covered or infeasible one.
* `Graph.unsafeNodes`, `Graph.isSafe` — the targets that are not excluded.
* `Graph.isComplete` — whether every node that has to be expanded is expanded.
* `Graph.WellFormed` — the links of a graph agree with each other.
-/

namespace GuidedReach

/-- A node of a reachability graph. -/
structure Node (S : Type) where
  /-- The abstract state of the node. -/
  state : S
  /-- The number of tree edges above the node. -/
  depth : Nat
  /-- Whether the state is an error state. -/
  isTarget : Bool
  /-- Whether the state is not empty. -/
  isFeasible : Bool
  /-- The tree parent; init nodes have none. -/
  parent : Option NodeId
  /-- The tree successors, oldest first. -/
  succs : List NodeId := []
  /-- The node that covers this one. -/
  covering : Option NodeId := none
  /-- The nodes covered by this one. -/
  covered : List NodeId := []
  /-- Whether all successors of the state have been created. -/
  isExpanded : Bool := false
  deriving DecidableEq, Repr

namespace Node

variable {S : Type}

def isLeaf (node : Node S) : Bool := node.succs.isEmpty

def isCovered (node : Node S) : Bool := node.covering.isSome

def isInit (node : Node S) : Bool := node.parent.isNone

/-- Nothing below a covered or infeasible node needs to be explored. -/
def isSubsumed (node : Node S) : Bool := node.isCovered || !node.isFeasible

end Node

/-- A reachability graph. -/
structure Graph (S : Type) where
  nodes : NodeMap (Node S) := {}
  /-- The roots, oldest first. -/
  initNodes : List NodeId := []
  /-- Whether all init states have been added. -/
  isInitialized : Bool := false
  deriving DecidableEq, Repr

namespace Graph

variable {S : Type}

instance : Inhabited (Graph S) := ⟨{}⟩

/-! ## Looking at nodes -/

def get? (g : Graph S) (id : NodeId) : Option (Node S) := g.nodes.get? id

/-- The node with a number, which has to be in the graph. -/
def node (g : Graph S) (id : NodeId) : Except Fault (Node S) :=
  match g.get? id with
  | some node => .ok node
  | none => .error (.notInGraph id)

/-- Whether a node was created and has not been pruned. -/
def contains (g : Graph S) (id : NodeId) : Bool := g.nodes.contains id

/-- The numbers of the nodes, oldest first. -/
def ids (g : Graph S) : List NodeId := g.nodes.ids

/-- The nodes with their numbers, oldest first. -/
def toList (g : Graph S) : List (NodeId × Node S) := g.nodes.toList

def size (g : Graph S) : Nat := g.ids.length

def isEmpty (g : Graph S) : Bool := g.ids.isEmpty

/-- Whether a node of the graph passes a test. -/
def test (g : Graph S) (p : Node S → Bool) (id : NodeId) : Bool := (g.get? id).any p

/-- The states of the given nodes. -/
def statesOf (g : Graph S) (ids : List NodeId) : List S :=
  ids.filterMap fun id => (g.get? id).map (·.state)

/-! ## Walking the tree -/

/-- The node and at most `steps` of its tree ancestors, bottom up. -/
def ancestorsWithin (g : Graph S) : (steps : Nat) → NodeId → List NodeId
  | 0, id => [id]
  | steps + 1, id =>
    match (g.get? id).bind (·.parent) with
    | some parent => id :: ancestorsWithin g steps parent
    | none => [id]

/-- The node followed by its tree ancestors up to an init node. Numbers decrease on the way up, so
there are at most as many ancestors as smaller numbers. -/
def ancestors (g : Graph S) (id : NodeId) : List NodeId := g.ancestorsWithin id id

/-- The nodes of the subtree at a node down to `levels` levels, in preorder. -/
def descendantsWithin (g : Graph S) : (levels : Nat) → NodeId → List NodeId
  | 0, _ => []
  | levels + 1, id =>
    id :: (((g.get? id).map (·.succs)).getD []).flatMap (descendantsWithin g levels)

/-- The node and its tree descendants, in preorder. Numbers increase on the way down, so there are
at most as many levels as slots. -/
def descendants (g : Graph S) (id : NodeId) : List NodeId :=
  g.descendantsWithin g.nodes.slotCount id

/-- The tree path from an init node to a node. -/
def traceTo (g : Graph S) (id : NodeId) : List NodeId := (g.ancestors id).reverse

/-! ## What is left to explore -/

/-- Whether the node or one of its ancestors is covered or infeasible. -/
def isExcluded (g : Graph S) (id : NodeId) : Bool := (g.ancestors id).any (g.test Node.isSubsumed)

/-- The targets that are not excluded. -/
def unsafeNodes (g : Graph S) : List NodeId :=
  g.ids.filter fun id => g.test (·.isTarget) id && !g.isExcluded id

/-- Whether no target is left. -/
def isSafe (g : Graph S) : Bool := g.unsafeNodes.isEmpty

/-- Whether every node that is neither a target nor excluded is expanded. -/
def isComplete (g : Graph S) : Bool :=
  g.ids.all fun id => g.test (·.isExpanded) id || g.test (·.isTarget) id || g.isExcluded id

/-- The nodes whose successors were computed and turned out to be none. -/
def deadEnds (g : Graph S) : List NodeId :=
  g.ids.filter (g.test fun node => node.isExpanded && node.isLeaf)

/-! ## Agreement of the links -/

/-- The links of a graph agree with each other. -/
structure WellFormed (g : Graph S) : Prop where
  /-- A tree parent is older than its child, sits one level higher and lists the child once. -/
  parent_link : ∀ {c n p}, g.get? c = some n → n.parent = some p →
    p < c ∧ ∃ m, g.get? p = some m ∧ n.depth = m.depth + 1 ∧ m.succs.count c = 1
  /-- What a node lists as a successor has it as its parent. -/
  succ_link : ∀ {p m c}, g.get? p = some m → c ∈ m.succs →
    ∃ n, g.get? c = some n ∧ n.parent = some p
  /-- A node without a parent is listed once as an init node and sits at depth 0. -/
  init_link : ∀ {i n}, g.get? i = some n → n.parent = none → g.initNodes.count i = 1 ∧ n.depth = 0
  /-- What is listed as an init node is in the graph and has no parent. -/
  init_parentless : ∀ {i}, i ∈ g.initNodes → ∃ n, g.get? i = some n ∧ n.parent = none
  /-- A coverer is uncovered, is another node, and lists the covered node once. -/
  covering_link : ∀ {n a c}, g.get? n = some a → a.covering = some c →
    n ≠ c ∧ ∃ b, g.get? c = some b ∧ b.covering = none ∧ b.covered.count n = 1
  /-- What a node lists as covered points back at it. -/
  covered_link : ∀ {c b n}, g.get? c = some b → n ∈ b.covered →
    ∃ a, g.get? n = some a ∧ a.covering = some c

end Graph

end GuidedReach
