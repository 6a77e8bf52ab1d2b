import GuidedReach.Generation

/-!
# Drawing a generation

`Generation.dot` draws a generation in the Graphviz language: a circle for each node with its
heuristic and distance, doubled for targets; a solid edge from a node to each tree successor; a
dashed edge from a covered node to its coverer.
-/

namespace GuidedReach.Generation

variable {S P K : Type}

/-- The line that draws a node. -/
def nodeLine (gen : Generation S P K) (id : NodeId) (node : Node S) : String :=
  let known := (gen.searchNodes.get? id).getD {}
  let shape := if node.isTarget then "doublecircle" else "circle"
  "  " ++ id.text ++ " [label=\"" ++ id.text ++ "\\nh=" ++ known.heuristic.text ++ " d="
    ++ known.distance.text ++ "\", shape=" ++ shape ++ "];\n"

/-- The lines that draw the edges leaving a node. -/
def edgeLines (id : NodeId) (node : Node S) : String :=
  let tree := node.succs.map fun succ => "  " ++ id.text ++ " -> " ++ succ.text ++ ";\n"
  let covering := match node.covering with
    | some coverer => "  " ++ id.text ++ " -> " ++ coverer.text ++ " [style=dashed];\n"
    | none => ""
  String.join tree ++ covering

/-- The drawing of a generation. -/
def dot (gen : Generation S P K) : String :=
  let nodes := gen.graph.toList
  "digraph generation \x7b\n"
    ++ String.join (nodes.map fun (id, node) => gen.nodeLine id node)
    ++ String.join (nodes.map fun (id, node) => edgeLines id node)
    ++ "\x7d\n"

end GuidedReach.Generation
