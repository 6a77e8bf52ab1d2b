import GuidedReach.Graph.Basic

/-!
# Paths in a reachability graph

A path goes down tree edges, each of length 1, and along covering edges, each of length 0: what lies
below a coverer stands in for what would lie below the covered node.

* `Graph.Edge`, `Graph.Path` — edges and paths with their lengths.
* `Graph.ReachesTarget` — whether a path of a length leads from a node to a target.
* `Graph.Path.trans` — paths can be joined, and their lengths add up.
-/

namespace GuidedReach.Graph

variable {S : Type} {g : Graph S}

/-- An edge with its length. -/
inductive Edge (g : Graph S) : NodeId → NodeId → Nat → Prop where
  /-- From a node down to a tree successor. -/
  | tree {parent child : NodeId} {node : Node S} :
    g.get? child = some node → node.parent = some parent → Edge g parent child 1
  /-- From a covered node to its coverer. -/
  | covering {covered coverer : NodeId} {node : Node S} :
    g.get? covered = some node → node.covering = some coverer → Edge g covered coverer 0

/-- A path with its length. -/
inductive Path (g : Graph S) : NodeId → NodeId → Nat → Prop where
  | refl (a : NodeId) : Path g a a 0
  | step {a b c : NodeId} {weight length : Nat} :
    g.Edge a b weight → Path g b c length → Path g a c (weight + length)

/-- A path of the given length leads from a node to a target. -/
def ReachesTarget (g : Graph S) (id : NodeId) (length : Nat) : Prop :=
  ∃ target node, g.Path id target length ∧ g.get? target = some node ∧ node.isTarget = true

theorem Path.trans {a b c : NodeId} {m n : Nat} (hab : g.Path a b m) (hbc : g.Path b c n) :
    g.Path a c (m + n) := by
  induction hab with
  | refl => simpa using hbc
  | step hedge _ ih => rw [Nat.add_assoc]; exact .step hedge (ih hbc)

theorem ReachesTarget.step {a b : NodeId} {weight length : Nat} (hedge : g.Edge a b weight)
    (hb : g.ReachesTarget b length) : g.ReachesTarget a (weight + length) := by
  obtain ⟨target, node, hpath, hnode, htarget⟩ := hb
  exact ⟨target, node, .step hedge hpath, hnode, htarget⟩

end GuidedReach.Graph
