import GuidedReach.Generation

/-!
# Counters of one check

`Stats` counts what one check found and did; `Stats.text` reports it in one line.
-/

namespace GuidedReach

/-- The counters of one check. -/
structure Stats where
  iteration : Nat := 0
  /-- Nodes carried over from the previous check. -/
  leftoverNodes : Nat := 0
  /-- Covering edges carried over from the previous check. -/
  leftoverCoverings : Nat := 0
  expanded : Nat := 0
  covered : Nat := 0
  /-- Searches run in older generations to compute heuristics. -/
  nestedSearches : Nat := 0
  finiteDistances : Nat := 0
  infiniteDistances : Nat := 0
  targets : Nat := 0
  deriving DecidableEq, Repr, Inhabited

namespace Stats

variable {S P K : Type}

/-- Count what a check starts with. -/
def recordStart (stats : Stats) (gen : Generation S P K) : Stats :=
  { stats with
    leftoverNodes := gen.graph.size
    leftoverCoverings := gen.graph.toList.countP fun (_, node) => node.isCovered }

/-- Count what a check ends with. -/
def recordEnd (stats : Stats) (gen : Generation S P K) : Stats :=
  { stats with
    finiteDistances := gen.searchNodes.toList.countP fun (_, node) => node.distance.isFinite
    infiniteDistances := gen.searchNodes.toList.countP fun (_, node) => node.distance.isInfinite
    targets := gen.graph.toList.countP fun (_, node) => node.isTarget }

/-- The report of a check. -/
def text (stats : Stats) : String :=
  "iteration " ++ toString stats.iteration ++ ": " ++ toString stats.leftoverNodes
    ++ " leftover nodes (" ++ toString stats.leftoverCoverings ++ " covered), "
    ++ toString stats.expanded ++ " expanded, " ++ toString stats.covered ++ " covered, "
    ++ toString stats.nestedSearches ++ " nested searches, "
    ++ toString stats.finiteDistances ++ " finite / " ++ toString stats.infiniteDistances
    ++ " infinite distances, " ++ toString stats.targets ++ " targets"

end Stats

end GuidedReach
