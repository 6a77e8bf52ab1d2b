import GuidedReach.StopCriterion

/-!
# Search configurations

A `SearchType` says where the heuristic of a node comes from when its provider has no known
distance. Together with a top-level stop criterion it makes a `Config`; not every pair can be run.

* `Config.make?` — the configuration of a pair, or why there is none.
* `SearchType.retention` — which generations have to be kept.
-/

namespace GuidedReach

/-- Which older generations survive a check. -/
inductive Retention where
  /-- Every generation. -/
  | all
  /-- Only the generation that provides for the live one. -/
  | previous
  deriving DecidableEq, Repr

/-- The name that reports use. -/
def Retention.name : Retention → String
  | .all => "All"
  | .previous => "Previous"

/-- Where heuristics come from when the provider's distance is unknown. -/
inductive SearchType where
  /-- They are never needed: every search computes every distance, from the targets backwards. -/
  | full
  /-- A nested search in the provider generation computes the distance. -/
  | semiOnDemand
  /-- One less than the heuristic of the tree parent. -/
  | decreasing
  deriving DecidableEq, Repr, Inhabited

namespace SearchType

/-- The name that reports use. -/
def name : SearchType → String
  | .full => "Full"
  | .semiOnDemand => "SemiOndemand"
  | .decreasing => "Decreasing"

/-- Nested searches reach back arbitrarily far; otherwise one older generation is enough. -/
def retention : SearchType → Retention
  | .semiOnDemand => .all
  | .full | .decreasing => .previous

/-- Whether the search goes on below nodes that reach a target. -/
def visitsReached : SearchType → Bool
  | .full => true
  | _ => false

/-- Whether providers that are targets are expanded when a search needs their successors. -/
def expandsProviders : SearchType → Bool
  | .semiOnDemand => true
  | _ => false

/-- Whether a node may do without a provider. -/
def toleratesMissingProvider : SearchType → Bool
  | .decreasing => true
  | _ => false

end SearchType

/-- Why a configuration cannot be run. -/
inductive ConfigError where
  /-- A full search computes distances from all targets, so it has to see all of them. -/
  | fullNeedsFullExploration (stop : StopCriterion)
  /-- The criterion is reserved for searches in older generations. -/
  | nestedOnly (stop : StopCriterion)
  deriving DecidableEq, Repr

/-- The text of a configuration error. -/
def ConfigError.message : ConfigError → String
  | .fullNeedsFullExploration stop =>
    "full heuristic search requires the full-exploration stop criterion, got " ++ stop.name
  | .nestedOnly stop => "stop criterion " ++ stop.name ++ " is only used by nested searches"

/-- A configuration that can be run. -/
structure Config where
  search : SearchType
  stop : StopCriterion
  stop_topLevel : stop ≠ .distanceKnowable
  full_sees_all : search = .full → stop = .fullExploration
  deriving DecidableEq, Repr

namespace Config

/-- The configuration of a search type and a stop criterion. -/
def make? (search : SearchType) (stop : StopCriterion) : Except ConfigError Config :=
  if hstop : stop = .distanceKnowable then
    .error (.nestedOnly stop)
  else if hfull : search = .full → stop = .fullExploration then
    .ok ⟨search, stop, hstop, hfull⟩
  else
    .error (.fullNeedsFullExploration stop)

/-- Decreasing heuristics, stopping at the first counterexample. -/
def standard : Config := ⟨.decreasing, .firstCounterexample, by decide, by decide⟩

instance : Inhabited Config := ⟨standard⟩

end Config

end GuidedReach
