import GuidedReach.Abstractor
import GuidedReach.Partition.Analysis
import GuidedReach.Refinement
import GuidedReach.Text.Seconds

/-!
# Checking a system

A `Checker` alternates exploration of an abstract graph with refinement along its counterexamples,
until the graph is safe or a counterexample is real.

* `Checker.explore`, `Checker.refine` — the two halves of a round.
* `Checker.checkTimed` — rounds until an answer is found, timed by a clock.
* `Checker.check` — the same without a clock.
* `TransitionSystem.check` — the answer for a system, starting from its coarsest partition.
-/

namespace GuidedReach

/-- The answer for a system. -/
inductive Answer where
  /-- No target can be reached. -/
  | safe
  /-- A path from an init state to a target. -/
  | counterexample (trace : List Nat)
  deriving DecidableEq, Repr

/-- What a checker spent its time on. -/
structure CheckerStats where
  iterations : Nat := 0
  /-- Nodes expanded, over all rounds. -/
  expanded : Nat := 0
  /-- The size of the last partition. -/
  blocks : Nat := 0
  exploringNanos : Nat := 0
  refiningNanos : Nat := 0
  deriving DecidableEq, Repr, Inhabited

/-- The report of a checker. -/
def CheckerStats.text (stats : CheckerStats) : String :=
  "iterations: " ++ toString stats.iterations
    ++ "\nexpanded:   " ++ toString stats.expanded
    ++ "\nblocks:     " ++ toString stats.blocks
    ++ "\nabstractor: " ++ Seconds.text stats.exploringNanos ++ "s"
    ++ "\nrefiner:    " ++ Seconds.text stats.refiningNanos ++ "s"

/-- The state kept from round to round. -/
structure Checker where
  system : TransitionSystem
  abstractor : Abstractor StateSet Partition Unit
  /-- The graph as the last round left it. -/
  graph : Graph StateSet := {}
  stats : CheckerStats := {}

namespace Checker

/-- A checker that has not done anything yet. -/
def start (system : TransitionSystem) (config : Config) : Checker :=
  { system, abstractor := { analysis := system.blockAnalysis, config } }

/-- Explore the graph under a partition. -/
def explore (checker : Checker) (fuel : Nat) (partition : Partition) :
    Except Halt (Verdict × Checker) := do
  let (verdict, abstractor, graph) ← checker.abstractor.check fuel checker.graph partition
  let stats := { checker.stats with
    iterations := checker.stats.iterations + 1
    blocks := partition.size
    expanded := checker.stats.expanded + abstractor.stats.expanded }
  return (verdict, { checker with abstractor, graph, stats })

/-- Refine the partition along a counterexample of the graph. -/
def refine (checker : Checker) (partition : Partition) : Except Fault (Refinement × Checker) := do
  let (refinement, graph) ← (checker.system.refine partition).result checker.graph
  return (refinement, { checker with graph })

def addExploring (checker : Checker) (nanos : Nat) : Checker :=
  { checker with
    stats := { checker.stats with exploringNanos := checker.stats.exploringNanos + nanos } }

def addRefining (checker : Checker) (nanos : Nat) : Checker :=
  { checker with
    stats := { checker.stats with refiningNanos := checker.stats.refiningNanos + nanos } }

/-- Go through rounds until there is an answer. The clock counts nanoseconds. -/
def checkTimed {m : Type → Type} [Monad m] (clock : m Nat) (fuel : Nat) :
    (rounds : Nat) → Checker → Partition → m (Except Halt (Answer × Checker))
  | 0, _, _ => return .error .outOfFuel
  | rounds + 1, checker, partition => do
    let began ← clock
    match checker.explore fuel partition with
    | .error halt => return .error halt
    | .ok (verdict, checker) =>
      let explored ← clock
      let checker := checker.addExploring (explored - began)
      match verdict with
      | .safe => return .ok (.safe, checker)
      | .counterexample =>
        match checker.refine partition with
        | .error fault => return .error (.fault fault)
        | .ok (refinement, checker) =>
          let refined ← clock
          let checker := checker.addRefining (refined - explored)
          match refinement with
          | .feasible trace => return .ok (.counterexample trace, checker)
          | .spurious partition => checkTimed clock fuel rounds checker partition

/-- Go through rounds until there is an answer. `fuel` bounds their number and the steps of each
search. -/
def check (checker : Checker) (fuel : Nat) (partition : Partition) :
    Except Halt (Answer × Checker) :=
  Id.run (checkTimed (pure 0) fuel fuel checker partition)

end Checker

/-- The answer for a system, and what it took. -/
def TransitionSystem.check (system : TransitionSystem) (config : Config) (fuel : Nat) :
    Except Halt (Answer × CheckerStats) := do
  let (answer, checker) ← (Checker.start system config).check fuel (.initial system)
  return (answer, checker.stats)

end GuidedReach
