import GuidedReach.Checker

/-!
# Runs of a checker

A `Checker` may be asked again and again, each time with a partition of its own.

* `Checker.Run` — the checkers that are left behind after any number of answers.
* `Checker.Reached` — the checkers that there are meanwhile, after any number of half rounds.
-/

namespace GuidedReach.Checker

/-- The checkers left behind after some answers. The partitions asked about need not be related. -/
inductive Run (system : TransitionSystem) (config : Config) : Checker → Prop where
  | start : Run system config (.start system config)
  | check {checker checker' : Checker} {partition : Partition} {fuel : Nat} {answer : Answer} :
    Run system config checker → (Partition.initial system).SplitsInto partition →
      checker.check fuel partition = .ok (answer, checker') → Run system config checker'

/-- The checkers that any number of half rounds arrive at, whatever partitions the graph is explored
under and refined with, and whatever the counters record. -/
inductive Reached (system : TransitionSystem) (config : Config) : Checker → Prop where
  | start : Reached system config (.start system config)
  | explore {checker explored : Checker} {partition : Partition} {fuel : Nat} {verdict : Verdict} :
    Reached system config checker → (Partition.initial system).SplitsInto partition →
      checker.explore fuel partition = .ok (verdict, explored) → Reached system config explored
  | refine {checker refined : Checker} {partition : Partition} {refinement : Refinement} :
    Reached system config checker → (Partition.initial system).SplitsInto partition →
      checker.refine partition = .ok (refinement, refined) → Reached system config refined
  | count {checker : Checker} (stats : CheckerStats) :
    Reached system config checker → Reached system config { checker with stats }

end GuidedReach.Checker
