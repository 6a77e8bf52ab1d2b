import GuidedReach.Abstractor
import GuidedReach.Partition.Analysis

/-!
# Runs of an abstractor

A caller starts with an empty graph, lets an abstractor check it round by round and prunes it in
between. An `Abstractor.Run` collects what such a caller can arrive at.

* `Abstractor.Run` — runs in which a relation says which precision may come next.
* `Abstractor.RefinementRun` — runs on a system in which the partitions only become finer.
* `Abstractor.Session` — runs that start with any graph, in which any precision may come next.
* `Abstractor.Service` — checks of any graphs.
* `Abstractor.generations` — all generations held between rounds, the live one with its graph.
-/

namespace GuidedReach.Abstractor

variable {S P K : Type} [DecidableEq S] [DecidableEq K]

/-- What a caller arrives at: the precision of the last round, the abstractor and the graph. A round
may take a precision that `mayFollow` the last one. -/
inductive Run (analysis : Analysis S P K) (config : Config) (mayFollow : Option P → P → Prop) :
    Option P → Abstractor S P K → Graph S → Prop where
  | start : Run analysis config mayFollow none { analysis, config } {}
  | prune {last : Option P} {abstractor : Abstractor S P K} {g g' : Graph S} {id : NodeId} :
    Run analysis config mayFollow last abstractor g → (Graph.prune id).run g = .ok () g' →
      Run analysis config mayFollow last abstractor g'
  | pruneAll {last : Option P} {abstractor : Abstractor S P K} {g g' : Graph S} :
    Run analysis config mayFollow last abstractor g → Graph.pruneAll.run g = .ok () g' →
      Run analysis config mayFollow last abstractor g'
  | check {last : Option P} {abstractor abstractor' : Abstractor S P K} {g g' : Graph S} {prec : P}
    {fuel : Nat} {verdict : Verdict} :
    Run analysis config mayFollow last abstractor g → mayFollow last prec →
      abstractor.check fuel g prec = .ok (verdict, abstractor', g') →
        Run analysis config mayFollow (some prec) abstractor' g'

/-- Runs on a system: the first partition is made from the coarsest one, and each further one from
the one before, by any number of splits. -/
def RefinementRun (system : TransitionSystem) (config : Config) :
    Option Partition → Abstractor StateSet Partition Unit → Graph StateSet → Prop :=
  Run system.blockAnalysis config fun last partition =>
    (last.getD (.initial system)).SplitsInto partition

/-- What a caller arrives at who starts with a graph that was made elsewhere, and chooses any precision
for each round. -/
inductive Session (analysis : Analysis S P K) (config : Config) : Abstractor S P K → Graph S → Prop where
  | start {g : Graph S} : g.WellFormed → Session analysis config { analysis, config } g
  | prune {abstractor : Abstractor S P K} {g g' : Graph S} {id : NodeId} :
    Session analysis config abstractor g → (Graph.prune id).run g = .ok () g' →
      Session analysis config abstractor g'
  | pruneAll {abstractor : Abstractor S P K} {g g' : Graph S} :
    Session analysis config abstractor g → Graph.pruneAll.run g = .ok () g' →
      Session analysis config abstractor g'
  | check {abstractor abstractor' : Abstractor S P K} {g g' : Graph S} {prec : P} {fuel : Nat}
    {verdict : Verdict} :
    Session analysis config abstractor g →
      abstractor.check fuel g prec = .ok (verdict, abstractor', g') →
        Session analysis config abstractor' g'

/-- What becomes of an abstractor that checks one graph after another, each at any precision. These are
well-formed, but need not have anything to do with each other. -/
inductive Service (analysis : Analysis S P K) (config : Config) : Abstractor S P K → Prop where
  | start : Service analysis config { analysis, config }
  | check {abstractor abstractor' : Abstractor S P K} {g g' : Graph S} {prec : P} {fuel : Nat}
    {verdict : Verdict} :
    Service analysis config abstractor → g.WellFormed →
      abstractor.check fuel g prec = .ok (verdict, abstractor', g') →
        Service analysis config abstractor'

/-- The generations that an abstractor holds, the live one with the graph that its caller has. -/
def generations (abstractor : Abstractor S P K) (graph : Graph S) : History S P K :=
  match abstractor.history.live? with
  | some live => abstractor.history.set (abstractor.history.length - 1) { live with graph }
  | none => abstractor.history

end GuidedReach.Abstractor
