import GuidedReach.Exploration.Round

/-!
# Checking a graph, round by round

An `Abstractor` explores a reachability graph guided by the distances found in earlier rounds.
Between rounds the caller owns the graph and may only prune it; the next round picks it up again,
with the same node numbers.

* `Abstractor.check` — one round: explores the graph under a precision, leaves the solved generation
  behind in the history and hands the graph back.
* `Abstractor.solved?` — the generation that the last round explored.
-/

namespace GuidedReach

/-- Whether a graph has a target that is not excluded. -/
inductive Verdict where
  | safe
  | counterexample
  deriving DecidableEq, Repr

/-- The state kept from round to round. -/
structure Abstractor (S P K : Type) where
  analysis : Analysis S P K
  config : Config
  history : History S P K := { retention := config.search.retention }
  /-- The counters of the last round. -/
  stats : Stats := {}
  /-- The number of rounds begun. -/
  iteration : Nat := 0

namespace Abstractor

variable {S P K : Type}

/-- The generation that the last round explored, with its distances. -/
def solved? (abstractor : Abstractor S P K) : Option (Generation S P K) :=
  abstractor.history.solved?

variable [DecidableEq S] [DecidableEq K]

/-- Put the caller's graph into the live generation, or into a first one. Returns the history and
the nodes that still need a search node. -/
def install (abstractor : Abstractor S P K) (graph : Graph S) (prec : P) :
    Except Fault (History S P K × List NodeId) := do
  let history := abstractor.history
  match history.live? with
  | some live =>
    let live ← { live with graph, prec }.dropPruned abstractor.analysis
    return (history.set (history.length - 1) live, [])
  | none => return (history.push { graph, prec }, graph.ids)

/-- Explore the graph under a precision until the stop criterion holds. `fuel` bounds the steps of
each search. -/
def check (abstractor : Abstractor S P K) (fuel : Nat) (graph : Graph S) (prec : P) :
    Except Halt (Verdict × Abstractor S P K × Graph S) := do
  let iteration := abstractor.iteration + 1
  let setup : Setup S P K :=
    { analysis := abstractor.analysis, search := abstractor.config.search, fuel }
  let (history, fresh) ← abstractor.install graph prec
  let live := history.length - 1
  let explore : Explore S P K Unit := do
    let gen ← Explore.generation live
    Explore.count (·.recordStart gen)
    Exploration.solveLive setup live fresh abstractor.config.stop
  let ((), progress) ← explore.run { history, stats := { iteration } }
  let (gen, progress) ← (Explore.generation live).run progress
  let stats := progress.stats.recordEnd gen
  let verdict := if gen.graph.isSafe then Verdict.safe else .counterexample
  let history ← progress.history.freezeLive
  let ((), progress) ← (Exploration.resumeLive setup (live + 1)).run { history, stats }
  let history := progress.history.applyRetention
  match history.live? with
  | none => throw (.fault .liveGenerationLost)
  | some gen =>
    let history := history.set (live + 1) { gen with graph := {} }
    return (verdict, { abstractor with history, stats := progress.stats, iteration }, gen.graph)

end Abstractor

end GuidedReach
