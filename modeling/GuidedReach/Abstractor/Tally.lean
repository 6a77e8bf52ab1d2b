import GuidedReach.Abstractor

/-!
# What the counters of a check refer to

* `Graph.count`, `History.count` — the nodes that pass a test, in one graph or in all that are held.
* `Abstractor.searched` — the generations that are held when the search of a check begins and ends.
-/

namespace GuidedReach

variable {S P K : Type}

/-- The number of nodes that pass a test. -/
def Graph.count (p : Node S → Bool) (g : Graph S) : Nat := g.toList.countP (p ·.2)

/-- The number of nodes that pass a test, in the graphs of all generations that are held. -/
def History.count (p : Node S → Bool) (history : History S P K) : Nat :=
  (history.slots.toList.flatMap fun slot => slot.elim [] (·.graph.toList)).countP (p ·.2)

/-- The generations that are held when the search of a check begins, and when it ends. -/
def Abstractor.searched [DecidableEq S] [DecidableEq K] (abstractor : Abstractor S P K) (fuel : Nat)
    (graph : Graph S) (prec : P) : Except Halt (History S P K × History S P K) := do
  let setup : Setup S P K :=
    { analysis := abstractor.analysis, search := abstractor.config.search, fuel }
  let (history, fresh) ← abstractor.install graph prec
  let live := history.length - 1
  let explore : Explore S P K Unit := do
    let gen ← Explore.generation live
    Explore.count (·.recordStart gen)
    Exploration.solveLive setup live fresh abstractor.config.stop
  let ((), progress) ← explore.run { history, stats := { iteration := abstractor.iteration + 1 } }
  return (history, progress.history)

end GuidedReach
