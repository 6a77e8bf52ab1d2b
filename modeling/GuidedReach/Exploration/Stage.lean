import GuidedReach.Exploration.Round

/-!
# Searches, step by step

A search that is stopped between two edges has come to a `Stage`. It goes on in small steps: it takes
entries from its waitlist until a node is handed out to visit, and then follows the edges from that
node one by one. A stage keeps a record of both.

* `Leg` — an edge that a search follows.
* `Leg.Leads` — a way along legs, with its length.
* `Entry.first?` — the entry with which a node was finished.
* `Generation.estimate` — what a search expects of the way on from a node.
* `Exploration.advance` — one small step.
* `Exploration.stageAfter` — the stage that a search from some nodes has come to after some steps.
-/

namespace GuidedReach

variable {S P K : Type}

/-- An edge that a search follows, and the depth at which the node at its end is found. -/
structure Leg where
  source : NodeId
  dest : NodeId
  /-- 0 for a covering edge and 1 for a tree edge. -/
  length : Nat
  depth : Nat
  deriving DecidableEq, Repr

/-- Legs of the given total length lead from one of some nodes to a node. -/
inductive Leg.Leads (start : List NodeId) (legs : List Leg) : NodeId → Nat → Prop where
  | start {id : NodeId} : id ∈ start → Leads start legs id 0
  | step {leg : Leg} {length : Nat} :
    Leads start legs leg.source length → leg ∈ legs →
      Leads start legs leg.dest (length + leg.length)

/-- The first entry of a node among those that were taken: the node was finished with it. -/
def Entry.first? (taken : List Entry) (id : NodeId) : Option Entry := taken.find? (·.node = id)

/-- What a search expects of the way on from a node: its distance if that is finite, or else its
heuristic. -/
def Generation.estimate (gen : Generation S P K) (id : NodeId) : Except Fault Distance := do
  let known ← gen.searchNode id
  return if known.distance.isFinite then known.distance else known.heuristic

/-- Where a search has come to, and what it did on the way. -/
structure Stage where
  run : SearchRun
  /-- The entries that were taken from the waitlist, oldest first. -/
  taken : List Entry := []
  /-- The legs that were followed, oldest first. -/
  followed : List Leg := []
  /-- The legs of the current visit that are still to be followed. -/
  pending : List Leg := []
  deriving DecidableEq, Repr

namespace Exploration

open Explore

variable [DecidableEq S] [DecidableEq K]
variable (setup : Setup S P K) (older : Older S P K) (index : Nat)

/-- The first half of a visit: cover or expand the node, or the one that the visit is handed on to.
Returns the legs that the second half follows. -/
def setOut (run : SearchRun) (id : NodeId) (depth : Nat) :
    Explore S P K (List Leg × SearchRun) := do
  let (id, run) ← reroute setup older index run id
  let current ← node index id
  match current.covering with
  | some coverer => return ([{ source := id, dest := coverer, length := 0, depth }], run)
  | none =>
    if !current.isFeasible then return ([], run)
    ensureExpanded setup older index id
    let succs := (← node index id).succs
    return (succs.map fun succ => { source := id, dest := succ, length := 1, depth := depth + 1 }, run)

/-- A small step: follow the next leg of the visit or, if there is none, take entries from the
waitlist and set out from the node that is handed out. Nothing more happens once there is none. -/
def advance (stage : Stage) : Explore S P K Stage := do
  match stage.pending with
  | leg :: pending =>
    let run ← follow setup older index stage.run leg.source leg.dest leg.depth
    return { stage with run, followed := stage.followed ++ [leg], pending }
  | [] =>
    let gen ← generation index
    let (next, run) ← (SearchRun.next gen setup.search.visitsReached).result stage.run
    let gone := stage.run.waitlist.length - run.waitlist.length
    let taken := stage.taken ++ stage.run.waitlist.take gone
    match next with
    | none => return { stage with run, taken }
    | some (id, depth) =>
      let (pending, run) ← setOut setup older index run id depth
      return { stage with run, taken, pending }

/-- The given number of small steps. -/
def advanceBy : (steps : Nat) → Stage → Explore S P K Stage
  | 0, stage => return stage
  | steps + 1, stage => do advanceBy steps (← advance setup older index stage)

/-- The stage at which a search from the given nodes begins. -/
def firstStage (start : List NodeId) (stop : StopCriterion) : Explore S P K Stage := do
  start.forM fun id => do
    let _ ← ensureHeuristic setup older index id
  let searched ← searchableStart index start
  let gen ← generation index
  let ((), run) ← (searched.forM fun id => SearchRun.enqueue gen id none 0).result
    { start := searched, stop }
  return { run }

/-- The stage that a search from the given nodes has come to after some steps. -/
def stageAfter (start : List NodeId) (stop : StopCriterion) (steps : Nat) :
    Explore S P K Stage := do
  advanceBy setup older index steps (← firstStage setup older index start stop)

end Exploration

end GuidedReach
