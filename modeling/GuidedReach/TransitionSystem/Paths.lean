import GuidedReach.TransitionSystem.Basic

/-!
# Paths of a transition system

* `TransitionSystem.replay` — the states in which paths through a list of sets can end, set by set.
* `TransitionSystem.concreteTrace` — a path through a list of sets that ends in a target.
* `TransitionSystem.targetDistance` — the length of a shortest path to a target.
* `TransitionSystem.isSafe` — whether no target can be reached.
* `TransitionSystem.isCounterexample` — whether a list of states is a path that reaches one.
-/

namespace GuidedReach.TransitionSystem

/-! ## Paths through sets -/

/-- The end states of the paths that continue from `previous` through each further set, up to the
first set that no path reaches. -/
def replayFrom (system : TransitionSystem) (previous : StateSet) : List StateSet → List StateSet
  | [] => []
  | block :: rest =>
    let next := (system.image previous).inter block
    next :: if next.isEmpty then [] else replayFrom system next rest

/-- The end states of the paths that start in an init state and go through the first sets of a list,
for each number of sets up to the first set that no path reaches. -/
def replay (system : TransitionSystem) : List StateSet → List StateSet
  | [] => []
  | block :: rest =>
    let first := system.init.inter block
    first :: if first.isEmpty then [] else system.replayFrom first rest

/-- A path to `state` with one state in each set of a list, the last set first. -/
def traceBack (system : TransitionSystem) (state : Nat) : List StateSet → Option (List Nat)
  | [] => some [state]
  | previous :: rest => do
    let before ← previous.toList.find? fun s => (system.successors s).contains state
    let path ← traceBack system before rest
    return path ++ [state]

/-- A path through all sets of a list that starts in an init state and ends in a target. -/
def concreteTrace (system : TransitionSystem) (blocks : List StateSet) : Option (List Nat) := do
  let reach := system.replay blocks
  guard (reach.length = blocks.length)
  match reach.reverse with
  | [] => none
  | last :: before =>
    let target ← last.toList.find? system.isTarget
    system.traceBack target before

/-! ## Shortest paths -/

/-- The successors of a list of states that have not been seen, now seen. -/
def nextLevel (system : TransitionSystem) (seen : Array Bool) (level : List Nat) :
    Array Bool × List Nat :=
  (level.flatMap system.successors).foldl
    (fun (seen, next) state =>
      if seen[state]? = some false then (seen.set! state true, state :: next) else (seen, next))
    (seen, [])

/-- Search level by level for a target, starting at a level at the given depth. -/
def targetDepth (system : TransitionSystem) :
    (levels : Nat) → (seen : Array Bool) → (level : List Nat) → (depth : Nat) → Option Nat
  | 0, _, _, _ => none
  | levels + 1, seen, level, depth =>
    if level.isEmpty then none
    else if level.any system.isTarget then some depth
    else
      let (seen, next) := system.nextLevel seen level
      targetDepth system levels seen next (depth + 1)

/-- The length of a shortest path from a state to a target. Every level holds a state that was not
seen before, so there are at most as many levels as states. -/
def targetDistance (system : TransitionSystem) (state : Nat) : Option Nat :=
  let seen := (Array.replicate system.states false).set! state true
  system.targetDepth (system.states + 1) seen [state] 0

/-- The length of a shortest path to a target from a number that has to be a state. -/
def targetDistance? (system : TransitionSystem) (state : Nat) : Except Fault (Option Nat) := do
  system.checkStates [state]
  return system.targetDistance state

/-- Whether no target can be reached from an init state. -/
def isSafe (system : TransitionSystem) : Bool :=
  system.init.toList.all fun s => (system.targetDistance s).isNone

/-! ## Counterexamples -/

/-- Whether each state of a list is followed by one of its successors. -/
def followsEdges (system : TransitionSystem) : List Nat → Bool
  | first :: second :: rest =>
    (system.successors first).contains second && followsEdges system (second :: rest)
  | _ => true

/-- Whether a list of states starts in an init state, follows edges and ends in a target. -/
def isCounterexample (system : TransitionSystem) (trace : List Nat) : Bool :=
  match trace.head?, trace.getLast? with
  | some first, some last =>
    system.init.contains first && system.isTarget last && system.followsEdges trace
  | _, _ => false

end GuidedReach.TransitionSystem
