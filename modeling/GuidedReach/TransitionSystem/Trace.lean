import Mathlib.Data.List.Forall2
import Mathlib.Data.List.Chain
import Mathlib.Order.Bounds.Defs
import GuidedReach.TransitionSystem.Paths
import GuidedReach.TransitionSystem.Walk

/-!
# Paths through a list of sets

`TransitionSystem.replay` and `TransitionSystem.concreteTrace` look for paths that have one state in
each set of a list.

* `TransitionSystem.Realizes` — a path through all sets of a list, from an init state on.
* `TransitionSystem.CanEnd` — the states in which such paths end.
* `TransitionSystem.FeasibleAlong` — such a path that ends in a target.
* `TransitionSystem.LongestRealized` — how many of the sets paths get through.
* `TransitionSystem.replay?`, `TransitionSystem.concreteTrace?` — the same searches, where looking up
  the successors of a number that is no state is a fault.
-/

namespace GuidedReach.TransitionSystem

/-! ## Paths -/

/-- A path that starts in an init state, follows transitions and has one state in each set. -/
structure Realizes (system : TransitionSystem) (sets : List StateSet) (path : List Nat) : Prop where
  starts : ∃ s, path.head? = some s ∧ s ∈ system.init
  steps : path.IsChain system.Step
  inside : List.Forall₂ (fun s set => s ∈ set) path sets

/-- A path through all sets ends in the state. -/
def CanEnd (system : TransitionSystem) (sets : List StateSet) (state : Nat) : Prop :=
  ∃ path, system.Realizes sets path ∧ path.getLast? = some state

/-- A path through all sets that ends in a target. -/
def FeasibleAlong (system : TransitionSystem) (sets : List StateSet) (path : List Nat) : Prop :=
  system.Realizes sets path ∧ ∃ target, path.getLast? = some target ∧ target ∈ system.targets

/-- The longest beginning of a list through all of whose sets a path leads has this length. -/
def LongestRealized (system : TransitionSystem) (sets : List StateSet) (length : Nat) : Prop :=
  IsGreatest {k | k ≤ sets.length ∧ ∃ path, system.Realizes (sets.take k) path} length

/-! ## Searching with checked accesses -/

def replayFrom? (system : TransitionSystem) (previous : StateSet) :
    List StateSet → Except Fault (List StateSet)
  | [] => return []
  | block :: rest => do
    let next := (← system.image? previous).inter block
    if next.isEmpty then return [next]
    return next :: (← replayFrom? system next rest)

def replay? (system : TransitionSystem) : List StateSet → Except Fault (List StateSet)
  | [] => return []
  | block :: rest => do
    let first := system.init.inter block
    if first.isEmpty then return [first]
    return first :: (← system.replayFrom? first rest)

/-- The first of some numbers that has the state as a successor. All before it have to be states. -/
def findBefore? (system : TransitionSystem) (state : Nat) : List Nat → Except Fault (Option Nat)
  | [] => return none
  | s :: rest => do
    if (← system.successors? s).contains state then return some s
    findBefore? system state rest

def traceBack? (system : TransitionSystem) (state : Nat) :
    List StateSet → Except Fault (Option (List Nat))
  | [] => return some [state]
  | previous :: rest => do
    let some before ← system.findBefore? state previous.toList | return none
    let some path ← traceBack? system before rest | return none
    return some (path ++ [state])

def concreteTrace? (system : TransitionSystem) (blocks : List StateSet) :
    Except Fault (Option (List Nat)) := do
  let reach ← system.replay? blocks
  if reach.length ≠ blocks.length then return none
  match reach.reverse with
  | [] => return none
  | last :: before =>
    let some target := last.toList.find? system.isTarget | return none
    system.traceBack? target before

end GuidedReach.TransitionSystem
