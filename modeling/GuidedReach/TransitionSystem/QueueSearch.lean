import GuidedReach.TransitionSystem.Basic

/-!
# Looking for a target with a queue

`TransitionSystem.targetDistance` goes from level to level. A `QueueSearch` takes one state after the
other from a queue; a state enters the queue when it is found for the first time. Both find the nearest
target.

* `QueueSearch.discover` — a state is found.
* `QueueSearch.run` — states are taken off the queue until one is a target.
-/

namespace GuidedReach

/-- A search with a queue. -/
structure QueueSearch where
  /-- All states found so far. -/
  seen : StateSet
  /-- Those still to be looked at, with their depths, in the order in which they were found. -/
  queue : List (Nat × Nat)
  deriving DecidableEq, Repr

namespace QueueSearch

/-- The search from a state before its first turn. -/
def start (state : Nat) : QueueSearch where
  seen := .ofList [state]
  queue := [(state, 0)]

/-- A state enters the queue when it is found for the first time. -/
def discover (depth : Nat) (search : QueueSearch) (state : Nat) : QueueSearch :=
  if state ∈ search.seen then search
  else ⟨search.seen.insert state, search.queue ++ [(state, depth)]⟩

/-- Take states off the queue until one is a target or none is left, for some number of turns at most.
The successors of a number that is no state cannot be looked up. -/
def run (system : TransitionSystem) : (turns : Nat) → QueueSearch → Except Halt (Option Nat)
  | 0, _ => throw .outOfFuel
  | turns + 1, search =>
    match search.queue with
    | [] => return none
    | (state, depth) :: waiting => do
      if system.isTarget state then return some depth
      let found ← system.successors? state
      run system turns (found.foldl (discover (depth + 1)) { search with queue := waiting })

end QueueSearch

end GuidedReach
