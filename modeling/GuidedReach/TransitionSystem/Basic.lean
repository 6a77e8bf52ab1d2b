import GuidedReach.Fault

/-!
# Explicit transition systems

A `TransitionSystem` has the states `0, …, states - 1`, some of them initial and some of them
targets, and a list of edges. It can only be made from parts that fit together.

* `TransitionSystem.make?` — the system of given parts, or the first thing wrong with them.
* `TransitionSystem.ring` — a family of examples: a cycle with chords, with or without a target.
* `TransitionSystem.successors` — the distinct successors of a state, in the order of the edges.
* `TransitionSystem.image` — the successors of all states of a set.
-/

namespace GuidedReach

/-- Why some parts make no system. -/
inductive SystemError where
  /-- There is nothing to check. -/
  | empty
  /-- There are more states than supported. -/
  | tooLarge (states : Nat)
  /-- An init state, a target or the end of an edge is not a state. -/
  | unknownState (state states : Nat)
  deriving DecidableEq, Repr

namespace TransitionSystem

/-- The largest number of states that is supported. -/
def maxStates : Nat := 1048576

/-- The distinct successors of each of `states` states, in the order of the edges. -/
def adjacency (states : Nat) (edges : List (Nat × Nat)) : Array (List Nat) :=
  edges.foldl
    (fun succs (source, dest) =>
      succs.modify source fun known => if dest ∈ known then known else known ++ [dest])
    (Array.replicate states [])

/-- The numbers that must be states: the init states, the targets, and the ends of the edges. -/
def mentioned (init : List Nat) (edges : List (Nat × Nat)) (targets : List Nat) : List Nat :=
  init ++ targets ++ edges.flatMap fun (source, dest) => [source, dest]

end TransitionSystem

/-- The text of a system error. -/
def SystemError.message : SystemError → String
  | .empty => "the system has no states"
  | .tooLarge states =>
    "the system has " ++ toString states ++ " states, at most "
      ++ toString TransitionSystem.maxStates ++ " are supported"
  | .unknownState state states =>
    "state " ++ toString state ++ " is out of range (the system has " ++ toString states
      ++ " states)"

/-- A finite transition system. -/
structure TransitionSystem where
  /-- The number of states. -/
  states : Nat
  init : StateSet
  /-- The transitions, in the order in which they were given, with repetitions. -/
  edges : List (Nat × Nat)
  targets : StateSet
  /-- The distinct successors of each state. -/
  succs : Array (List Nat)
  states_pos : 0 < states
  states_le : states ≤ TransitionSystem.maxStates
  init_lt : ∀ s, s ∈ init → s < states
  targets_lt : ∀ s, s ∈ targets → s < states
  edges_lt : ∀ e, e ∈ edges → e.1 < states ∧ e.2 < states
  succs_eq : succs = TransitionSystem.adjacency states edges
  deriving DecidableEq, Repr

namespace TransitionSystem

/-- The system of the given parts. -/
def make? (states : Nat) (init : List Nat) (edges : List (Nat × Nat)) (targets : List Nat) :
    Except SystemError TransitionSystem :=
  if hpos : states = 0 then
    .error .empty
  else if hle : maxStates < states then
    .error (.tooLarge states)
  else
    match hfind : (mentioned init edges targets).find? (fun s => decide (states ≤ s)) with
    | some s => .error (.unknownState s states)
    | none =>
      have hlt : ∀ s, s ∈ mentioned init edges targets → s < states := fun s hs => by
        have := List.find?_eq_none.1 hfind s hs
        simpa using this
      .ok {
        states, edges
        init := .ofList init
        targets := .ofList targets
        succs := adjacency states edges
        states_pos := Nat.pos_of_ne_zero hpos
        states_le := Nat.le_of_not_lt hle
        init_lt := fun s hs => hlt s (by simp_all [mentioned])
        targets_lt := fun s hs => hlt s (by simp_all [mentioned])
        edges_lt := fun e he =>
          ⟨hlt e.1 (List.mem_append_right _ (List.mem_flatMap.2 ⟨e, he, by simp⟩)),
            hlt e.2 (List.mem_append_right _ (List.mem_flatMap.2 ⟨e, he, by simp⟩))⟩
        succs_eq := rfl }

/-- Why there is no ring of a size. -/
structure RingError where
  size : Nat
  cause : SystemError
  deriving DecidableEq, Repr

/-- The text of a ring error. -/
def RingError.message (error : RingError) : String :=
  "invalid ring of size " ++ toString error.size ++ ": " ++ error.cause.message

/-- The cycle `0 → 1 → … → size - 1 → 0` with a chord `i → i + 2` from each even state, starting at
0. The target, if any, is an extra state that is entered from the state `before`. -/
def ring (size : Nat) (before : Option Nat) : Except RingError TransitionSystem :=
  let cycle := (List.range size).map fun i => (i, (i + 1) % size)
  let chords := (List.range ((size + 1) / 2)).map fun i => (2 * i, (2 * i + 2) % size)
  let entry := before.toList.map fun state => (state, size)
  let targets := before.toList.map fun _ => size
  (make? (size + 1) [0] (cycle ++ chords ++ entry) targets).mapError (RingError.mk size)

/-- All states. -/
def allStates (system : TransitionSystem) : StateSet := .below system.states

def isTarget (system : TransitionSystem) (state : Nat) : Bool := system.targets.contains state

/-- The distinct successors of a state; a number that is no state has none. -/
def successors (system : TransitionSystem) (state : Nat) : List Nat :=
  (system.succs[state]?).getD []

/-- The successors of all states of a set. -/
def image (system : TransitionSystem) (set : StateSet) : StateSet :=
  .ofList (set.toList.flatMap system.successors)

/-- Refuse numbers that are no states. -/
def checkStates (system : TransitionSystem) (states : List Nat) : Except Fault Unit :=
  demand (states.all (· < system.states)) .stateOutOfRange

/-- The distinct successors of a number that has to be a state. -/
def successors? (system : TransitionSystem) (state : Nat) : Except Fault (List Nat) := do
  system.checkStates [state]
  return system.successors state

/-- The successors of a set whose members have to be states. -/
def image? (system : TransitionSystem) (set : StateSet) : Except Fault StateSet := do
  system.checkStates set.toList
  return system.image set

end TransitionSystem

end GuidedReach
