import GuidedReach.TransitionSystem.Basic

/-!
# Parts of a transition system

What the parts of a system have to be like, and what the table of its successors has to list.

* `TransitionSystem.Fits` — the parts fit together.
* `TransitionSystem.FirstUnknown`, `TransitionSystem.Refused` — what is wrong first with parts that
  do not.
* `TransitionSystem.ListsEnds` — the ends of the edges from a state, in the order in which they first
  occur.
* `TransitionSystem.adjacency?` — the same table, where an access out of its range is a fault.
-/

namespace GuidedReach.TransitionSystem

/-! ## Validity -/

section Parts

variable (states : Nat) (init : List Nat) (edges : List (Nat × Nat)) (targets : List Nat)

/-- The parts fit together: there are states, at most 2²⁰ of them, and nothing else is mentioned. -/
structure Fits : Prop where
  states_pos : 0 < states
  states_le : states ≤ 1048576
  init_lt : ∀ s ∈ init, s < states
  targets_lt : ∀ s ∈ targets, s < states
  edges_lt : ∀ e ∈ edges, e.1 < states ∧ e.2 < states

/-- The first number that is mentioned and no state. The init states come before the targets, these
before the edges, and the source of an edge before its destination. -/
inductive FirstUnknown : Nat → Prop where
  | init {before after : List Nat} {s : Nat} :
    init = before ++ s :: after → (∀ t ∈ before, t < states) → states ≤ s → FirstUnknown s
  | target {before after : List Nat} {s : Nat} :
    (∀ t ∈ init, t < states) →
    targets = before ++ s :: after → (∀ t ∈ before, t < states) → states ≤ s → FirstUnknown s
  | source {before after : List (Nat × Nat)} {s t : Nat} :
    (∀ t ∈ init, t < states) → (∀ t ∈ targets, t < states) →
    edges = before ++ (s, t) :: after → (∀ e ∈ before, e.1 < states ∧ e.2 < states) →
    states ≤ s → FirstUnknown s
  | dest {before after : List (Nat × Nat)} {s t : Nat} :
    (∀ t ∈ init, t < states) → (∀ t ∈ targets, t < states) →
    edges = before ++ (s, t) :: after → (∀ e ∈ before, e.1 < states ∧ e.2 < states) →
    s < states → states ≤ t → FirstUnknown t

/-- The error that is due to parts that do not fit together. -/
inductive Refused : SystemError → Prop where
  | empty : states = 0 → Refused .empty
  | tooLarge : 1048576 < states → Refused (.tooLarge states)
  | unknownState {s : Nat} : 0 < states → states ≤ 1048576 →
    FirstUnknown states init edges targets s → Refused (.unknownState s states)

end Parts

/-! ## Successors -/

/-- The list has the ends of all edges from a state and nothing else. Each end stands in it once, and
the ends are ordered by where their edges first occur. -/
structure ListsEnds (edges : List (Nat × Nat)) (source : Nat) (ends : List Nat) : Prop where
  mem : ∀ dest, dest ∈ ends ↔ (source, dest) ∈ edges
  ordered : ends.Pairwise fun first second =>
    edges.idxOf (source, first) < edges.idxOf (source, second)

/-- Enter an edge into a table of successors that has to have a place for its source. -/
def enter? (succs : Array (List Nat)) (edge : Nat × Nat) : Except Fault (Array (List Nat)) :=
  match succs[edge.1]? with
  | none => .error .stateOutOfRange
  | some known =>
    .ok (if edge.2 ∈ known then succs else succs.set! edge.1 (known ++ [edge.2]))

/-- The distinct successors of each of `states` states, entered edge by edge. -/
def adjacency? (states : Nat) (edges : List (Nat × Nat)) : Except Fault (Array (List Nat)) :=
  edges.foldlM enter? (Array.replicate states [])

end GuidedReach.TransitionSystem
