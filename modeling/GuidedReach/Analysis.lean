import GuidedReach.Fault

/-!
# Abstract analyses

An `Analysis S P K` says which abstract states of type `S` there are under a precision of type `P`
and how they relate. States with different keys of type `K` are never compared for coverage.

* `Analysis.successors?` — the successors of a state, which has to be in the domain.
-/

namespace GuidedReach

/-- The transfer functions of an abstract domain. -/
structure Analysis (S P K : Type) where
  /-- The initial states under a precision. -/
  initStates : P → List S
  /-- The successors of a state under a precision. -/
  succStates : S → P → List S
  /-- Whether a state may hold an error. -/
  isTarget : S → Bool
  /-- Whether a state is empty. -/
  isBottom : S → Bool
  /-- Whether all that the first state stands for is in the second. -/
  isLeq : S → S → Bool
  /-- The key that two states must share to be compared for coverage. -/
  key : S → K
  /-- Whether the successors of a state can be computed at all. -/
  inDomain : S → Bool := fun _ => true

/-- The successors of a state, which has to be in the domain. -/
def Analysis.successors? {S P K : Type} (analysis : Analysis S P K) (state : S) (prec : P) :
    Except Fault (List S) := do
  demand (analysis.inDomain state) .stateOutOfRange
  return analysis.succStates state prec

end GuidedReach
