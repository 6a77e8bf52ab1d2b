import GuidedReach.TransitionSystem.Basic

/-!
# Walks of a transition system

* `TransitionSystem.Step`, `TransitionSystem.Walk` — transitions, and sequences of them.
* `TransitionSystem.ReachesTarget` — whether a walk of a length leads from a state to a target.
* `TransitionSystem.Walk.trans` — walks can be joined, and their lengths add up.
-/

namespace GuidedReach.TransitionSystem

variable {system : TransitionSystem}

def Step (system : TransitionSystem) (source dest : Nat) : Prop := (source, dest) ∈ system.edges

/-- A sequence of transitions with its length. -/
inductive Walk (system : TransitionSystem) : Nat → Nat → Nat → Prop where
  | refl (s : Nat) : Walk system s s 0
  | step {s t u length : Nat} :
    system.Step s t → Walk system t u length → Walk system s u (length + 1)

/-- A walk of the given length leads from a state to a target. -/
def ReachesTarget (system : TransitionSystem) (state length : Nat) : Prop :=
  ∃ target, system.Walk state target length ∧ target ∈ system.targets

theorem Walk.trans {s t u m n : Nat} (hst : system.Walk s t m) (htu : system.Walk t u n) :
    system.Walk s u (m + n) := by
  induction hst with
  | refl => simpa using htu
  | step hstep _ ih => rw [Nat.add_right_comm]; exact .step hstep (ih htu)

/-- A walk stays within the states. -/
theorem Walk.lt_states {s t length : Nat} (hwalk : system.Walk s t length)
    (hs : s < system.states) : t < system.states := by
  induction hwalk with
  | refl => exact hs
  | step hstep _ ih => exact ih (system.edges_lt _ hstep).2

end GuidedReach.TransitionSystem
