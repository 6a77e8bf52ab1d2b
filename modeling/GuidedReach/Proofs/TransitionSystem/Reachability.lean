import GuidedReach.Proofs.TransitionSystem.Adjacency
import GuidedReach.TransitionSystem.Paths

/-!
# Reachable states

* `TransitionSystem.mem_image` — the image of a set holds what the edges say.
* `TransitionSystem.mem_nextLevel`, `TransitionSystem.seen_nextLevel` — what is found on a level.
* `TransitionSystem.isSafe_of_unreachable` — without a walk from an init state to a target, the
  search for one finds none.
-/

namespace GuidedReach.TransitionSystem

variable {system : TransitionSystem}

/-! ## Targets and images -/

theorem isTarget_iff {s : Nat} : system.isTarget s = true ↔ s ∈ system.targets :=
  StateSet.contains_iff

theorem mem_image {set : StateSet} {t : Nat} :
    t ∈ system.image set ↔ ∃ s, s ∈ set ∧ system.Step s t := by
  rw [image, StateSet.mem_ofList, List.mem_flatMap]
  simp only [mem_successors, StateSet.mem_def]

theorem lt_states_of_mem_image {set : StateSet} {t : Nat} (ht : t ∈ system.image set) :
    t < system.states := by
  obtain ⟨s, -, hstep⟩ := mem_image.1 ht
  exact (system.edges_lt _ hstep).2

theorem image?_eq {set : StateSet} (h : ∀ s, s ∈ set → s < system.states) :
    system.image? set = .ok (system.image set) := by
  rw [image?, checkStates_eq h]
  rfl

/-- A larger set has a larger image. -/
theorem image_mono {set larger : StateSet} (hsub : ∀ s, s ∈ set → s ∈ larger) {t : Nat}
    (ht : t ∈ system.image set) : t ∈ system.image larger := by
  obtain ⟨s, hs, hstep⟩ := mem_image.1 ht
  exact mem_image.2 ⟨s, hsub s hs, hstep⟩

/-! ## Targets found level by level -/

/-- What marking the members of a list does: those not seen before are listed, and now they are seen. -/
theorem foldl_mark (l : List Nat) (seen : Array Bool) (next : List Nat) :
    let marked := l.foldl (fun (seen, next) state =>
      if seen[state]? = some false then (seen.set! state true, state :: next) else (seen, next))
      (seen, next)
    marked.1.size = seen.size ∧
      (∀ t : Nat, marked.1[t]? = some true ↔ seen[t]? = some true ∨ seen[t]? = some false ∧ t ∈ l) ∧
      ∀ t, t ∈ marked.2 ↔ t ∈ next ∨ seen[t]? = some false ∧ t ∈ l := by
  induction l generalizing seen next with
  | nil => simp
  | cons s l ih =>
    rw [List.foldl_cons]
    dsimp only
    split
    · rename_i hs
      obtain ⟨hlt, -⟩ := Array.getElem?_eq_some_iff.1 hs
      have hmark : ∀ t, (seen.set! s true)[t]? = if t = s then some true else seen[t]? := by
        intro t
        rw [Array.set!_eq_setIfInBounds, Array.getElem?_setIfInBounds]
        by_cases h : s = t
        · subst h
          simp [hlt]
        · simp [h, Ne.symm h]
      obtain ⟨hsize, hseen, hnext⟩ := ih (seen.set! s true) (s :: next)
      refine ⟨hsize.trans (by simp), fun t => ?_, fun t => ?_⟩
      · rw [hseen, hmark]
        by_cases h : t = s <;> simp [h, hs]
      · rw [hnext, hmark]
        by_cases h : t = s <;> simp [h, hs]
    · rename_i hs
      obtain ⟨hsize, hseen, hnext⟩ := ih seen next
      have hcons : ∀ t, (seen[t]? = some false ∧ t ∈ s :: l) ↔ seen[t]? = some false ∧ t ∈ l := by
        intro t
        by_cases h : t = s
        · subst h
          simp [hs]
        · simp [h]
      exact ⟨hsize, fun t => by rw [hseen, hcons], fun t => by rw [hnext, hcons]⟩

/-- The next level holds the successors that were not seen before. -/
theorem mem_nextLevel {seen : Array Bool} {level : List Nat} {t : Nat} :
    t ∈ (system.nextLevel seen level).2 ↔ seen[t]? = some false ∧ ∃ s ∈ level, system.Step s t := by
  obtain ⟨-, -, hnext⟩ := foldl_mark (level.flatMap system.successors) seen []
  rw [nextLevel, hnext]
  simp [mem_successors]

/-- After a level, its successors have been seen as well. -/
theorem seen_nextLevel (system : TransitionSystem) (seen : Array Bool) (level : List Nat) :
    (system.nextLevel seen level).1.size = seen.size ∧
      ∀ t : Nat, (system.nextLevel seen level).1[t]? = some true ↔
        seen[t]? = some true ∨ t ∈ (system.nextLevel seen level).2 := by
  obtain ⟨hsize, hseen, hnext⟩ := foldl_mark (level.flatMap system.successors) seen []
  refine ⟨hsize, fun t => (hseen t).trans ?_⟩
  rw [mem_nextLevel]
  simp [mem_successors]

theorem exists_reachesTarget_of_targetDepth {levels depth d : Nat} {seen : Array Bool}
    {level : List Nat} (h : system.targetDepth levels seen level depth = some d) :
    ∃ s ∈ level, ∃ n, system.ReachesTarget s n ∧ d = depth + n := by
  induction levels generalizing seen level depth with
  | zero => simp [targetDepth] at h
  | succ levels ih =>
    unfold targetDepth at h
    split at h
    · simp at h
    · split at h
      · rename_i hany
        obtain ⟨s, hs, ht⟩ := List.any_eq_true.1 hany
        exact ⟨s, hs, 0, ⟨s, .refl s, isTarget_iff.1 ht⟩, (Option.some.inj h).symm⟩
      · obtain ⟨t, ht, n, ⟨target, hwalk, htarget⟩, hd⟩ := ih h
        obtain ⟨-, s, hs, hstep⟩ := mem_nextLevel.1 ht
        exact ⟨s, hs, n + 1, ⟨target, .step hstep hwalk, htarget⟩, by omega⟩

/-- The distance to a target is the length of a walk to one. -/
theorem reachesTarget_of_targetDistance {s d : Nat} (h : system.targetDistance s = some d) :
    system.ReachesTarget s d := by
  obtain ⟨t, ht, n, hn, hd⟩ := exists_reachesTarget_of_targetDepth h
  rw [List.mem_singleton.1 ht] at hn
  rwa [hd, Nat.zero_add]

/-- From a state that leads to no target, there is no distance to one. -/
theorem targetDistance_eq_none {s : Nat} (h : ∀ n, ¬ system.ReachesTarget s n) :
    system.targetDistance s = none := by
  cases hd : system.targetDistance s with
  | none => rfl
  | some d => exact absurd (reachesTarget_of_targetDistance hd) (h d)

/-- A system in which no walk leads from an init state to a target is safe. -/
theorem isSafe_of_unreachable (h : ∀ s, s ∈ system.init → ∀ n, ¬ system.ReachesTarget s n) :
    system.isSafe = true :=
  List.all_eq_true.2 fun s hs => by rw [targetDistance_eq_none (h s hs)]; rfl

/-! ## Examples -/

/-- Two ways out of the init state, and only one of them leads to the target. -/
def forked : TransitionSystem where
  states := 4
  init := .ofList [0]
  edges := [(0, 1), (0, 2), (2, 3)]
  targets := .ofList [3]
  succs := adjacency 4 [(0, 1), (0, 2), (2, 3)]
  states_pos := by decide
  states_le := by decide
  init_lt := by decide
  targets_lt := by decide
  edges_lt := by decide
  succs_eq := rfl

/-- State 0 only leads back to itself; from state 1 a target is reached over state 2. -/
def looping : TransitionSystem where
  states := 4
  init := .ofList [0, 1]
  edges := [(0, 0), (1, 0), (1, 2), (2, 3)]
  targets := .ofList [3]
  succs := adjacency 4 [(0, 0), (1, 0), (1, 2), (2, 3)]
  states_pos := by decide
  states_le := by decide
  init_lt := by decide
  targets_lt := by decide
  edges_lt := by decide
  succs_eq := rfl

end GuidedReach.TransitionSystem
