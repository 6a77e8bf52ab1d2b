import Mathlib.Data.Fintype.Card
import Mathlib.Order.Bounds.Basic
import GuidedReach.Proofs.TransitionSystem.Reachability

/-!
# Searching level by level

The states at one distance from where a search starts make up a level. A shortest walk meets a state on
every level up to its end, so there are no more levels than states, and the search finds the nearest
target.

* `TransitionSystem.At` — the length of a shortest walk to a state.
* `TransitionSystem.At.exists_at` — a shortest walk meets every level.
* `TransitionSystem.At.depth_lt` — there are no more levels than states.
* `TransitionSystem.IsTargetDistance` — the length of a shortest walk to a target, if there is one.
* `TransitionSystem.Levelled` — what a search knows at a level.
* `TransitionSystem.targetDistance_isTargetDistance` — the search tells the distance to a target.
-/

namespace GuidedReach.TransitionSystem

variable {system : TransitionSystem} {origin s t d k n depth levels : Nat}

/-! ## Distances -/

/-- A walk ends with a transition. -/
theorem Walk.exists_last (h : system.Walk s t (n + 1)) :
    ∃ u, system.Walk s u n ∧ system.Step u t := by
  induction n generalizing s with
  | zero =>
    cases h with
    | step hstep hrest =>
      cases hrest
      exact ⟨s, .refl s, hstep⟩
  | succ n ih =>
    cases h with
    | step hstep hrest =>
      obtain ⟨u, hwalk, hlast⟩ := ih hrest
      exact ⟨u, .step hstep hwalk, hlast⟩

/-- A transition goes on from the end of a walk. -/
theorem Walk.concat (h : system.Walk s t n) {u : Nat} (hstep : system.Step t u) :
    system.Walk s u (n + 1) :=
  h.trans (.step hstep (.refl u))

/-- A shortest walk from the origin to the state has this length. -/
def At (system : TransitionSystem) (origin state depth : Nat) : Prop :=
  IsLeast {length | system.Walk origin state length} depth

theorem At.eq (h : system.At origin s k) (h' : system.At origin s n) : k = n :=
  h.unique h'

theorem At.lt_states (h : system.At origin s k) (horigin : origin < system.states) :
    s < system.states :=
  h.1.lt_states horigin

/-- What a walk reaches is at some distance. -/
theorem Walk.exists_at (h : system.Walk origin s n) : ∃ k ≤ n, system.At origin s k := by
  classical
  have hex : ∃ length, system.Walk origin s length := ⟨n, h⟩
  exact ⟨Nat.find hex, Nat.find_min' hex h, Nat.find_spec hex, fun k hk => Nat.find_min' hex hk⟩

/-- The state before the last one of a shortest walk is one level higher. -/
theorem At.exists_before (h : system.At origin t (n + 1)) :
    ∃ s, system.At origin s n ∧ system.Step s t := by
  obtain ⟨s, hwalk, hstep⟩ := h.1.exists_last
  refine ⟨s, ⟨hwalk, fun k hk => ?_⟩, hstep⟩
  have hle : n + 1 ≤ k + 1 := h.2 (Walk.concat hk hstep)
  omega

/-- **A shortest walk meets every level** up to its end. -/
theorem At.exists_at (h : system.At origin t n) (hle : k ≤ n) : ∃ s, system.At origin s k := by
  induction n generalizing t with
  | zero =>
    obtain rfl := Nat.le_zero.1 hle
    exact ⟨t, h⟩
  | succ n ih =>
    obtain rfl | hlt := Nat.eq_or_lt_of_le hle
    · exact ⟨t, h⟩
    · obtain ⟨s, hs, -⟩ := h.exists_before
      exact ih hs (by omega)

/-- **There are no more levels than states**: states on different levels are different. -/
theorem At.depth_lt (h : system.At origin t n) (horigin : origin < system.states) :
    n < system.states := by
  choose state hstate using fun k : Fin (n + 1) => h.exists_at (Nat.le_of_lt_succ k.isLt)
  have hinjective : Function.Injective fun k => (⟨state k, (hstate k).lt_states horigin⟩ :
      Fin system.states) := by
    intro k k' heq
    have hsame : state k = state k' := congrArg Fin.val heq
    exact Fin.ext ((hstate k).eq (hsame ▸ hstate k'))
  have hcard := Fintype.card_le_of_injective _ hinjective
  simpa using hcard

/-! ## The nearest target -/

/-- The length of a shortest walk to a target, or nothing if no walk leads to one. -/
def IsTargetDistance (system : TransitionSystem) (origin : Nat) : Option Nat → Prop
  | some depth => IsLeast {length | system.ReachesTarget origin length} depth
  | none => ∀ length, ¬ system.ReachesTarget origin length

theorem IsTargetDistance.eq_some_iff {distance : Option Nat}
    (h : system.IsTargetDistance origin distance) :
    distance = some d ↔ IsLeast {length | system.ReachesTarget origin length} d := by
  cases distance with
  | none => exact iff_of_false (by simp) fun hleast => h d hleast.1
  | some depth =>
    refine ⟨fun heq => Option.some.inj heq ▸ h, fun hleast => ?_⟩
    exact congrArg some (h.unique hleast)

theorem IsTargetDistance.eq_none_iff {distance : Option Nat}
    (h : system.IsTargetDistance origin distance) :
    distance = none ↔ ∀ length, ¬ system.ReachesTarget origin length := by
  cases distance with
  | none => exact iff_of_true rfl h
  | some depth => exact iff_of_false (by simp) fun hnone => hnone depth h.1

/-- There is one distance to a target only. -/
theorem IsTargetDistance.unique {distance distance' : Option Nat}
    (h : system.IsTargetDistance origin distance) (h' : system.IsTargetDistance origin distance') :
    distance = distance' := by
  cases distance with
  | none => exact (h'.eq_none_iff.2 h).symm
  | some depth => exact (h'.eq_some_iff.2 h).symm

/-- No target is nearer than the level. -/
def NoneAbove (system : TransitionSystem) (origin depth : Nat) : Prop :=
  ∀ length < depth, ¬ system.ReachesTarget origin length

/-- A target on a level is a nearest one, if there is none above. -/
theorem NoneAbove.isTargetDistance (h : system.NoneAbove origin depth)
    (ht : system.Walk origin t depth) (htarget : t ∈ system.targets) :
    system.IsTargetDistance origin (some depth) := by
  refine ⟨⟨t, ht, htarget⟩, fun length hlength => ?_⟩
  by_contra hlt
  exact h length (by omega) hlength

/-- A level without targets. -/
theorem NoneAbove.succ (h : system.NoneAbove origin depth)
    (hlevel : ∀ t, system.At origin t depth → ¬ t ∈ system.targets) :
    system.NoneAbove origin (depth + 1) := by
  rintro length hlt ⟨t, hwalk, htarget⟩
  obtain ⟨k, hle, hat⟩ := hwalk.exists_at
  rcases Nat.lt_or_ge k depth with hk | hk
  · exact h k hk ⟨t, hat.1, htarget⟩
  · obtain rfl : k = depth := by omega
    exact hlevel t hat htarget

/-- An empty level ends the search: there is nothing further down. -/
theorem NoneAbove.isTargetDistance_none (h : system.NoneAbove origin depth)
    (hempty : ∀ t, ¬ system.At origin t depth) : system.IsTargetDistance origin none := by
  rintro length ⟨t, hwalk, htarget⟩
  obtain ⟨k, -, hat⟩ := hwalk.exists_at
  rcases Nat.lt_or_ge k depth with hk | hk
  · exact h k hk ⟨t, hat.1, htarget⟩
  · obtain ⟨s, hs⟩ := hat.exists_at hk
    exact hempty s hs

/-! ## From level to level -/

/-- What a search knows at a level: the states on it, and all those above or on it. -/
structure Levelled (system : TransitionSystem) (origin depth : Nat) (seen : Array Bool)
    (level : List Nat) : Prop where
  size : seen.size = system.states
  seen_iff : ∀ t : Nat, seen[t]? = some true ↔ ∃ k ≤ depth, system.At origin t k
  level_iff : ∀ t, t ∈ level ↔ system.At origin t depth

variable {seen : Array Bool} {level : List Nat}

theorem levelled_start (horigin : origin < system.states) :
    system.Levelled origin 0 ((Array.replicate system.states false).set! origin true) [origin] := by
  have hat : ∀ t, system.At origin t 0 ↔ t = origin := by
    intro t
    constructor
    · rintro ⟨hwalk, -⟩
      cases hwalk
      rfl
    · rintro rfl
      exact ⟨.refl t, fun k _ => Nat.zero_le k⟩
  refine ⟨by simp, fun t => ?_, fun t => ?_⟩
  · simp only [Nat.le_zero, exists_eq_left, hat, Array.set!_eq_setIfInBounds,
      Array.getElem?_setIfInBounds, Array.size_replicate, Array.getElem?_replicate]
    by_cases h : origin = t
    · subst h
      simp [horigin]
    · by_cases ht : t < system.states <;> simp [h, Ne.symm h, ht]
  · rw [List.mem_singleton, hat]

/-- A state that was not seen down to a level is further down, if it is reached at all. -/
theorem Levelled.unseen_iff (h : system.Levelled origin depth seen level) (ht : t < system.states) :
    seen[t]? = some false ↔ ∀ k, system.At origin t k → depth < k := by
  have hcases : seen[t]? = some true ∨ seen[t]? = some false := by
    cases hread : seen[t]? with
    | none => exact absurd (h.size ▸ ht) (Nat.not_lt.2 (Array.getElem?_eq_none_iff.1 hread))
    | some mark => cases mark <;> simp
  constructor
  · intro hfalse k hat
    by_contra hle
    simp [(h.seen_iff t).2 ⟨k, by omega, hat⟩] at hfalse
  · intro hbelow
    refine hcases.resolve_left fun htrue => ?_
    obtain ⟨k, hle, hat⟩ := (h.seen_iff t).1 htrue
    exact absurd hle (by have := hbelow k hat; omega)

theorem Levelled.mem_nextLevel_iff (h : system.Levelled origin depth seen level)
    (horigin : origin < system.states) :
    t ∈ (system.nextLevel seen level).2 ↔ system.At origin t (depth + 1) := by
  rw [mem_nextLevel]
  constructor
  · rintro ⟨hfalse, s, hs, hstep⟩
    have hwalk := ((h.level_iff s).1 hs).1.concat hstep
    obtain ⟨k, hle, hat⟩ := hwalk.exists_at
    have hlt := (h.unseen_iff (hat.lt_states horigin)).1 hfalse k hat
    obtain rfl : k = depth + 1 := by omega
    exact hat
  · intro hat
    obtain ⟨s, hs, hstep⟩ := hat.exists_before
    refine ⟨(h.unseen_iff (hat.lt_states horigin)).2 fun k hk => ?_, s, (h.level_iff s).2 hs, hstep⟩
    have := hat.eq hk
    omega

/-- **One level**: the search goes on with the next one. -/
theorem Levelled.next (h : system.Levelled origin depth seen level)
    (horigin : origin < system.states) :
    system.Levelled origin (depth + 1) (system.nextLevel seen level).1
      (system.nextLevel seen level).2 := by
  obtain ⟨hsize, hseen⟩ := system.seen_nextLevel seen level
  refine ⟨hsize.trans h.size, fun t => ?_, fun t => h.mem_nextLevel_iff horigin⟩
  rw [hseen, h.seen_iff, h.mem_nextLevel_iff horigin]
  constructor
  · rintro (⟨k, hle, hat⟩ | hat)
    · exact ⟨k, by omega, hat⟩
    · exact ⟨depth + 1, Nat.le_refl _, hat⟩
  · rintro ⟨k, hle, hat⟩
    obtain rfl | hlt := Nat.eq_or_lt_of_le hle
    · exact .inr hat
    · exact .inl ⟨k, by omega, hat⟩

/-- **All levels**: as many as there are states are enough. -/
theorem Levelled.targetDepth (h : system.Levelled origin depth seen level)
    (horigin : origin < system.states) (habove : system.NoneAbove origin depth)
    (hlevels : levels + depth = system.states + 1) :
    system.IsTargetDistance origin (system.targetDepth levels seen level depth) := by
  induction levels generalizing depth seen level with
  | zero =>
    -- below the last of the states there is no level left
    refine habove.isTargetDistance_none fun t hat => ?_
    have := hat.depth_lt horigin
    omega
  | succ levels ih =>
    rw [TransitionSystem.targetDepth]
    split
    · rename_i hempty
      refine habove.isTargetDistance_none fun t hat => ?_
      have ht := (h.level_iff t).2 hat
      simp [List.isEmpty_iff.1 hempty] at ht
    · split
      · rename_i hany
        obtain ⟨t, ht, htarget⟩ := List.any_eq_true.1 hany
        exact habove.isTargetDistance ((h.level_iff t).1 ht).1 (isTarget_iff.1 htarget)
      · rename_i hnone
        refine ih (h.next horigin) (habove.succ fun t hat htarget => hnone ?_) (by omega)
        exact List.any_eq_true.2 ⟨t, (h.level_iff t).2 hat, isTarget_iff.2 htarget⟩

/-- **The search level by level tells the distance to a target.** -/
theorem targetDistance_isTargetDistance (horigin : origin < system.states) :
    system.IsTargetDistance origin (system.targetDistance origin) :=
  (levelled_start horigin).targetDepth horigin (fun _ hlt => absurd hlt (Nat.not_lt_zero _)) rfl

end GuidedReach.TransitionSystem
