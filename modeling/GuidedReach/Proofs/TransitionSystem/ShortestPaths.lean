import GuidedReach.Proofs.TransitionSystem.Levels
import GuidedReach.Proofs.TransitionSystem.Replay
import GuidedReach.TransitionSystem.QueueSearch

/-!
# Shortest paths to a target

A search with a queue finds each state at the end of a shortest walk: what waits is on one level, and
after that on the next one. So it finds the same distance to a target as the search level by level. A
system is safe just in case it has no counterexample.

* `QueueSearch.Sound` — what holds of a search between two turns.
* `QueueSearch.Sound.advance`, `QueueSearch.Sound.descend` — a state without further ado; a new level.
* `QueueSearch.Sound.run` — a search ends after as many turns as there are states, with the distance to a
  target.
* `TransitionSystem.isCounterexample_iff` — a counterexample is a walk from an init state to a target.
* `TransitionSystem.targetDistance_exact` — **distances and safety are exact**.
-/

namespace GuidedReach

variable {system : TransitionSystem} {origin s t d n depth turns : Nat}

/-! ## States that are found -/

namespace StateSet

theorem length_insertAscending {l : List Nat} (h : s ∉ l) :
    (insertAscending s l).length = l.length + 1 := by
  induction l with
  | nil => rfl
  | cons t l ih =>
    rw [List.mem_cons, not_or] at h
    unfold insertAscending
    split
    · rfl
    · rw [if_neg h.1, List.length_cons, ih h.2, List.length_cons]

theorem length_insert {set : StateSet} (h : ¬ s ∈ set) :
    (set.insert s).toList.length = set.toList.length + 1 :=
  length_insertAscending h

/-- A set of states has at most as many members as there are states. -/
theorem length_le {set : StateSet} {bound : Nat} (h : ∀ s, s ∈ set → s < bound) :
    set.toList.length ≤ bound := by
  have hnodup : set.toList.Nodup := set.ascending.imp Nat.ne_of_lt
  have hsub : set.toList ⊆ List.range bound := fun s hs => List.mem_range.2 (h s hs)
  simpa using (List.subperm_of_subset hnodup hsub).length_le

end StateSet

namespace QueueSearch

variable {search : QueueSearch} {front back waiting : List Nat}

/-- What finding the states of a list does: those not found before enter the queue. -/
theorem foldl_discover (depth : Nat) (found : List Nat) (search : QueueSearch) :
    ∃ new : List Nat, (found.foldl (discover depth) search).queue =
        search.queue ++ new.map (·, depth) ∧
      (found.foldl (discover depth) search).seen.toList.length =
        search.seen.toList.length + new.length ∧
      (∀ t, t ∈ (found.foldl (discover depth) search).seen ↔ t ∈ search.seen ∨ t ∈ new) ∧
      ∀ t, t ∈ new ↔ t ∈ found ∧ ¬ t ∈ search.seen := by
  induction found generalizing search with
  | nil => exact ⟨[], by simp⟩
  | cons s found ih =>
    rw [List.foldl_cons]
    by_cases hs : s ∈ search.seen
    · rw [show discover depth search s = search by rw [discover, if_pos hs]]
      obtain ⟨new, hqueue, hlength, hseen, hnew⟩ := ih search
      refine ⟨new, hqueue, hlength, hseen, fun t => ?_⟩
      rw [hnew, List.mem_cons]
      exact ⟨fun h => ⟨.inr h.1, h.2⟩, fun h => ⟨h.1.resolve_left fun heq => h.2 (heq ▸ hs), h.2⟩⟩
    · rw [show discover depth search s = ⟨search.seen.insert s, search.queue ++ [(s, depth)]⟩ by
        rw [discover, if_neg hs]]
      obtain ⟨new, hqueue, hlength, hseen, hnew⟩ :=
        ih ⟨search.seen.insert s, search.queue ++ [(s, depth)]⟩
      refine ⟨s :: new, ?_, ?_, fun t => ?_, fun t => ?_⟩
      · rw [hqueue, List.append_assoc]
        rfl
      · rw [hlength, StateSet.length_insert hs, List.length_cons]
        omega
      · rw [hseen, StateSet.mem_insert, List.mem_cons, or_left_comm, or_assoc]
      · rw [List.mem_cons, List.mem_cons, hnew, StateSet.mem_insert]
        by_cases hts : t = s
        · simp [hts, hs]
        · simp [hts]

/-! ## One turn -/

/-- What holds of a search from a state between two turns. The states in `front` and `back` wait, in this
order; they are at a depth and one further down. Everything else that was found is done with. -/
structure Sound (system : TransitionSystem) (origin depth : Nat) (front back : List Nat)
    (search : QueueSearch) : Prop where
  queue_eq : search.queue = front.map (·, depth) ++ back.map (·, depth + 1)
  front_at : ∀ s ∈ front, system.At origin s depth
  back_at : ∀ s ∈ back, system.At origin s (depth + 1)
  lt_states : ∀ s, s ∈ search.seen → s < system.states
  /-- Whatever is not further away than the front has been found. -/
  seen_of_walk : ∀ {s k}, system.Walk origin s k → k ≤ depth → s ∈ search.seen
  /-- What has been found waits, or it is no target and its successors have been found. -/
  done : ∀ s, s ∈ search.seen → s ∈ front ∨ s ∈ back ∨
    ¬ s ∈ system.targets ∧ ∀ t, system.Step s t → t ∈ search.seen

theorem sound_start (horigin : origin < system.states) :
    Sound system origin 0 [origin] [] (start origin) where
  queue_eq := rfl
  front_at s hs := by
    obtain rfl := List.mem_singleton.1 hs
    exact ⟨.refl s, fun k _ => Nat.zero_le k⟩
  back_at s hs := absurd hs List.not_mem_nil
  lt_states s hs := by
    obtain rfl : s = origin := by simpa [start] using hs
    exact horigin
  seen_of_walk hwalk hle := by
    obtain rfl := Nat.le_zero.1 hle
    cases hwalk
    simp [start]
  done s hs := by
    obtain rfl : s = origin := by simpa [start] using hs
    exact .inl (by simp)

namespace Sound

/-- No target is above the level of the front. -/
theorem noneAbove (h : Sound system origin depth front back search) :
    system.NoneAbove origin depth := by
  rintro length hlt ⟨t, hwalk, htarget⟩
  obtain ⟨k, hle, hat⟩ := hwalk.exists_at
  rcases h.done t (h.seen_of_walk hat.1 (by omega)) with ht | ht | ⟨hnone, -⟩
  · have := hat.eq (h.front_at t ht)
    omega
  · have := hat.eq (h.back_at t ht)
    omega
  · exact hnone htarget

/-- When the front is used up, the next level has been found. -/
theorem descend (h : Sound system origin depth [] back search) :
    Sound system origin (depth + 1) back [] search where
  queue_eq := by simpa using h.queue_eq
  front_at := h.back_at
  back_at s hs := absurd hs List.not_mem_nil
  lt_states := h.lt_states
  seen_of_walk := by
    intro t k hwalk hle
    obtain hlt | rfl := Nat.lt_or_eq_of_le hle
    · exact h.seen_of_walk hwalk (by omega)
    · -- the state before the last one is too near to wait, so its successors have been found
      obtain ⟨s, hbefore, hstep⟩ := hwalk.exists_last
      rcases h.done s (h.seen_of_walk hbefore (Nat.le_refl depth)) with hs | hs | ⟨-, hfound⟩
      · exact absurd hs List.not_mem_nil
      · have hle : depth + 1 ≤ depth := (h.back_at s hs).2 hbefore
        omega
      · exact hfound t hstep
  done s hs := (h.done s hs).elim (fun hfront => absurd hfront List.not_mem_nil)
    (Or.imp_right .inr)

/-- **One turn** that takes a state off the queue which is no target: its successors are found. -/
theorem advance (h : Sound system origin depth (s :: front) back search)
    (htarget : ¬ s ∈ system.targets) {next : QueueSearch}
    (hnext : next = (system.successors s).foldl (discover (depth + 1))
      { search with queue := front.map (·, depth) ++ back.map (·, depth + 1) }) :
    ∃ new : List Nat, Sound system origin depth front (back ++ new) next ∧
      next.seen.toList.length = search.seen.toList.length + new.length := by
  obtain ⟨new, hqueue, hlength, hseen, hnew⟩ := foldl_discover (depth + 1) (system.successors s)
    { search with queue := front.map (·, depth) ++ back.map (·, depth + 1) }
  rw [← hnext] at hqueue hlength hseen
  have hat := h.front_at s List.mem_cons_self
  have hstep : ∀ {t}, t ∈ new → system.Step s t := fun ht =>
    TransitionSystem.mem_successors.1 ((hnew _).1 ht).1
  refine ⟨new, ⟨?_, fun t ht => h.front_at t (List.mem_cons_of_mem s ht), fun t ht => ?_, fun t ht => ?_,
    fun hwalk hle => (hseen _).2 (.inl (h.seen_of_walk hwalk hle)), fun t ht => ?_⟩, hlength⟩
  · rw [hqueue, List.append_assoc, List.map_append]
  · rcases List.mem_append.1 ht with ht | ht
    · exact h.back_at t ht
    · -- what had not been found cannot be any nearer
      refine ⟨hat.1.concat (hstep ht), fun k hk => ?_⟩
      by_contra hlt
      exact ((hnew t).1 ht).2 (h.seen_of_walk hk (by omega))
  · rcases (hseen t).1 ht with ht | ht
    · exact h.lt_states t ht
    · exact (system.edges_lt _ (hstep ht)).2
  · rcases (hseen t).1 ht with ht | ht
    · rcases h.done t ht with hfront | hback | ⟨hnone, hfound⟩
      · obtain rfl | hfront := List.mem_cons.1 hfront
        · refine .inr (.inr ⟨htarget, fun u hstep => (hseen u).2 ?_⟩)
          by_cases hu : u ∈ search.seen
          · exact .inl hu
          · exact .inr ((hnew u).2 ⟨TransitionSystem.mem_successors.2 hstep, hu⟩)
        · exact .inl hfront
      · exact .inr (.inl (List.mem_append_left _ hback))
      · exact .inr (.inr ⟨hnone, fun u hstep => (hseen u).2 (.inl (hfound u hstep))⟩)
    · exact .inr (.inl (List.mem_append_right _ ht))

/-- When nothing waits, everything that is reached has been found, and it is no target. -/
theorem isTargetDistance_none (h : Sound system origin depth [] [] search) :
    system.IsTargetDistance origin none := by
  have hdone : ∀ t, t ∈ search.seen →
      ¬ t ∈ system.targets ∧ ∀ u, system.Step t u → u ∈ search.seen := fun t ht => by
    simpa using h.done t ht
  have hseen : ∀ n t, system.Walk origin t n → t ∈ search.seen := by
    intro n
    induction n with
    | zero => exact fun t hwalk => h.seen_of_walk hwalk (Nat.zero_le depth)
    | succ n ih =>
      intro t hwalk
      obtain ⟨s, hbefore, hstep⟩ := hwalk.exists_last
      exact (hdone s (ih s hbefore)).2 t hstep
  rintro length ⟨t, hwalk, htarget⟩
  exact (hdone t (hseen length t hwalk)).1 htarget

/-! ## All turns -/

/-- **A search ends** with the distance to a target. Each turn but the last takes a state off the queue
that never comes back, so there are no more of them than states that were not taken off before. -/
theorem run (h : Sound system origin depth front back search)
    (hturns : system.states + (front.length + back.length) < turns + search.seen.toList.length) :
    ∃ distance, search.run system turns = .ok distance ∧ system.IsTargetDistance origin distance := by
  induction turns generalizing search depth front back with
  | zero =>
    have := StateSet.length_le h.lt_states
    omega
  | succ turns ih =>
    -- a turn that takes a state off the queue, from the front or, if that is used up, from the back
    have hturn : ∀ {depth s front back}, Sound system origin depth (s :: front) back search →
        system.states + (front.length + 1 + back.length) < turns + 1 + search.seen.toList.length →
        ∃ distance, search.run system (turns + 1) = .ok distance ∧
          system.IsTargetDistance origin distance := by
      intro depth s front back h hturns
      have hat := h.front_at s List.mem_cons_self
      have hsuccs : system.successors? s = .ok (system.successors s) := by
        rw [TransitionSystem.successors?_eq,
          if_pos (h.lt_states s (h.seen_of_walk hat.1 (Nat.le_refl depth)))]
      simp only [QueueSearch.run, h.queue_eq, List.map_cons, List.cons_append]
      by_cases htarget : s ∈ system.targets
      · rw [if_pos (TransitionSystem.isTarget_iff.2 htarget)]
        exact ⟨some depth, rfl, h.noneAbove.isTargetDistance hat.1 htarget⟩
      · rw [if_neg (mt TransitionSystem.isTarget_iff.1 htarget), hsuccs]
        obtain ⟨new, hnext, hlength⟩ := h.advance htarget rfl
        exact ih hnext (by rw [List.length_append]; omega)
    cases front with
    | cons s front => exact hturn h (by simpa using hturns)
    | nil =>
      cases back with
      | cons s back => exact hturn h.descend (by simpa using hturns)
      | nil =>
        refine ⟨none, ?_, h.isTargetDistance_none⟩
        simp only [QueueSearch.run, h.queue_eq, List.map_nil, List.append_nil]
        rfl

end Sound

/-- **A search with a queue ends**, and it finds what the search level by level finds. -/
theorem run_start (horigin : origin < system.states) (hturns : system.states < turns) :
    (start origin).run system turns = .ok (system.targetDistance origin) := by
  have hbound : system.states + ([origin].length + ([] : List Nat).length) <
      turns + (start origin).seen.toList.length := by
    rw [show (start origin).seen.toList.length = 1 from rfl, List.length_singleton, List.length_nil]
    omega
  obtain ⟨distance, hrun, hdistance⟩ := (sound_start horigin).run hbound
  rw [hrun, hdistance.unique (TransitionSystem.targetDistance_isTargetDistance horigin)]

end QueueSearch

/-! ## Counterexamples -/

namespace TransitionSystem

/-- The states of a walk, one after the other. -/
theorem Walk.exists_path (h : system.Walk s t n) :
    ∃ path : List Nat, path.head? = some s ∧ path.getLast? = some t ∧ path.IsChain system.Step := by
  induction h with
  | refl s => exact ⟨[s], rfl, rfl, .singleton s⟩
  | @step s u t _ hstep _ ih =>
    obtain ⟨path, hfirst, hlast, hchain⟩ := ih
    obtain ⟨rest, rfl⟩ : ∃ rest, path = u :: rest := by
      cases path with
      | nil => cases hfirst
      | cons first rest => exact ⟨rest, by rw [Option.some.inj hfirst]⟩
    exact ⟨s :: u :: rest, rfl, hlast, List.isChain_cons_cons.2 ⟨hstep, hchain⟩⟩

/-- States that follow transitions make a walk. -/
theorem exists_walk_of_isChain {path : List Nat} (hchain : path.IsChain system.Step)
    (hfirst : path.head? = some s) (hlast : path.getLast? = some t) :
    ∃ n, system.Walk s t n := by
  induction path generalizing s with
  | nil => cases hfirst
  | cons first rest ih =>
    obtain rfl : first = s := Option.some.inj hfirst
    cases rest with
    | nil =>
      obtain rfl : first = t := Option.some.inj hlast
      exact ⟨0, .refl first⟩
    | cons second rest =>
      obtain ⟨hstep, hchain⟩ := List.isChain_cons_cons.1 hchain
      obtain ⟨n, hwalk⟩ := ih hchain rfl (by simpa using hlast)
      exact ⟨n + 1, .step hstep hwalk⟩

theorem isCounterexample_iff {path : List Nat} : system.isCounterexample path = true ↔
    ∃ s t, path.head? = some s ∧ s ∈ system.init ∧ path.getLast? = some t ∧ t ∈ system.targets ∧
      path.IsChain system.Step := by
  unfold isCounterexample
  split
  · rename_i s t hfirst hlast
    simp only [Bool.and_eq_true, StateSet.contains_iff, isTarget_iff, followsEdges_iff, hfirst, hlast,
      Option.some.injEq]
    constructor
    · rintro ⟨⟨hinit, htarget⟩, hchain⟩
      exact ⟨s, t, rfl, hinit, rfl, htarget, hchain⟩
    · rintro ⟨_, _, rfl, hinit, rfl, htarget, hchain⟩
      exact ⟨⟨hinit, htarget⟩, hchain⟩
  · rename_i hnone
    refine iff_of_false (by simp) ?_
    rintro ⟨s, t, hfirst, -, hlast, -⟩
    exact hnone s t hfirst hlast

/-- **A counterexample is a walk** from an init state to a target. -/
theorem exists_isCounterexample_iff : (∃ path, system.isCounterexample path = true) ↔
    ∃ s, s ∈ system.init ∧ ∃ n, system.ReachesTarget s n := by
  constructor
  · rintro ⟨path, hpath⟩
    obtain ⟨s, t, hfirst, hinit, hlast, htarget, hchain⟩ := isCounterexample_iff.1 hpath
    obtain ⟨n, hwalk⟩ := exists_walk_of_isChain hchain hfirst hlast
    exact ⟨s, hinit, n, t, hwalk, htarget⟩
  · rintro ⟨s, hinit, n, t, hwalk, htarget⟩
    obtain ⟨path, hfirst, hlast, hchain⟩ := hwalk.exists_path
    exact ⟨path, isCounterexample_iff.2 ⟨s, t, hfirst, hinit, hlast, htarget, hchain⟩⟩

theorem isSafe_iff : system.isSafe = true ↔
    ∀ s, s ∈ system.init → ∀ n, ¬ system.ReachesTarget s n := by
  rw [isSafe, List.all_eq_true]
  refine forall₂_congr fun s hs => ?_
  rw [Option.isNone_iff_eq_none,
    (targetDistance_isTargetDistance (system.init_lt s hs)).eq_none_iff]

/-- **Distances and safety are exact.** From a state, the distance to a target is the least number of
transitions that lead to one, and there is none just in case no target is reached. A search with a queue
finds the same distance in one turn more than there are states, whatever cycles there are, and no
successors are looked up of a number that is no state. A system is safe just in case it has no
counterexample. -/
theorem targetDistance_exact (system : TransitionSystem) :
    (∀ state, state < system.states →
      (∀ d, system.targetDistance state = some d ↔
        IsLeast {length | system.ReachesTarget state length} d) ∧
      (system.targetDistance state = none ↔ ∀ length, ¬ system.ReachesTarget state length) ∧
      system.targetDistance? state = .ok (system.targetDistance state) ∧
      ∀ turns, system.states < turns →
        (QueueSearch.start state).run system turns = .ok (system.targetDistance state)) ∧
    (system.isSafe = true ↔ ¬ ∃ trace, system.isCounterexample trace = true) := by
  refine ⟨fun state hstate => ?_, ?_⟩
  · have hdistance := targetDistance_isTargetDistance hstate
    refine ⟨fun d => hdistance.eq_some_iff, hdistance.eq_none_iff, ?_,
      fun turns => QueueSearch.run_start hstate⟩
    rw [targetDistance?, checkStates_eq (List.forall_mem_singleton.2 hstate)]
    rfl
  · rw [exists_isCounterexample_iff, isSafe_iff]
    push Not
    rfl

/-- A cycle with a target behind it, and another one that leads nowhere. -/
def cyclic : TransitionSystem where
  states := 7
  init := .ofList [0]
  edges := [(0, 1), (1, 2), (2, 0), (1, 1), (2, 3), (1, 3), (3, 4), (5, 6), (6, 5)]
  targets := .ofList [4]
  succs := adjacency 7 [(0, 1), (1, 2), (2, 0), (1, 1), (2, 3), (1, 3), (3, 4), (5, 6), (6, 5)]
  states_pos := by decide
  states_le := by decide
  init_lt := by decide
  targets_lt := by decide
  edges_lt := by decide
  succs_eq := rfl

/-- From state 0 the target is three transitions away, and from state 5 none is reached. -/
theorem targetDistance_exact_cyclic :
    0 < cyclic.states ∧ 5 < cyclic.states ∧
    cyclic.targetDistance 0 = some 3 ∧
    IsLeast {length | cyclic.ReachesTarget 0 length} 3 ∧
    (∀ length, ¬ cyclic.ReachesTarget 5 length) ∧
    (QueueSearch.start 0).run cyclic 8 = .ok (some 3) ∧
    (QueueSearch.start 5).run cyclic 8 = .ok none ∧
    cyclic.isSafe = false ∧ cyclic.isCounterexample [0, 1, 2, 0, 1, 3, 4] = true := by
  have hdistance : cyclic.targetDistance 0 = some 3 := by decide
  have hnone : cyclic.targetDistance 5 = none := by decide
  obtain ⟨hexact, -⟩ := targetDistance_exact cyclic
  obtain ⟨hleast, -, -, hqueue⟩ := hexact 0 (by decide)
  obtain ⟨-, hunreached, -, hqueue'⟩ := hexact 5 (by decide)
  exact ⟨by decide, by decide, hdistance, (hleast 3).1 hdistance, hunreached.1 hnone,
    hdistance ▸ hqueue 8 (by decide), hnone ▸ hqueue' 8 (by decide), by decide, by decide⟩

end TransitionSystem

end GuidedReach
