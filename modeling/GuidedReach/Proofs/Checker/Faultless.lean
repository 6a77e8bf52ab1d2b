import GuidedReach.Checker.Run
import GuidedReach.Proofs.Abstractor.Refinement
import GuidedReach.Proofs.Partition.Size
import GuidedReach.Proofs.Refinement

/-!
# Exhaustive checkers meet no fault

With exhaustive searches no internal check of a checker ever fails: whenever it halts without an
answer, it ran out of fuel.

* `TransitionSystem.blockAnalysis_finest` — a partition is the finest of those that it comes from.
* `Checker.Guarded` — what holds between the rounds of an exhaustive checker.
* `Checker.Guarded.explore`, `Checker.Guarded.refine` — the two halves of a round.
* `Checker.full_search_never_faults` — no round meets a fault.
* `Checker.goalDirected_search_faults`, `Checker.goalDirected_first_counterexample_faults` — without
  exhaustive searches a round may meet one.
* `Checker.asked_again_faults` — so may a checker that is asked a second time.
-/

namespace GuidedReach

/-! ## Finer partitions -/

namespace TransitionSystem

variable {system : TransitionSystem} {partition finer q : Partition}

/-- **A partition is the finest of those that it comes from.** -/
theorem blockAnalysis_finest (hsplits : (Partition.initial system).SplitsInto partition) :
    system.blockAnalysis.Finest (system.Precedes partition) partition := by
  have hdomain : ∀ {set block : StateSet}, block ∈ partition.meeting set →
      system.blockAnalysis.inDomain block = true := by
    intro set block hblock
    refine blockAnalysis_inDomain.2 fun s hs => ?_
    exact ((hsplits.valid (.initial system)).covers s).1
      ⟨block, (Partition.mem_meeting.1 hblock).1, hs⟩
  have hmeeting : ∀ {q : Partition} {set larger block : StateSet}, system.Precedes partition q →
      (∀ s, s ∈ set → s ∈ larger) → block ∈ partition.meeting set →
        ∃ b ∈ q.meeting larger, system.blockAnalysis.isLeq block b = true := by
    intro q set larger block hq hsub hblock
    obtain ⟨b, hb, hle⟩ := hq.2.exists_meeting hsub hblock
    exact ⟨b, hb, blockAnalysis_isLeq.2 hle⟩
  constructor
  · exact ⟨hsplits, .refl⟩
  · exact fun hq hleq hs => hmeeting hq (fun _ => image_mono (blockAnalysis_isLeq.1 hleq)) hs
  · exact fun hq hs => hmeeting hq (fun _ ht => ht) hs
  · exact fun hs => hdomain hs
  · exact fun hs => hdomain hs

end TransitionSystem

/-! ## Rounds -/

namespace Checker

open TransitionSystem (forked)

variable {system : TransitionSystem} {config : Config} {checker checker' : Checker}
variable {partition : Partition} {fuel rounds : Nat}

/-- Between rounds, the last exhaustive search provides for the next one. -/
structure Guarded (system : TransitionSystem) (partition : Partition) (fuel : Nat)
    (checker : Checker) : Prop where
  system_eq : checker.system = system
  analysis_eq : checker.abstractor.analysis = system.blockAnalysis
  full : checker.abstractor.config.search = .full
  abstractor : checker.abstractor.Guarded (system.Precedes partition) fuel checker.graph

theorem Guarded.start (hfull : config.search = .full) :
    (Checker.start system config).Guarded system partition fuel :=
  ⟨rfl, rfl, hfull, .start rfl rfl⟩

/-- **Exploring meets no fault.** -/
theorem Guarded.explore (h : checker.Guarded system partition fuel)
    (hsplits : (Partition.initial system).SplitsInto partition)
    (hfuel : 2 * fuel ≤ Distance.limit) :
    EndsIn (checker.explore fuel partition) fun result =>
      result.2.system = system ∧
        result.2.graph.Grounded system.blockAnalysis (system.Precedes partition) ∧
        (result.1 = .counterexample → result.2.graph.isSafe = false) ∧
        (result.2.Guarded system partition fuel ∨ result.2.graph.HasInitTarget) := by
  have hcheck := h.abstractor.check (h.analysis_eq ▸ system.blockAnalysis_finest hsplits)
    (h.analysis_eq ▸ system.blockAnalysis_lawful) h.full hfuel
  rw [h.analysis_eq] at hcheck
  simp only [Checker.explore, endsIn_bind]
  refine hcheck.mono ?_
  rintro ⟨verdict, abstractor, graph⟩ - ⟨hanalysis, hconfig, hgrounded, hopen, hguarded⟩
  refine (endsIn_ok rfl).2 ⟨h.system_eq, hgrounded, hopen, ?_⟩
  rcases hguarded with hguarded | htarget
  · exact .inl ⟨h.system_eq, hanalysis, hconfig ▸ h.full, hguarded⟩
  · exact .inr htarget

/-- **Refining meets no fault**, and after a spurious counterexample the next round can start. -/
theorem Guarded.refine (checker : Checker) (hsystem : checker.system = system)
    (hgrounded : checker.graph.Grounded system.blockAnalysis (system.Precedes partition))
    (hopen : checker.graph.isSafe = false)
    (h : checker.Guarded system partition fuel ∨ checker.graph.HasInitTarget) :
    ∃ refinement checker', checker.refine partition = .ok (refinement, checker') ∧
      ∀ finer, refinement = .spurious finer →
        (∃ states, finer = partition.split states) ∧ checker'.Guarded system finer fuel := by
  subst hsystem
  rcases h with hguarded | htarget
  · obtain ⟨refinement, graph, hrun, hspurious⟩ :=
      TransitionSystem.exists_refine partition hgrounded hopen
    refine ⟨refinement, { checker with graph }, ?_, fun finer hfiner => ?_⟩
    · simp only [Checker.refine, Edit.result_eq_ok.2 hrun]
      rfl
    · obtain ⟨⟨states, rfl⟩, id, hprune⟩ := hspurious finer hfiner
      refine ⟨⟨states, rfl⟩, hguarded.system_eq, hguarded.analysis_eq, hguarded.full, ?_⟩
      exact (hguarded.abstractor.prune hprune).mono fun q hq => hq.split states
  · -- the counterexample is real, so there is no next round
    obtain ⟨trace, hrun⟩ := TransitionSystem.exists_refine_feasible partition
      hgrounded (fun q hq => hq.valid) htarget
    refine ⟨.feasible trace, checker, ?_, by simp⟩
    simp only [Checker.refine, Edit.result_eq_ok.2 hrun]
    rfl

/-- **All rounds meet no fault**, by induction on their number. -/
theorem Guarded.checkTimed {clock : Id Nat} (h : checker.Guarded system partition fuel)
    (hsplits : (Partition.initial system).SplitsInto partition)
    (hfuel : 2 * fuel ≤ Distance.limit) :
    EndsIn (Id.run (checkTimed clock fuel rounds checker partition)) fun _ => True := by
  induction rounds generalizing checker partition with
  | zero => exact endsIn_outOfFuel
  | succ rounds ih =>
    simp only [Checker.checkTimed, Id.run_bind]
    rcases h.explore hsplits hfuel with hhalt | ⟨⟨verdict, explored⟩, hexplore, hexplored⟩
    · rw [hhalt]
      exact endsIn_outOfFuel
    · rw [hexplore]
      obtain ⟨hsystem, hgrounded, hopen, hguarded⟩ := hexplored
      simp only [Id.run_bind]
      cases verdict with
      | safe => exact (endsIn_ok rfl).2 trivial
      | counterexample =>
        have hnext := Guarded.refine (explored.addExploring (Id.run clock - Id.run clock))
          hsystem hgrounded
          (hopen rfl) (hguarded.imp_left fun hguarded => ⟨hguarded.system_eq,
            hguarded.analysis_eq, hguarded.full, hguarded.abstractor⟩)
        obtain ⟨refinement, refined, hrefine, hspurious⟩ := hnext
        dsimp only
        rw [hrefine]
        simp only [Id.run_bind]
        cases refinement with
        | feasible trace => exact (endsIn_ok rfl).2 trivial
        | spurious finer =>
          obtain ⟨⟨states, rfl⟩, hrefined⟩ := hspurious finer rfl
          exact ih ⟨hrefined.system_eq, hrefined.analysis_eq, hrefined.full, hrefined.abstractor⟩
            (.split states hsplits)

/-- **An exhaustive checker never meets a fault**, in none of its rounds: every heuristic that is
asked for has a provider with a known distance, new nodes find providers, and what is compared along
edges is consistent. Sums of edges stop at `Distance.limit`, where nodes are no longer told apart; so
a search may take half as many steps at most. -/
theorem full_search_never_faults (system : TransitionSystem) (hfull : config.search = .full)
    (hfuel : 2 * fuel ≤ Distance.limit) (hsplits : (Partition.initial system).SplitsInto partition)
    (fault : Fault) :
    (Checker.start system config).check fuel partition ≠ .error (.fault fault) :=
  (Guarded.checkTimed (.start hfull) hsplits hfuel).not_fault fault

theorem full_search_never_faults_forked :
    ((Checker.start forked ⟨.full, .fullExploration, by decide, by decide⟩).check 9
      (.initial forked)).map (·.1) = .ok (.counterexample [0, 2, 3]) ∧
    2 * 9 ≤ Distance.limit ∧ ∀ fault,
      (Checker.start forked ⟨.full, .fullExploration, by decide, by decide⟩).check 9
        (.initial forked) ≠ .error (.fault fault) :=
  ⟨by decide +kernel, by decide,
    fun fault => full_search_never_faults forked rfl (by decide) .refl fault⟩

end Checker

/-! ## Goal-directed searches -/

/-- The two ways of `TransitionSystem.detour`, each with one more state. Beside them, a block that has
states 10 and 11 seems to lead to another target. -/
def TransitionSystem.longDetour : TransitionSystem where
  states := 15
  init := .ofList [0]
  edges := [(0, 1), (0, 2), (0, 10), (1, 4), (1, 6), (2, 13), (13, 3), (4, 2), (4, 5), (6, 7), (7, 8),
    (8, 14), (14, 9), (11, 12)]
  targets := .ofList [3, 9, 12]
  succs := adjacency 15 [(0, 1), (0, 2), (0, 10), (1, 4), (1, 6), (2, 13), (13, 3), (4, 2), (4, 5),
    (6, 7), (7, 8), (8, 14), (14, 9), (11, 12)]
  states_pos := by decide
  states_le := by decide
  init_lt := by decide
  targets_lt := by decide
  edges_lt := by decide
  succs_eq := rfl

/-- Three ways lead out of the init state, but only the first one on to a target. Blocks that have
states 13 and 14, or 16 and 17, seem to lead to others. -/
def TransitionSystem.threeWays : TransitionSystem where
  states := 21
  init := .ofList [0]
  edges := [(0, 1), (0, 2), (0, 3), (1, 4), (1, 5), (2, 6), (3, 7), (4, 8), (4, 9), (5, 10), (6, 11),
    (7, 8), (8, 16), (10, 12), (11, 13), (14, 15), (12, 19), (17, 18), (19, 20)]
  targets := .ofList [15, 18, 20]
  succs := adjacency 21 [(0, 1), (0, 2), (0, 3), (1, 4), (1, 5), (2, 6), (3, 7), (4, 8), (4, 9),
    (5, 10), (6, 11), (7, 8), (8, 16), (10, 12), (11, 13), (14, 15), (12, 19), (17, 18), (19, 20)]
  states_pos := by decide
  states_le := by decide
  init_lt := by decide
  targets_lt := by decide
  edges_lt := by decide
  succs_eq := rfl

namespace Checker

open TransitionSystem (longDetour threeWays)

/-- **A checker may meet a fault when its searches are goal-directed.** A distance that is too large
becomes a heuristic of the next round, where a successor has a heuristic that is much smaller. -/
theorem goalDirected_search_faults :
    ∃ partition, (Partition.initial longDetour).SplitsInto partition ∧
      ((Checker.start longDetour ⟨.decreasing, .fullExploration, by decide, by decide⟩).check 30
        partition).map (·.1) =
          .error (.fault (.inconsistentHeuristics 1 (.finite 5) 4 (.finite 3))) :=
  ⟨(Partition.initial longDetour).splitAll
    ([[13], [14]] ++ (List.range 10).map fun s => [s]), .splitAll .refl _, by decide +kernel⟩

/-- **Nor is it enough to stop at the first counterexample**: several targets may have been reached
by then. -/
theorem goalDirected_first_counterexample_faults :
    ∃ partition, (Partition.initial threeWays).SplitsInto partition ∧
      ((Checker.start threeWays ⟨.decreasing, .firstCounterexample, by decide, by decide⟩).check 40
        partition).map (·.1) =
          .error (.fault (.inconsistentHeuristics 1 (.finite 5) 4 (.finite 3))) :=
  ⟨(Partition.initial threeWays).splitAll
    ((List.range 13).map (fun s => [s]) ++ [[13, 14], [16, 17], [15], [18]]), .splitAll .refl _,
    by decide +kernel⟩

end Checker

/-! ## Asking again -/

/-- Two init states, and a way to the target from each. -/
def TransitionSystem.twoStarts : TransitionSystem where
  states := 5
  init := .ofList [2, 3]
  edges := [(4, 1), (2, 0), (0, 1), (3, 4)]
  targets := .ofList [1]
  succs := adjacency 5 [(4, 1), (2, 0), (0, 1), (3, 4)]
  states_pos := by decide
  states_le := by decide
  init_lt := by decide
  targets_lt := by decide
  edges_lt := by decide
  succs_eq := rfl

namespace Checker

open TransitionSystem (twoStarts)

/-- **A checker may meet a fault when it is asked again**, even with the same partition: the graph has
been explored under finer ones by then, and a node that is expanded under a coarser one has successors
which nothing in the provider generation subsumes. -/
theorem asked_again_faults :
    ∃ checker partition,
      Run twoStarts ⟨.semiOnDemand, .firstCounterexample, by decide, by decide⟩ checker ∧
      (Partition.initial twoStarts).SplitsInto partition ∧
      (checker.check 20 partition).map (·.1) = .error (.fault (.noProvider 12 2)) := by
  let first := (Checker.start twoStarts
    ⟨.semiOnDemand, .firstCounterexample, by decide, by decide⟩).check 20
      ((Partition.initial twoStarts).splitAll [[2, 4]])
  have hsplits : (Partition.initial twoStarts).SplitsInto
      ((Partition.initial twoStarts).splitAll [[2, 4]]) := .splitAll .refl _
  have hfirst : first.map (·.1) = .ok (.counterexample [3, 4, 1]) := by decide +kernel
  have hsecond : (first.bind fun answered =>
      answered.2.check 20 ((Partition.initial twoStarts).splitAll [[2, 4]])).map (·.1) =
        .error (.fault (.noProvider 12 2)) := by decide +kernel
  obtain ⟨⟨_, checker⟩, hchecker, rfl⟩ := map_eq_ok.1 hfirst
  rw [hchecker] at hsecond
  exact ⟨checker, _, .check .start hsplits hchecker, hsplits, hsecond⟩

end Checker

end GuidedReach
