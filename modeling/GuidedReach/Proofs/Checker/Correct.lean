import GuidedReach.Checker.Run
import GuidedReach.Proofs.Abstractor.Refinement
import GuidedReach.Proofs.TransitionSystem.Replay

/-!
# The answers of a checker are right

* `Answer.Correct` — what an answer promises about a system.
* `Checker.Ready` — what holds between the rounds of a checker, and between its answers.
* `Checker.Ready.explore`, `Checker.Ready.refine` — the two halves of a round.
* `Checker.checkTimed_ok` — what a round of a loop that finds an answer comes to.
* `Checker.answers_correct` — every answer in every run of a checker is correct.
-/

namespace GuidedReach

/-- What an answer promises: no walk leads from an init state to a target, or the trace is one. -/
def Answer.Correct (system : TransitionSystem) : Answer → Prop
  | .safe => (∀ s, s ∈ system.init → ∀ n, ¬ system.ReachesTarget s n) ∧ system.isSafe = true
  | .counterexample trace => system.isCounterexample trace = true

namespace Checker

open TransitionSystem (forked)

variable {system : TransitionSystem} {config : Config} {checker checker' : Checker}
variable {partition : Partition} {fuel rounds : Nat} {answer : Answer}

/-- Between rounds, what the abstractor knows about the graph is sound. -/
structure Ready (system : TransitionSystem) (checker : Checker) : Prop where
  system_eq : checker.system = system
  analysis_eq : checker.abstractor.analysis = system.blockAnalysis
  abstractor : checker.abstractor.Ready (Partition.Valid system) system.Dead checker.graph

theorem Ready.start (system : TransitionSystem) (config : Config) :
    (Checker.start system config).Ready system :=
  ⟨rfl, rfl, .start rfl rfl⟩

/-- The counters do not matter. -/
theorem Ready.count (h : checker.Ready system) (stats : CheckerStats) :
    Ready system { checker with stats } :=
  ⟨h.system_eq, h.analysis_eq, h.abstractor⟩

/-- **A round that finds the graph safe is right**, since the blocks of a partition cover all init
states. -/
theorem Ready.explore (h : checker.Ready system) (hvalid : partition.Valid system) {verdict : Verdict}
    (hexplore : checker.explore fuel partition = .ok (verdict, checker')) :
    checker'.Ready system ∧ (verdict = .safe → Answer.safe.Correct system) := by
  simp only [Checker.explore, bind_eq_ok, pure_eq_ok, Prod.mk.injEq] at hexplore
  obtain ⟨⟨_, abstractor, graph⟩, hcheck, rfl, rfl⟩ := hexplore
  obtain ⟨hready, hanalysis, -, hsafe⟩ := h.abstractor.check hvalid
    (h.analysis_eq ▸ system.blockAnalysis_lawful) (h.analysis_eq ▸ system.blockAnalysis_refutes) hcheck
  refine ⟨⟨h.system_eq, hanalysis.trans h.analysis_eq, hready⟩, fun hverdict => ?_⟩
  obtain ⟨prec, hprec, hdead⟩ := hsafe hverdict
  rw [h.analysis_eq] at hdead
  have hunreachable : ∀ s, s ∈ system.init → ∀ n, ¬ system.ReachesTarget s n := by
    intro s hs
    obtain ⟨block, hblock, hmem⟩ := (hprec.covers s).2 (system.init_lt s hs)
    exact hdead block (Partition.mem_meeting.2 ⟨hblock, s, hmem, hs⟩) s hmem
  exact ⟨hunreachable, TransitionSystem.isSafe_of_unreachable hunreachable⟩

/-- The graph grows while it is explored; then some of it is taken away. -/
theorem Ready.explore_graph (h : checker.Ready system) (hvalid : partition.Valid system)
    {verdict : Verdict} (hexplore : checker.explore fuel partition = .ok (verdict, checker')) :
    ∃ grown, checker.graph.GrownFrom system.blockAnalysis partition grown ∧ grown.WellFormed ∧
      grown.Remains checker'.graph := by
  simp only [Checker.explore, bind_eq_ok, pure_eq_ok, Prod.mk.injEq] at hexplore
  obtain ⟨⟨_, abstractor, graph⟩, hcheck, rfl, rfl⟩ := hexplore
  have hgraph := h.abstractor.check_graph hvalid (h.analysis_eq ▸ system.blockAnalysis_lawful)
    (h.analysis_eq ▸ system.blockAnalysis_refutes) hcheck
  rwa [h.analysis_eq] at hgraph

/-- **A feasible counterexample is real**, and refining keeps a partition. -/
theorem Ready.refine (h : checker.Ready system) (hvalid : partition.Valid system)
    {refinement : Refinement} (hrefine : checker.refine partition = .ok (refinement, checker')) :
    checker'.Ready system ∧
      match refinement with
      | .feasible trace => (Answer.counterexample trace).Correct system
      | .spurious finer => finer.Valid system := by
  simp only [Checker.refine, bind_eq_ok, pure_eq_ok, Prod.mk.injEq] at hrefine
  obtain ⟨⟨_, graph⟩, hresult, rfl, rfl⟩ := hrefine
  have hrun := Edit.result_eq_ok.1 hresult
  simp only [TransitionSystem.refine, Edit.run_bind_ok, Edit.run_get_ok] at hrun
  obtain ⟨_, _, ⟨rfl, rfl⟩, hrun⟩ := hrun
  split at hrun
  · split at hrun
    · rename_i trace htrace
      obtain ⟨rfl, rfl⟩ := Edit.run_pure_ok.1 hrun
      exact ⟨⟨h.system_eq, h.analysis_eq, h.abstractor⟩,
        h.system_eq ▸ (TransitionSystem.feasibleAlong_of_concreteTrace htrace).isCounterexample⟩
    · split at hrun
      · simp only [Edit.run_bind_ok, Edit.run_pure_ok] at hrun
        obtain ⟨_, _, hprune, rfl, rfl⟩ := hrun
        exact ⟨⟨h.system_eq, h.analysis_eq, h.abstractor.prune hprune⟩, hvalid.split _⟩
      · simp at hrun
  · simp at hrun

/-- A round of a loop that finds an answer: it is the last one, or another one follows. -/
theorem checkTimed_ok {clock : Id Nat}
    (h : Id.run (checkTimed clock fuel (rounds + 1) checker partition) = .ok (answer, checker')) :
    ∃ verdict explored exploring, checker.explore fuel partition = .ok (verdict, explored) ∧
      (verdict = .safe ∧ answer = .safe ∧ checker' = explored.addExploring exploring ∨
        ∃ refinement refined refining,
          (explored.addExploring exploring).refine partition = .ok (refinement, refined) ∧
          match refinement with
          | .feasible trace => answer = .counterexample trace ∧ checker' = refined.addRefining refining
          | .spurious finer =>
            Id.run (checkTimed clock fuel rounds (refined.addRefining refining) finer) =
              .ok (answer, checker')) := by
  simp only [Checker.checkTimed, Id.run_bind] at h
  split at h
  · simp at h
  rename_i verdict explored hexplore
  refine ⟨verdict, explored, clock.run - clock.run, hexplore, ?_⟩
  simp only [Id.run_bind] at h
  cases verdict with
  | safe =>
    simp only [Id.run_pure, Except.ok.injEq, Prod.mk.injEq] at h
    exact .inl ⟨rfl, h.1.symm, h.2.symm⟩
  | counterexample =>
    dsimp only at h
    split at h
    · simp at h
    rename_i refinement refined hrefine
    refine .inr ⟨refinement, refined, clock.run - clock.run, hrefine, ?_⟩
    simp only [Id.run_bind] at h
    cases refinement with
    | feasible trace =>
      simp only [Id.run_pure, Except.ok.injEq, Prod.mk.injEq] at h
      exact ⟨h.1.symm, h.2.symm⟩
    | spurious finer => exact h

/-- **Every answer of a ready checker is correct**, by induction on the rounds, and leaves it ready. -/
theorem Ready.checkTimed {clock : Id Nat} (h : checker.Ready system) (hvalid : partition.Valid system)
    (hcheck : Id.run (checkTimed clock fuel rounds checker partition) = .ok (answer, checker')) :
    checker'.Ready system ∧ answer.Correct system := by
  induction rounds generalizing checker partition with
  | zero => simp [Checker.checkTimed] at hcheck
  | succ rounds ih =>
    obtain ⟨verdict, explored, exploring, hexplore, hlast | hnext⟩ := checkTimed_ok hcheck
    · obtain ⟨rfl, rfl, rfl⟩ := hlast
      obtain ⟨hexplored, hsafe⟩ := h.explore hvalid hexplore
      exact ⟨hexplored.count _, hsafe rfl⟩
    · obtain ⟨refinement, refined, refining, hrefine, hrest⟩ := hnext
      obtain ⟨hexplored, -⟩ := h.explore hvalid hexplore
      obtain ⟨hrefined, hanswer⟩ := Ready.refine (hexplored.count _) hvalid hrefine
      cases refinement with
      | feasible trace =>
        obtain ⟨rfl, rfl⟩ := hrest
        exact ⟨hrefined.count _, hanswer⟩
      | spurious finer => exact ih (hrefined.count _) hanswer hrest

/-- **Every answer in every run of a checker is correct**, whatever partitions it was asked about
before. -/
theorem answers_correct (system : TransitionSystem) (config : Config) :
    (∀ {checker checker' : Checker} {partition : Partition} {fuel : Nat} {answer : Answer},
      Run system config checker → (Partition.initial system).SplitsInto partition →
        checker.check fuel partition = .ok (answer, checker') → answer.Correct system) ∧
      ∀ {fuel : Nat} {answer : Answer} {stats : CheckerStats},
        system.check config fuel = .ok (answer, stats) → answer.Correct system := by
  have hready : ∀ {checker : Checker}, Run system config checker → checker.Ready system := by
    intro checker hrun
    induction hrun with
    | start => exact .start system config
    | check _ hsplits hcheck ih => exact (ih.checkTimed (hsplits.valid (.initial system)) hcheck).1
  refine ⟨fun hrun hsplits hcheck =>
    ((hready hrun).checkTimed (hsplits.valid (.initial system)) hcheck).2, fun hcheck => ?_⟩
  simp only [TransitionSystem.check, bind_eq_ok, pure_eq_ok, Prod.mk.injEq] at hcheck
  obtain ⟨⟨answer, checker⟩, hcheck, rfl, rfl⟩ := hcheck
  exact ((Ready.start system config).checkTimed (.initial system) hcheck).2

theorem answers_correct_forked :
    ∃ checker checker' stats, Run forked .standard checker ∧
      checker.check 9 ((Partition.initial forked).split (.ofList [0, 1])) =
        .ok (.counterexample [0, 2, 3], checker') ∧
      (Answer.counterexample [0, 2, 3]).Correct forked ∧
      forked.check .standard 9 = .ok (.counterexample [0, 2, 3], stats) ∧
      (Answer.counterexample [0, 2, 3]).Correct forked := by
  have htwice : ((start forked .standard).check 9 (.initial forked) >>= fun first =>
      first.2.check 9 ((Partition.initial forked).split (.ofList [0, 1]))).map (·.1) =
        .ok (.counterexample [0, 2, 3]) := by decide +kernel
  have honce : (forked.check .standard 9).map (·.1) = .ok (.counterexample [0, 2, 3]) := by
    decide +kernel
  obtain ⟨⟨_, _⟩, htwice, rfl⟩ := map_eq_ok.1 htwice
  obtain ⟨⟨_, checker⟩, hfirst, hsecond⟩ := bind_eq_ok.1 htwice
  obtain ⟨⟨_, stats⟩, honce, rfl⟩ := map_eq_ok.1 honce
  have hrun : Run forked .standard checker := .check .start .refl hfirst
  exact ⟨checker, _, stats, hrun, hsecond,
    (answers_correct forked .standard).1 hrun (.split _ .refl) hsecond, honce,
    (answers_correct forked .standard).2 honce⟩

end Checker

end GuidedReach
