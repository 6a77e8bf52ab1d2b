import GuidedReach.Proofs.Abstractor.Refinement
import GuidedReach.Proofs.Exploration.FinishingRounds

/-!
# Checks come to an end

What a check starts with decides how large the graphs can become, no matter how much fuel there is.
With more fuel than twice that, it ends in a result or in a fault.

* `TransitionSystem.blockAnalysis_finitary` — a partition has only so many blocks.
* `Abstractor.Ready.exists_confined` — a size that no graph exceeds during a check.
* `Abstractor.Ready.check_finishes` — a check with enough fuel does not run out of it.
* `Abstractor.refinement_terminates` — so do the checks of all refinement runs.
-/

namespace GuidedReach

/-- A block has only blocks of the partition as successors. -/
theorem TransitionSystem.blockAnalysis_finitary (system : TransitionSystem)
    (allowed : Partition → Prop) : system.blockAnalysis.Finitary allowed :=
  fun partition _ => ⟨partition.blocks, List.filter_sublist, fun _ => List.filter_sublist⟩

namespace Abstractor

variable {S P K : Type} [DecidableEq S] [DecidableEq K] {allowed : P → Prop} {dead : S → Prop}
variable {abstractor abstractor' : Abstractor S P K} {g g' : Graph S} {prec : P} {fuel size : Nat}
variable {verdict : Verdict}

/-- While a check explores, no graph exceeds a size. -/
def Confines (allowed : P → Prop) (abstractor : Abstractor S P K) (g : Graph S) (prec : P)
    (size : Nat) : Prop :=
  ∀ {history fresh}, abstractor.install g prec = .ok (history, fresh) → ∀ fuel stats,
    Exploration.Confined (abstractor.setup fuel) allowed size ⟨history, stats⟩

section

variable (h : Ready allowed dead abstractor g) (hprec : allowed prec)
variable (hlaws : abstractor.analysis.Lawful)

include h hprec hlaws

/-- **What a check starts with decides how large graphs can become**, however much fuel there is. -/
theorem Ready.exists_confines (hfinitary : abstractor.analysis.Finitary allowed) :
    ∃ size, Confines allowed abstractor g prec size := by
  cases hinstall : abstractor.install g prec with
  | error fault => exact ⟨0, fun heq => by simp [hinstall] at heq⟩
  | ok result =>
    obtain ⟨history, fresh⟩ := result
    obtain ⟨-, -, -, -, -, hsound, -⟩ := h.install hprec hinstall
    obtain ⟨size, hsize⟩ := Exploration.exists_confined hlaws hfinitary hsound.sound.faithful
      fun index gen hgen => (hsound.sound.generation index gen hgen).inGraph
    refine ⟨size, fun heq fuel stats => ?_⟩
    obtain ⟨rfl, -⟩ := Prod.mk.inj (Except.ok.inj (hinstall.symm.trans heq))
    exact hsize _ stats rfl

/-- **A check with enough fuel ends** in a result or in a fault. -/
theorem Ready.check_finishes (hconfines : Confines allowed abstractor g prec size)
    (hfuel : 2 * size < fuel) : abstractor.check fuel g prec ≠ .error .outOfFuel := by
  unfold Abstractor.check
  refine lift_bind_ne_outOfFuel fun ⟨history, fresh⟩ hinstall => ?_
  obtain ⟨rfl, gen, hgen, -⟩ := h.install hprec hinstall
  refine bind_ne_outOfFuel ?_ fun ⟨⟨⟩, solved⟩ _ => ?_
  · refine Explore.finishes_generation_bind fun _ _ =>
      Explore.finishes_bind Explore.finishes_count fun _ begun hcount => ?_
    obtain rfl := Explore.run_count_ok.1 hcount
    exact Exploration.solveLive_finishes hlaws (hconfines hinstall fuel _) hfuel hgen
  refine bind_ne_outOfFuel Explore.finishes_generation fun ⟨last, _⟩ _ => ?_
  refine lift_bind_ne_outOfFuel fun frozen _ => ?_
  refine bind_ne_outOfFuel (Exploration.resumeLive_finishes hlaws) fun ⟨⟨⟩, copied⟩ _ => ?_
  dsimp only
  split
  · simp [throw, throwThe, MonadExceptOf.throw]
  · simp [pure, Except.pure]

/-- **No generation is left behind with a graph that exceeds the size.** -/
theorem Ready.size_le (hrefutes : abstractor.analysis.Refutes allowed dead)
    (hconfines : Confines allowed abstractor g prec size)
    (hcheck : abstractor.check fuel g prec = .ok (verdict, abstractor', g')) {index : Nat}
    {gen : Generation S P K} (hgen : (abstractor'.generations g').get? index = some gen) :
    gen.graph.size ≤ size := by
  obtain ⟨live, fresh, begun, solved, frozen, copied, last, copy, hcourse, -, -, -, -, hhistory, rfl⟩ :=
    check_ok hcheck
  obtain ⟨rfl, -, first, hfirst, -⟩ := h.begins hprec hcourse
  obtain ⟨-, hlength, -, -, hbehind, hremains, -⟩ := h.resumes hprec hcourse hlaws hrefutes
  have hconfined := hconfines hcourse.install fuel begun.stats
  obtain ⟨mid, hworks, -, hwritten⟩ :=
    Exploration.solveLive_works hlaws hconfined.faithful hfirst hcourse.solve
  have hsolved : ∀ {i gen}, solved.history.get? i = some gen → gen.graph.size ≤ size := by
    intro i gen hgen
    obtain ⟨gen₁, hgen₁, hwrites⟩ := hwritten hgen
    rw [hwrites.graph]
    exact hconfined.size_le hworks hgen₁
  rw [get?_generations (by rw [History.length_applyRetention, hlength]) hhistory] at hgen
  split at hgen
  · obtain rfl := Option.some.inj hgen
    exact hremains.size_le.trans (hsolved hcourse.last)
  · obtain ⟨old, hold, hsame⟩ := History.exists_of_get?_applyRetention hgen
    have hlt := History.lt_length hold
    rw [hbehind index (by omega)] at hold
    have hle := hsolved hold
    obtain rfl | rfl := hsame
    · exact hle
    · exact hle

end

/-! ## Refinement runs -/

/-- **Every check of a refinement run terminates**, be it in a result or in a fault, and no graph
grows without bound on the way: neither that of the caller nor that of an older generation. -/
theorem refinement_terminates {system : TransitionSystem} {config : Config} {last : Option Partition}
    {abstractor : Abstractor StateSet Partition Unit} {g : Graph StateSet}
    (h : RefinementRun system config last abstractor g) {partition : Partition}
    (hsplits : (last.getD (.initial system)).SplitsInto partition) :
    ∃ bound, (∀ fuel, bound ≤ fuel → abstractor.check fuel g partition ≠ .error .outOfFuel) ∧
      ∀ {fuel verdict abstractor' g'},
        abstractor.check fuel g partition = .ok (verdict, abstractor', g') →
          ∀ {index gen}, (abstractor'.generations g').get? index = some gen →
            gen.graph.size ≤ bound := by
  obtain ⟨hready, hanalysis, -, hvalid⟩ := Ready.of_refinementRun h
  have hvalid' := hsplits.valid hvalid
  have hlaws := hanalysis ▸ system.blockAnalysis_lawful
  obtain ⟨size, hsize⟩ := hready.exists_confines hvalid' hlaws
    (hanalysis ▸ system.blockAnalysis_finitary _)
  refine ⟨2 * size + 1, fun fuel hfuel => ?_, fun hcheck index gen hgen => ?_⟩
  · exact hready.check_finishes hvalid' hlaws hsize (by omega)
  · have hle := hready.size_le hvalid' hlaws (hanalysis ▸ system.blockAnalysis_refutes) hsize hcheck hgen
    omega

open TransitionSystem (forked) in
/-- Searches on demand explored the coarsest abstraction; checking it again once it is split ends. -/
theorem refinement_terminates_forked :
    ∃ abstractor g, RefinementRun forked ⟨.semiOnDemand, .fullExploration, by decide, by decide⟩
        (some (.initial forked)) abstractor g ∧
      (Partition.initial forked).SplitsInto ((Partition.initial forked).split (.ofList [0])) ∧
      ∃ bound,
        (∀ fuel, bound ≤ fuel → abstractor.check fuel g
          ((Partition.initial forked).split (.ofList [0])) ≠ .error .outOfFuel) ∧
        ∀ {fuel verdict abstractor' g'}, abstractor.check fuel g
            ((Partition.initial forked).split (.ofList [0])) = .ok (verdict, abstractor', g') →
          ∀ {index gen}, (abstractor'.generations g').get? index = some gen →
            gen.graph.size ≤ bound := by
  let config : Config := ⟨.semiOnDemand, .fullExploration, by decide, by decide⟩
  have hround : (check { analysis := forked.blockAnalysis, config } 9 {} (.initial forked)).map
      (fun round => round.1) = .ok .counterexample := by
    decide +kernel
  obtain ⟨⟨_, abstractor, g⟩, hcheck, -⟩ := map_eq_ok.1 hround
  have hrun : RefinementRun forked config (some (.initial forked)) abstractor g :=
    .check .start .refl hcheck
  exact ⟨abstractor, g, hrun, .split _ .refl, refinement_terminates hrun (.split _ .refl)⟩

end Abstractor

end GuidedReach
