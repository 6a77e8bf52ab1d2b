import GuidedReach.Proofs.Abstractor.Refinement
import GuidedReach.Proofs.Exploration.Backed

/-!
# Finite distances of goal-directed runs

After every check of a run whose searches are goal-directed, each finite distance of a generation that
was left behind is the length of a path in the graph of that generation, as it is by then. The
invariant is `History.Backed`; the live generation has no distances between checks.

* `Abstractor.Ready.check_backed` — a check keeps finite distances backed.
* `Abstractor.RefinementRun.backed` — so does every run.
* `Abstractor.finite_distances_witnessed` — the paths behind finite distances.
-/

namespace GuidedReach.Abstractor

variable {S P K : Type} [DecidableEq S] [DecidableEq K] {allowed : P → Prop} {dead : S → Prop}

/-- A goal-directed check keeps finite distances backed, in the generations that it leaves behind and
in those before. -/
theorem Ready.check_backed {abstractor abstractor' : Abstractor S P K} {g g' : Graph S} {prec : P}
    {fuel : Nat} {verdict : Verdict} (h : Ready allowed dead abstractor g) (hprec : allowed prec)
    (hlaws : abstractor.analysis.Lawful) (hrefutes : abstractor.analysis.Refutes allowed dead)
    (hguided : abstractor.config.search ≠ .full) (hbacked : abstractor.history.Backed)
    (hcheck : abstractor.check fuel g prec = .ok (verdict, abstractor', g')) :
    abstractor'.history.Backed := by
  obtain ⟨index, fresh, begun, solved, frozen, resumed, last, live, hcourse, -, -, -, -, hhistory,
    rfl⟩ := check_ok hcheck
  obtain ⟨rfl, hlength, first, hfirst, -, -, hsound, hunknown⟩ := h.begins hprec hcourse
  have hbegun : begun.history.Backed := by
    intro i gen hgen
    have hlt := History.lt_length hgen
    by_cases hi : i = index
    · obtain rfl := Option.some.inj (hfirst.symm.trans (hi ▸ hgen))
      exact .of_unknown hunknown
    · rw [hcourse.behind (by omega)] at hgen
      exact hbacked i gen hgen
  have hsolved : solved.history.Backed := by
    obtain ⟨mid, hworks, hsame, -⟩ :=
      Exploration.solveLive_works hlaws hsound.sound.faithful hfirst hcourse.solve
    exact hsame hguided ▸ hworks.backed hlaws hsound.sound.faithful hbegun
  obtain ⟨-, hlength', hlive, -, hbehind, -, hunknown'⟩ := h.resumes hprec hcourse hlaws hrefutes
  have hresumed : resumed.history.Backed := by
    intro i gen hgen
    have hlt := History.lt_length hgen
    by_cases hi : i = index + 1
    · obtain rfl := Option.some.inj (hlive.symm.trans (hi ▸ hgen))
      exact .of_unknown hunknown'
    · rw [hbehind i (by omega)] at hgen
      exact hsolved i gen hgen
  intro i gen hgen
  rw [hhistory, History.get?_set (by rw [History.length_applyRetention, hlength']; omega)] at hgen
  split at hgen
  · obtain rfl := Option.some.inj hgen
    exact .of_unknown hunknown'
  · obtain ⟨old, hold, rfl | rfl⟩ := History.exists_of_get?_applyRetention hgen
    · exact hresumed i gen hold
    · refine (hresumed i old hold).congr id fun j m => ?_
      rw [old.distance_releaseProvider]

variable {system : TransitionSystem} {config : Config} {last : Option Partition}
variable {abstractor : Abstractor StateSet Partition Unit} {g : Graph StateSet}

/-- **Goal-directed runs keep finite distances backed.** -/
theorem RefinementRun.backed (h : RefinementRun system config last abstractor g)
    (hguided : config.search ≠ .full) : abstractor.history.Backed := by
  induction h with
  | start =>
    intro i gen hgen
    have hlt := History.lt_length hgen
    exact absurd hlt (Nat.not_lt_zero i)
  | prune _ _ ih => exact ih
  | pruneAll _ _ ih => exact ih
  | check hrun hfollows hcheck ih =>
    obtain ⟨hready, hanalysis, hconfig, hvalid⟩ := Ready.of_refinementRun hrun
    exact hready.check_backed (hfollows.valid hvalid) (hanalysis ▸ system.blockAnalysis_lawful)
      (hanalysis ▸ system.blockAnalysis_refutes) (hconfig ▸ hguided) ih hcheck

omit [DecidableEq S] [DecidableEq K] in
/-- Search nodes of generations that were left behind are those of graph nodes. -/
theorem Ready.inGraph {abstractor : Abstractor S P K} {g : Graph S}
    (h : Ready allowed dead abstractor g) {index : Nat} {gen : Generation S P K}
    (hgen : abstractor.history.get? index = some gen)
    (hindex : index + 1 < abstractor.history.length) {i : NodeId} {k : SearchNode}
    (hk : gen.searchNodes.get? i = some k) : ∃ n, gen.graph.get? i = some n := by
  cases h with
  | start hempty _ => omega
  | resumed hlength hlive hsound _ _ _ hhistory =>
    rw [hhistory, History.length_set] at hindex
    rw [hhistory, History.get?_set (by omega), if_neg (by omega)] at hgen
    exact (hsound.sound.generation index gen hgen).inGraph hk

/-- **Every finite distance is witnessed.** In each generation but the live one, a path of that length
leads from the node to a target, through the graph as it is now. Only sums that reach the largest
distance there is stay below the length of the path; that takes more nodes than this distance. -/
theorem finite_distances_witnessed (h : RefinementRun system config last abstractor g)
    (hguided : config.search ≠ .full) {index : Nat} {gen : Generation StateSet Partition Unit}
    (hgen : abstractor.history.get? index = some gen)
    (hindex : index + 1 < abstractor.history.length) {i : NodeId} {d : Nat}
    (hd : gen.distance i = .ok (.finite d)) :
    (gen.graph.size ≤ Distance.limit → gen.graph.ReachesTarget i d) ∧
      ∃ length, gen.graph.ReachesTarget i length ∧ d = min length Distance.limit := by
  have hbacked := RefinementRun.backed h hguided index gen hgen
  have hready := (Ready.of_refinementRun h).1
  exact ⟨fun hsize => hbacked.reachesTarget (hready.inGraph hgen hindex) hsize hd, hbacked.path hd⟩

open TransitionSystem (detour) in
/-- Between two rounds on demand, the longer of two ways is behind the distance of node 1. -/
theorem finite_distances_witnessed_detour :
    ∃ partition abstractor g gen,
      RefinementRun detour ⟨.semiOnDemand, .fullExploration, by decide, by decide⟩ (some partition)
        abstractor g ∧ abstractor.history.get? 0 = some gen ∧
      gen.distance 1 = .ok (.finite 4) ∧ gen.graph.ReachesTarget 1 4 := by
  let config : Config := ⟨.semiOnDemand, .fullExploration, by decide, by decide⟩
  let partition := (Partition.initial detour).splitAll ((List.range 10).map fun s => [s])
  have hround : (check { analysis := detour.blockAnalysis, config } 30 {} partition).map
      (fun round => do
        let gen ← round.2.1.history.get? 0
        return decide (round.2.1.history.length = 2 ∧ gen.distance 1 = .ok (.finite 4) ∧
          gen.graph.size ≤ Distance.limit)) = .ok (some true) := by
    decide +kernel
  obtain ⟨⟨_, abstractor, g⟩, hcheck, hround⟩ := map_eq_ok.1 hround
  simp only [Option.bind_eq_bind, Option.bind_eq_some_iff, Option.pure_def, Option.some.injEq,
    decide_eq_true_eq] at hround
  obtain ⟨gen, hgen, hlength, hdistance, hsize⟩ := hround
  have hrun : RefinementRun detour config (some partition) abstractor g :=
    .check .start (.splitAll .refl _) hcheck
  exact ⟨partition, abstractor, g, gen, hrun, hgen, hdistance,
    (finite_distances_witnessed hrun (by decide) hgen (by omega) hdistance).1 hsize⟩

end GuidedReach.Abstractor
