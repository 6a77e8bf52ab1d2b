import GuidedReach.Proofs.Abstractor.Refinement
import GuidedReach.Proofs.Exploration.BestFirst

/-!
# Checks search best-first

Between checks the values in the live generation fit what is left of the graph, so that the next check
begins its search with values that fit, and without known distances.

* `Abstractor.Fitting` — what is known fits the graph that the caller has.
* `Abstractor.RefinementRun.fitting` — so it does between checks.
* `Abstractor.RefinementRun.searches_bestFirst` — hence checks search best-first.
-/

namespace GuidedReach.Abstractor

variable {S P K : Type} {abstractor abstractor' : Abstractor S P K} {g g' : Graph S} {prec : P}
variable {allowed : P → Prop} {dead : S → Prop}

/-- What the live generation knows about the nodes that the caller has fits these nodes. -/
def Fitting (abstractor : Abstractor S P K) (g : Graph S) : Prop :=
  ∀ {live i k n}, abstractor.history.live? = some live → live.searchNodes.get? i = some k →
    g.get? i = some n → k.Fits n.isTarget

/-- What is left of a graph fits what is known about it. -/
theorem Fitting.remains (h : abstractor.Fitting g) (hremains : g.Remains g')
    (hg : g.Faithful abstractor.analysis allowed) (hg' : g'.Faithful abstractor.analysis allowed) :
    abstractor.Fitting g' := by
  intro live i k n' hlive hk hn'
  obtain ⟨n, hn, hstate, -⟩ := hremains.node hn'
  rw [hg'.isTarget hn', hstate, ← hg.isTarget hn]
  exact h hlive hk hn

/-- The caller may prune the graph. -/
theorem Ready.prune_fitting (h : Ready allowed dead abstractor g) (hfitting : abstractor.Fitting g)
    {id : NodeId} {u : Unit} (hprune : (Graph.prune id).run g = .ok u g') : abstractor.Fitting g' := by
  have hremains : g.Remains g' := .of_pruned (Graph.prune_ok h.faithful.wellFormed hprune)
  intro live i k n
  exact hfitting.remains hremains h.faithful (h.prune hprune).faithful

variable [DecidableEq K]

/-- A check begins with values that fit. -/
theorem Fitting.install (h : abstractor.Fitting g) (hwf : g.WellFormed) {history : History S P K}
    {fresh : List NodeId} {first : Generation S P K}
    (hinstall : abstractor.install g prec = .ok (history, fresh))
    (hfirst : history.get? (history.length - 1) = some first) : first.Proper := by
  cases hlive : abstractor.history.live? with
  | some live =>
    simp only [Abstractor.install, hlive, bind_eq_ok, pure_eq_ok, Prod.mk.injEq] at hinstall
    obtain ⟨live', hdrop, rfl, -⟩ := hinstall
    have hlt := History.lt_length (History.live?_eq_some.1 hlive)
    rw [History.length_set, History.get?_set hlt, if_pos rfl] at hfirst
    obtain rfl := Option.some.inj hfirst
    obtain ⟨hgraph, -, -, hsearchNodes⟩ := Generation.dropPruned_ok hdrop
    refine ⟨hgraph ▸ hwf, fun {i k} hk => ?_⟩
    rw [hsearchNodes] at hk
    split at hk
    · rename_i hheld
      obtain ⟨n, hn⟩ := Option.isSome_iff_exists.1 hheld
      exact ⟨n, hgraph ▸ hn, h hlive hk hn⟩
    · cases hk
  | none =>
    simp only [Abstractor.install, hlive, pure_eq_ok, Prod.mk.injEq] at hinstall
    obtain ⟨rfl, -⟩ := hinstall
    rw [History.length_push, History.get?_push, if_pos (by omega)] at hfirst
    obtain rfl := Option.some.inj hfirst
    exact ⟨hwf, by simp [NodeMap.get?_empty]⟩

variable [DecidableEq S] {fuel index : Nat} {verdict : Verdict} {fresh : List NodeId}
variable {begun solved frozen resumed : Progress S P K} {last live : Generation S P K}

/-- A check leaves values behind that fit. -/
theorem Ready.check_fitting (h : Ready allowed dead abstractor g) (hprec : allowed prec)
    (hlaws : abstractor.analysis.Lawful) (hrefutes : abstractor.analysis.Refutes allowed dead)
    (hcheck : abstractor.check fuel g prec = .ok (verdict, abstractor', g')) :
    abstractor'.Fitting g' := by
  obtain ⟨index, fresh, begun, solved, frozen, resumed, last, live, hcourse, -, -, -, -, hhistory,
    rfl⟩ := check_ok hcheck
  obtain ⟨hsolved, hlength, -⟩ := h.solves hprec hcourse hlaws hrefutes
  obtain ⟨-, hlength', hlive, -⟩ := h.resumes hprec hcourse hlaws hrefutes
  obtain ⟨last', hlast, -, hfrozen⟩ := History.freezeLive_ok hcourse.freeze
  rw [hlength, Nat.add_sub_cancel] at hlast hfrozen
  obtain rfl := Option.some.inj (hcourse.last.symm.trans hlast)
  have hcopy : frozen.history.get? (index + 1) = some (last.resetOnto index) := by
    rw [hfrozen, History.get?_push, if_pos hlength.symm]
  have hproper : (last.resetOnto index).Proper :=
    .of_resetOnto (hsolved.sound.faithful _ _ hcourse.last).1.wellFormed
      (hsolved.sound.generation _ _ hcourse.last).inGraph index
  obtain ⟨live', hlive', hfits⟩ :=
    Exploration.resumeLive_proper hcopy hproper hcourse.resume
  obtain rfl := Option.some.inj (hlive.symm.trans hlive')
  intro held i k n hheld hk hn
  have hlive? := live?_of_history (by rw [History.length_applyRetention, hlength']) hhistory
  obtain rfl := Option.some.inj (hlive?.symm.trans hheld)
  obtain ⟨m, hm, hfit⟩ := hfits.fits hk
  obtain rfl := Option.some.inj (hn.symm.trans hm)
  exact hfit

/-- **A check searches best-first**: the search in the live generation, at each of its stages. -/
theorem Ready.searches_bestFirst (h : Ready allowed dead abstractor g) (hfitting : abstractor.Fitting g)
    (hprec : allowed prec)
    (hcourse : abstractor.Course fuel g prec index fresh begun solved frozen resumed last live) :
    ∃ mid gen, mid.history.get? index = some gen ∧
      (Exploration.solve (abstractor.setup fuel) (Exploration.below (abstractor.setup fuel) index)
        index gen.graph.initNodes abstractor.config.stop).run mid = .ok ((), solved) ∧
      ∀ {steps stage q}, (Exploration.stageAfter (abstractor.setup fuel)
          (Exploration.below (abstractor.setup fuel) index) index gen.graph.initNodes
          abstractor.config.stop steps).run mid = .ok (stage, q) →
        (∀ e ∈ stage.taken, e.weight < Distance.limit) →
        ∃ now, q.history.get? index = some now ∧ stage.BestFirst now := by
  obtain ⟨rfl, hlength, first, hfirst, hgraph, -, hsound, hunknown⟩ := h.begins hprec hcourse
  obtain ⟨mid, hinitialize, gen, hgen, hsolve⟩ := Exploration.solveLive_ok hcourse.solve
  have hproper : first.Proper := by
    refine hfitting.install (h.faithful.wellFormed) hcourse.install ?_
    rw [hlength, Nat.add_sub_cancel]
    exact hfirst
  obtain ⟨gen', hgen', hproceeds⟩ :=
    Exploration.ensureInitialized_proceeds hfirst hproper hinitialize
  obtain rfl := Option.some.inj (hgen.symm.trans hgen')
  refine ⟨mid, gen, hgen, hsolve, fun {steps stage q} hstage hsmall => ?_⟩
  have hplain : gen.Plain (abstractor.setup fuel).search.visitsReached := by
    intro _ i edges hd
    have hnone := hunknown i _ (hproceeds.known hd rfl)
    cases hnone
  obtain ⟨now, hnow, hvalid⟩ := Exploration.stageAfter_valid
    (Exploration.below_moving (Nat.le_refl index)) hgen hproceeds.proper hplain hstage hsmall
  exact ⟨now, hnow, hvalid.bestFirst hsmall⟩

/-! ## Refinement runs -/

variable {system : TransitionSystem} {config : Config} {last? : Option Partition}
variable {partition : Partition} {refiner : Abstractor StateSet Partition Unit} {arg : Graph StateSet}

/-- What is known fits the graph that the caller has, whatever the caller pruned. -/
theorem RefinementRun.fitting (h : RefinementRun system config last? refiner arg) :
    refiner.Fitting arg := by
  induction h with
  | start => simp [Fitting, History.live?]
  | prune hrun hprune ih => exact (Ready.of_refinementRun hrun).1.prune_fitting ih hprune
  | pruneAll hrun hprune ih =>
    rename_i abstractor _ _
    simp only [Graph.pruneAll, Edit.run_bind_ok, Edit.run_get_ok] at hprune
    obtain ⟨_, _, ⟨rfl, rfl⟩, ⟨⟩, mid, hprune, hset⟩ := hprune
    obtain rfl := Edit.run_modify_ok.1 hset
    refine (Edit.run_forM_induct (motive := fun g =>
      Ready (Partition.Valid system) system.Dead abstractor g ∧ abstractor.Fitting g) ?_
      ⟨(Ready.of_refinementRun hrun).1, ih⟩ hprune).2
    rintro id g g' - ⟨hready, hfitting⟩ hprune
    exact ⟨hready.prune hprune, hready.prune_fitting hfitting hprune⟩
  | check hrun hfollows hcheck _ =>
    obtain ⟨hready, hanalysis, -, hvalid⟩ := Ready.of_refinementRun hrun
    exact hready.check_fitting (hfollows.valid hvalid) (hanalysis ▸ system.blockAnalysis_lawful)
      (hanalysis ▸ system.blockAnalysis_refutes) hcheck

/-- **Every check of a refinement run searches its live generation best-first**, as long as no weight
comes to the limit of sums. -/
theorem RefinementRun.searches_bestFirst (h : RefinementRun system config last? refiner arg)
    (hfollows : (last?.getD (.initial system)).SplitsInto partition)
    {begun solved frozen resumed : Progress StateSet Partition Unit}
    {last live : Generation StateSet Partition Unit}
    (hcourse : refiner.Course fuel arg partition index fresh begun solved frozen resumed last live) :
    ∃ mid gen, mid.history.get? index = some gen ∧
      (Exploration.solve (refiner.setup fuel) (Exploration.below (refiner.setup fuel) index) index
        gen.graph.initNodes config.stop).run mid = .ok ((), solved) ∧
      ∀ {steps stage q}, (Exploration.stageAfter (refiner.setup fuel)
          (Exploration.below (refiner.setup fuel) index) index gen.graph.initNodes config.stop
          steps).run mid = .ok (stage, q) →
        (∀ e ∈ stage.taken, e.weight < Distance.limit) →
        ∃ now, q.history.get? index = some now ∧ stage.BestFirst now := by
  obtain ⟨hready, -, hconfig, hvalid⟩ := Ready.of_refinementRun h
  exact hconfig ▸ hready.searches_bestFirst h.fitting (hfollows.valid hvalid) hcourse

end GuidedReach.Abstractor
