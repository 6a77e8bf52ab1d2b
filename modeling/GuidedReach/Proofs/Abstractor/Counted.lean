import GuidedReach.Abstractor.Run
import GuidedReach.Abstractor.Tally
import GuidedReach.Proofs.Abstractor.HandedBack
import GuidedReach.Proofs.Exploration.Accounts
import GuidedReach.Proofs.Graph.Operations
import GuidedReach.Proofs.TransitionSystem.Reachability

/-!
# What the counters of a check tell

The counters of a check account for all that its search does to the graphs of the generations that are
held, whatever the analysis is like and whichever graphs were checked before.

* `Abstractor.Service.wellFormed` — all graphs that are held are well-formed.
* `Abstractor.Session.service` — so are those of a caller who only prunes.
* `Abstractor.Course.searched` — a check searches between the histories of its course.
* `Abstractor.check_accounts` — what each counter stands for.
-/

namespace GuidedReach

/-- Forgetting the provider does not touch the distances. -/
theorem Generation.settled_releaseProvider {S P K : Type} (gen : Generation S P K) :
    gen.releaseProvider.settled = gen.settled := by
  funext i
  simp only [settled, releaseProvider, NodeMap.get?_mapWithId]
  cases gen.searchNodes.get? i <;> rfl

namespace Abstractor

variable {S P K : Type} [DecidableEq S] [DecidableEq K]
variable {analysis : Analysis S P K} {config : Config} {abstractor abstractor' : Abstractor S P K}
variable {fuel index : Nat} {g g' : Graph S} {prec : P} {verdict : Verdict} {fresh : List NodeId}
variable {begun solved frozen resumed : Progress S P K} {last live : Generation S P K}

/-! ## Well-formed graphs -/

section

variable (hheld : ∀ {i gen}, abstractor.history.get? i = some gen → gen.graph.WellFormed)
variable (hg : g.WellFormed)
variable (hcourse : abstractor.Course fuel g prec index fresh begun solved frozen resumed last live)

include hheld hg hcourse

theorem Course.wellFormed_begun {i : Nat} {gen : Generation S P K}
    (hgen : begun.history.get? i = some gen) : gen.graph.WellFormed := by
  have hphases := hcourse.phases hg
  obtain ⟨first, hfirst, rfl⟩ := hphases.first
  have hlt := History.lt_length hgen
  rw [hphases.length] at hlt
  rcases eq_or_ne i index with rfl | hne
  · exact Option.some.inj (hfirst.symm.trans hgen) ▸ hg
  · exact hheld ((hcourse.behind (by omega)).symm.trans hgen)

/-- A check leaves well-formed graphs behind. -/
theorem Course.wellFormed (hhistory : abstractor'.history =
      resumed.history.applyRetention.set (index + 1) { live with graph := {} }) {i : Nat}
    {gen : Generation S P K} (hgen : abstractor'.history.get? i = some gen) :
    gen.graph.WellFormed := by
  have hphases := hcourse.phases hg
  have hlt : index + 1 < resumed.history.applyRetention.length := by
    rw [History.length_applyRetention, hphases.length_resumed]
    omega
  rw [hhistory, History.get?_set hlt] at hgen
  split at hgen
  · obtain rfl := Option.some.inj hgen
    exact .empty
  · rename_i hne
    obtain ⟨old, hold, hsame⟩ := History.exists_of_get?_applyRetention hgen
    rw [hphases.get?_resumed hne] at hold
    have hwf : old.graph.WellFormed :=
      hphases.solves.wellFormed (fun _ => hcourse.wellFormed_begun hheld hg) hold
    obtain rfl | rfl := hsame <;> exact hwf

end

/-- The caller gets a well-formed graph back. -/
theorem Course.wellFormed_live (hg : g.WellFormed)
    (hcourse : abstractor.Course fuel g prec index fresh begun solved frozen resumed last live) :
    live.graph.WellFormed := by
  have hphases := hcourse.phases hg
  obtain ⟨first, hfirst, rfl⟩ := hphases.first
  have hlast : last.graph.WellFormed := hphases.solves.wellFormed
    (fun gen hgen => Option.some.inj (hfirst.symm.trans hgen) ▸ hg) hcourse.last
  by_cases hsearch : abstractor.config.search = .decreasing
  · exact (hphases.severed hsearch).1 ▸ hlast.sever _
  · exact hphases.kept hsearch ▸ hlast

/-- **All graphs that are held are well-formed.** -/
theorem Service.wellFormed (h : Service analysis config abstractor) {i : Nat}
    {gen : Generation S P K} (hgen : abstractor.history.get? i = some gen) :
    gen.graph.WellFormed := by
  induction h generalizing i gen with
  | start => simp [History.get?] at hgen
  | check _ hg hcheck ih =>
    obtain ⟨_, _, _, _, _, _, _, _, hcourse, -, -, -, -, hhistory, -⟩ := check_ok hcheck
    exact hcourse.wellFormed ih hg hhistory hgen

theorem Service.config_eq (h : Service analysis config abstractor) :
    abstractor.config = config := by
  induction h with
  | start => rfl
  | check _ _ hcheck ih =>
    obtain ⟨_, _, _, _, _, _, _, _, -, -, -, -, hconfig, -⟩ := check_ok hcheck
    exact hconfig.trans ih

/-- A caller who only prunes between checks hands in well-formed graphs. -/
theorem Session.service (h : Session analysis config abstractor g) :
    Service analysis config abstractor ∧ g.WellFormed := by
  induction h with
  | start hwf => exact ⟨.start, hwf⟩
  | prune _ hprune ih => exact ⟨ih.1, (Graph.prune_ok ih.2 hprune).wellFormed ih.2⟩
  | pruneAll _ hprune ih =>
    obtain ⟨_, hprune', hwf, -⟩ := ih.2.exists_pruneAll
    cases hprune.symm.trans hprune'
    exact ⟨ih.1, hwf⟩
  | check _ hcheck ih =>
    obtain ⟨_, _, _, _, _, _, _, _, hcourse, -, -, -, -, -, rfl⟩ := check_ok hcheck
    exact ⟨.check ih.1 ih.2 hcheck, hcourse.wellFormed_live ih.2⟩

/-! ## Counters -/

/-- A check searches between the histories of its course. -/
theorem Course.searched
    (hcourse : abstractor.Course fuel g prec index fresh begun solved frozen resumed last live)
    (hrecorded : abstractor.Recorded abstractor' index begun solved frozen resumed last) :
    abstractor.searched fuel g prec = .ok (begun.history, solved.history) := by
  obtain ⟨first, hfirst, hstats⟩ := hrecorded.start
  have hbegun : begun =
      { history := begun.history,
        stats := Stats.recordStart { iteration := abstractor.iteration + 1 } first } := by
    rw [← hstats]
  simp only [Abstractor.searched, bind_eq_ok, lift_eq_ok, pure_eq_ok]
  refine ⟨(begun.history, fresh), hcourse.install, ((), solved), ?_, rfl⟩
  dsimp only
  rw [← hcourse.index_eq]
  simp only [Explore.run_bind_ok, Explore.run_generation_ok, Explore.run_count_ok]
  exact ⟨first, _, ⟨hfirst, rfl⟩, (), begun, hbegun, hcourse.solve⟩

/-- What a check counts while it searches. -/
theorem Course.counts (hheld : ∀ {i gen}, abstractor.history.get? i = some gen → gen.graph.WellFormed)
    (hg : g.WellFormed)
    (hcourse : abstractor.Course fuel g prec index fresh begun solved frozen resumed last live)
    (hrecorded : abstractor.Recorded abstractor' index begun solved frozen resumed last) :
    solved.history.count Node.isCovered = begun.history.count Node.isCovered + solved.stats.covered ∧
      solved.history.count (·.isExpanded) =
        begun.history.count (·.isExpanded) + solved.stats.expanded ∧
      solved.stats.leftoverNodes = g.size ∧ solved.stats.leftoverCoverings = g.count Node.isCovered ∧
      (abstractor.config.search ≠ .semiOnDemand → solved.stats.nestedSearches = 0 ∧
        (∀ i, i + 1 < begun.history.length → solved.history.get? i = begun.history.get? i) ∧
        last.graph.count Node.isCovered = g.count Node.isCovered + solved.stats.covered ∧
        last.graph.count (·.isExpanded) = g.count (·.isExpanded) + solved.stats.expanded) := by
  have hphases := hcourse.phases hg
  obtain ⟨first, hfirst, rfl⟩ := hphases.first
  obtain ⟨first', hfirst', hbegun⟩ := hrecorded.start
  obtain rfl := Option.some.inj (hfirst.symm.trans hfirst')
  have hwf {i : Nat} {gen : Generation S P K} (hgen : begun.history.get? i = some gen) :
      gen.graph.WellFormed :=
    hcourse.wellFormed_begun hheld hg hgen
  -- nothing was counted before
  have hcovered : begun.stats.covered = 0 := by rw [hbegun]; rfl
  have hexpanded : begun.stats.expanded = 0 := by rw [hbegun]; rfl
  have hnested : begun.stats.nestedSearches = 0 := by rw [hbegun]; rfl
  have haccounts := hphases.solves.accounts hwf
  refine ⟨by simpa [hcovered] using haccounts.covered, by simpa [hexpanded] using haccounts.expanded,
    by rw [haccounts.leftoverNodes, hbegun]; rfl, by rw [haccounts.leftoverCoverings, hbegun]; rfl,
    fun hsearch => ?_⟩
  obtain ⟨hlive, hlive'⟩ := hphases.solves.count_live hwf hsearch hfirst hcourse.last
  rw [hcovered, Nat.add_zero] at hlive
  rw [hexpanded, Nat.add_zero] at hlive'
  refine ⟨(hphases.solves.nestedSearches hsearch).trans hnested, fun i hi => ?_, hlive, hlive'⟩
  rw [hphases.length] at hi
  exact hphases.solves.frame_of_ne hsearch (by omega)

/-- **The counters of a check account for every change.** Over all generations that are held, its search
adds as many covered nodes, and as many expanded ones, as are counted. What is left over is what the
caller had, and each node with a known distance is counted as one with a finite or an infinite one.
Unless searches are on demand, none is nested, and all this happens in the generation that is solved. -/
theorem check_accounts (h : Service analysis config abstractor) (hg : g.WellFormed)
    (hcheck : abstractor.check fuel g prec = .ok (verdict, abstractor', g')) :
    ∃ before after solved, abstractor.searched fuel g prec = .ok (before, after) ∧
      abstractor'.solved? = some solved ∧ before.live?.map (·.graph) = some g ∧
      after.live?.map (·.graph) = some solved.graph ∧
      after.count Node.isCovered = before.count Node.isCovered + abstractor'.stats.covered ∧
      after.count (·.isExpanded) = before.count (·.isExpanded) + abstractor'.stats.expanded ∧
      abstractor'.stats.leftoverNodes = g.size ∧
      abstractor'.stats.leftoverCoverings = g.count Node.isCovered ∧
      abstractor'.stats.finiteDistances + abstractor'.stats.infiniteDistances =
        solved.graph.ids.countP solved.settled ∧
      (config.search ≠ .semiOnDemand → abstractor'.stats.nestedSearches = 0 ∧
        (∀ i, i + 1 < before.length → after.get? i = before.get? i) ∧
        solved.graph.count Node.isCovered = g.count Node.isCovered + abstractor'.stats.covered ∧
        solved.graph.count (·.isExpanded) =
          g.count (·.isExpanded) + abstractor'.stats.expanded) := by
  obtain rfl := h.config_eq
  obtain ⟨index, fresh, begun, solved, frozen, resumed, last, live, hcourse, hrecorded, -, -, -, -,
    hhistory, -⟩ := check_recorded hcheck
  have hphases := hcourse.phases hg
  obtain ⟨gen, hsolved, hsame, -⟩ := hcourse.leaves hg hhistory
  have hgraph : gen.graph = last.graph := by obtain rfl | rfl := hsame <;> rfl
  have hsettled : gen.settled = last.settled := by
    obtain rfl | rfl := hsame
    · rfl
    · exact last.settled_releaseProvider
  -- the counters of the search are those of the check
  have hstats : abstractor'.stats = solved.stats.recordEnd last :=
    hrecorded.result.trans (hphases.resumes.stats.trans hrecorded.finish)
  have hlast : solved.history.live? = some last := by
    rw [History.live?_eq_some, hphases.length_solved]
    exact hcourse.last
  obtain ⟨first, hfirst, hinstalled⟩ := hphases.first
  have hlive : begun.history.live? = some first := by
    rw [History.live?_eq_some, hphases.length]
    exact hfirst
  obtain ⟨hcovered, hexpanded, hnodes, hcoverings, honDemand⟩ :=
    hcourse.counts h.wellFormed hg hrecorded
  rw [hstats]
  refine ⟨begun.history, solved.history, gen, hcourse.searched hrecorded, hsolved,
    by rw [hlive, Option.map_some, hinstalled], by rw [hlast, Option.map_some, hgraph], hcovered,
    hexpanded, hnodes, hcoverings, ?_, hgraph ▸ honDemand⟩
  rw [hgraph, hsettled]
  exact Generation.countP_settled fun hk =>
    History.exists_node_of_freezeLive hcourse.freeze (History.live?_eq_some.1 hlast) hk

/-- A second check begins with two nodes, none of them covered. It expands one of them, and covers
another one of the first generation when it asks for a heuristic there. -/
theorem check_accounts_forked :
    let config : Config := ⟨.semiOnDemand, .firstCounterexample, by decide, by decide⟩
    ∃ abstractor abstractor' g g' partition before after solved,
      Service TransitionSystem.forked.blockAnalysis config abstractor ∧ g.WellFormed ∧
      abstractor.check 9 g partition = .ok (.counterexample, abstractor', g') ∧
      abstractor.searched 9 g partition = .ok (before, after) ∧
      abstractor'.solved? = some solved ∧
      abstractor'.stats =
        { iteration := 2, leftoverNodes := 2, expanded := 1, covered := 1, nestedSearches := 1,
          finiteDistances := 2, targets := 1 } ∧
      after.count Node.isCovered = before.count Node.isCovered + 1 ∧
      after.count (·.isExpanded) = before.count (·.isExpanded) + 1 ∧
      solved.graph.count Node.isCovered = 0 ∧ solved.graph.ids.countP solved.settled = 2 := by
  intro config
  let system := TransitionSystem.forked
  let partition := (Partition.initial system).split (.ofList [0])
  have hrounds : (check { analysis := system.blockAnalysis, config } 9 {} (.initial system)).map
      (fun first => (Graph.prune 1).result first.2.2 |>.map fun pruned =>
        (first.2.1.check 9 pruned.2 partition).map fun second =>
          (second.1, second.2.1.stats, second.2.1.solved?.map (·.graph.count Node.isCovered))) =
      .ok (.ok (.ok (.counterexample,
        { iteration := 2, leftoverNodes := 2, expanded := 1, covered := 1, nestedSearches := 1,
          finiteDistances := 2, targets := 1 }, some 0))) := by
    decide +kernel
  obtain ⟨⟨_, abstractor, g⟩, hfirst, hrounds⟩ := map_eq_ok.1 hrounds
  obtain ⟨⟨⟨⟩, g'⟩, hprune, hrounds⟩ := map_eq_ok.1 hrounds
  obtain ⟨⟨verdict, abstractor', g''⟩, hsecond, hrounds⟩ := map_eq_ok.1 hrounds
  simp only [Prod.mk.injEq, Option.map_eq_some_iff] at hrounds
  obtain ⟨rfl, hstats, solved, hsolved, hfree⟩ := hrounds
  have hsession : Session system.blockAnalysis config abstractor g' :=
    .prune (.check (.start .empty) hfirst) (Edit.result_eq_ok.1 hprune)
  obtain ⟨hservice, hg⟩ := hsession.service
  obtain ⟨before, after, solved', hsearched, hsolved', -, -, hcovered, hexpanded, -, -, hdistances,
    -⟩ := check_accounts hservice hg hsecond
  obtain rfl := Option.some.inj (hsolved.symm.trans hsolved')
  rw [hstats] at hcovered hexpanded hdistances
  exact ⟨abstractor, abstractor', g', g'', partition, before, after, solved, hservice, hg, hsecond,
    hsearched, hsolved, hstats, hcovered, hexpanded, hfree, hdistances.symm⟩

end Abstractor

end GuidedReach
