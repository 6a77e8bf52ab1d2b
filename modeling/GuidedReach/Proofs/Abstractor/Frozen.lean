import GuidedReach.Proofs.Abstractor.Evolution

/-!
# Generations that stay behind

With semi-on-demand heuristics, searches go back to generations that were left behind, and work on
them like on the live one. All this only adds to them.

* `Exploration.Nested` — what an exploration of one generation asks of those before it.
* `Exploration.Nested.frame` — nothing from that generation on is touched by it.
* `Abstractor.frozen_generations_grow` — a check only adds to the generations left behind.
-/

namespace GuidedReach

variable {S P K : Type} [DecidableEq S] [DecidableEq K]

namespace Exploration

/-- What an exploration of the generation `live` asks of older ones: a search that decides on a
heuristic, or the successors of a provider. -/
inductive Nested (setup : Setup S P K) (live : Nat) (p q : Progress S P K) : Prop
  | heuristic {id : NodeId} {d : Distance} :
    (computeHeuristic setup (below setup live) live id).run p = .ok (d, q) → Nested setup live p q
  | successors {index : Nat} {id : NodeId} :
    (askForSuccessors setup (below setup live) live index id).run p = .ok ((), q) →
      Nested setup live p q

variable {setup : Setup S P K} {live : Nat} {p q : Progress S P K}

theorem Nested.moves (h : Nested setup live p q) : Moves setup live live p q := by
  have holder : (below setup live).Moving setup live live := below_moving (Nat.le_refl live)
  cases h with
  | heuristic hrun =>
    obtain ⟨gen, hgen⟩ := exists_of_run_generation hrun
    exact (computeHeuristic_moves holder hgen hrun).1
  | successors hrun => exact (askForSuccessors_moves holder hrun).1

/-- **Nothing from the exploring generation on is touched**, however deep the searches nest. -/
theorem Nested.frame (h : Nested setup live p q) {i : Nat} (hle : live ≤ i) :
    q.history.get? i = p.history.get? i :=
  h.moves.frame hle

end Exploration

namespace Abstractor

variable {analysis : Analysis S P K} {config : Config} {mayFollow : Option P → P → Prop}
variable {lastPrec : Option P} {abstractor abstractor' : Abstractor S P K} {g g' : Graph S} {prec : P}
variable {fuel : Nat} {verdict : Verdict}

omit [DecidableEq S] in
/-- Putting the caller's graph into the history takes nothing out. -/
theorem length_le_of_install {history : History S P K} {fresh : List NodeId}
    (h : abstractor.install g prec = .ok (history, fresh)) :
    abstractor.history.length ≤ history.length := by
  cases hlive : abstractor.history.live? with
  | some live =>
    simp only [install, hlive, bind_eq_ok, pure_eq_ok, Prod.mk.injEq] at h
    obtain ⟨_, -, rfl, -⟩ := h
    simp
  | none =>
    simp only [install, hlive, pure_eq_ok, Prod.mk.injEq] at h
    obtain ⟨rfl, -⟩ := h
    simp

/-- With semi-on-demand heuristics, all that a check does to a generation that was left behind
before is done while the live one is solved. -/
theorem Underway.keeps (h : Underway abstractor.analysis abstractor.config abstractor g)
    (hsearch : abstractor.config.search = .semiOnDemand)
    (hcheck : abstractor.check fuel g prec = .ok (verdict, abstractor', g')) {i : Nat}
    {gen : Generation S P K} (hi : i + 1 < abstractor.history.length)
    (hgen : abstractor.history.get? i = some gen) :
    ∃ gen', abstractor'.history.get? i = some gen' ∧ gen.Keeps gen' := by
  obtain ⟨index, fresh, begun, solved, frozen, resumed, last, live, hcourse, -, -, -, -, hhistory,
    -⟩ := check_ok hcheck
  have hevolution := hcourse.evolution h
  have hlt : i < index := by
    have hle := length_le_of_install hcourse.install
    have hindex := hcourse.index_eq
    omega
  obtain ⟨gen', hsolved, hkeeps⟩ :=
    hevolution.solves.exists_keeps ((hcourse.behind hlt).trans hgen)
  refine ⟨gen', ?_, hkeeps⟩
  have hresume := hcourse.resume
  simp only [Exploration.resumeLive, setup, hsearch] at hresume
  obtain ⟨-, rfl⟩ := Explore.run_pure_ok.1 hresume
  have hretained : frozen.history.applyRetention = frozen.history :=
    History.applyRetention_of_all (by
      rw [hevolution.resumes.evolves.retention]
      simp [setup, hsearch, SearchType.retention])
  have hlength : solved.history.length = index + 1 :=
    hevolution.solves.length.trans hevolution.evolves.length
  rw [hhistory, hretained, History.get?_set (by rw [hevolution.resumes.evolves.length]; omega),
    if_neg (by omega), hevolution.freezes, History.get?_push, if_neg (by omega), hsolved]

/-- **The generations that were left behind only grow**, and nested searches do not reach from where
the search is that asks for them. -/
theorem frozen_generations_grow (h : Run analysis config mayFollow lastPrec abstractor g)
    (hsearch : config.search = .semiOnDemand)
    (hcheck : abstractor.check fuel g prec = .ok (verdict, abstractor', g')) :
    (∀ {index gen}, index + 1 < abstractor.history.length →
      abstractor.history.get? index = some gen →
        ∃ gen', abstractor'.history.get? index = some gen' ∧ gen.Keeps gen') ∧
    ∀ {live index p q}, Exploration.Nested (abstractor.setup fuel) live p q → live ≤ index →
      q.history.get? index = p.history.get? index := by
  obtain ⟨hunderway, rfl, rfl⟩ := h.underway
  exact ⟨hunderway.keeps hsearch hcheck, fun hnested => hnested.frame⟩

/-- While a second check looks for the heuristic of a node, it covers a node of the first generation
that was open so far, and finds its distance. -/
theorem frozen_generations_grow_forked :
    let config : Config := ⟨.semiOnDemand, .firstCounterexample, by decide, by decide⟩
    ∃ abstractor abstractor' g g' gen gen' partition q,
      RefinementRun TransitionSystem.forked config (some (.initial TransitionSystem.forked))
        abstractor g ∧ config.search = .semiOnDemand ∧
      abstractor.check 9 g partition = .ok (.counterexample, abstractor', g') ∧
      (0 + 1 < abstractor.history.length ∧ abstractor.history.get? 0 = some gen ∧
        abstractor'.history.get? 0 = some gen' ∧ gen.Keeps gen' ∧
        gen.distance 1 = .ok .unknown ∧ gen'.distance 1 = .ok (.finite 1)) ∧
      Exploration.Nested (abstractor.setup 9) 1 { history := abstractor.history, stats := {} } q ∧
        q.history.get? 0 ≠ abstractor.history.get? 0 ∧
        q.history.get? 1 = abstractor.history.get? 1 := by
  intro config
  let system := TransitionSystem.forked
  let partition := (Partition.initial system).split (.ofList [0])
  have hrounds : (check { analysis := system.blockAnalysis, config } 9 {} (.initial system)).map
      (fun first => Graph.pruneAll.result first.2.2 |>.map fun pruned =>
        (first.2.1.check 9 pruned.2 partition).map fun second =>
          ((Exploration.askForSuccessors (first.2.1.setup 9) (Exploration.below (first.2.1.setup 9) 1)
            1 0 2).run { history := first.2.1.history, stats := {} }).map fun nested => do
          let gen ← first.2.1.history.get? 0
          let gen' ← second.2.1.history.get? 0
          let opened ← nested.2.history.get? 0
          let n ← gen.graph.get? 2
          let n' ← opened.graph.get? 2
          return decide (first.2.1.history.length = 2 ∧ second.1 = .counterexample ∧
            gen.distance 1 = .ok .unknown ∧ gen'.distance 1 = .ok (.finite 1) ∧
            n.isExpanded = false ∧ n'.isExpanded = true)) =
      .ok (.ok (.ok (.ok (some true)))) := by
    decide +kernel
  obtain ⟨⟨_, abstractor, g⟩, hfirst, hrounds⟩ := map_eq_ok.1 hrounds
  obtain ⟨⟨⟨⟩, g'⟩, hprune, hrounds⟩ := map_eq_ok.1 hrounds
  obtain ⟨⟨verdict, abstractor', g''⟩, hsecond, hrounds⟩ := map_eq_ok.1 hrounds
  obtain ⟨⟨⟨⟩, q⟩, hnested, hrounds⟩ := map_eq_ok.1 hrounds
  simp only [Option.bind_eq_bind, Option.bind_eq_some_iff, Option.pure_def, Option.some.injEq,
    decide_eq_true_eq] at hrounds
  obtain ⟨gen, hgen, gen₂, hgen₂, opened, hopened, n, hn, n', hn', hlength, rfl, hbefore, hafter,
    hleaf, hexpanded⟩ := hrounds
  have hrun : RefinementRun system config (some (.initial system)) abstractor g' :=
    .pruneAll (.check .start .refl hfirst) (Edit.result_eq_ok.1 hprune)
  obtain ⟨hkeeps, hframe⟩ := frozen_generations_grow hrun rfl hsecond
  obtain ⟨gen', hgen', hkept⟩ := hkeeps (by omega) hgen
  obtain rfl := Option.some.inj (hgen'.symm.trans hgen₂)
  have hnested := Exploration.Nested.successors hnested
  refine ⟨abstractor, abstractor', g', g'', gen, gen', partition, q, hrun, rfl, hsecond,
    ⟨by omega, hgen, hgen', hkept, hbefore, hafter⟩, hnested, fun hsame => ?_,
    hframe hnested (Nat.le_refl 1)⟩
  rw [hopened, hgen] at hsame
  obtain rfl := Option.some.inj hsame
  obtain rfl := Option.some.inj (hn.symm.trans hn')
  simp [hleaf] at hexpanded

end Abstractor

end GuidedReach
