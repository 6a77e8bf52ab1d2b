import GuidedReach.Abstractor.Run
import GuidedReach.Graph.Path
import GuidedReach.Proofs.Abstractor.Ready
import GuidedReach.Proofs.Partition.Blocks

/-!
# Refinement runs

While partitions only become finer and the caller only prunes, the graphs stay abstractions of the
system, and infinite values stay true of the states behind them.

* `Abstractor.Ready.pruneAll` — the caller may prune everything.
* `Abstractor.Ready.of_refinementRun` — every refinement run leaves its abstractor ready.
* `Abstractor.graphs_overapproximate` — every graph presents all init states and all transitions.
* `Abstractor.infinite_values_sound` — no target is reached from the states of a node with an
  infinite heuristic or distance.
* `Abstractor.goalDirected_distance_too_large`, `Abstractor.goalDirected_heuristic_inconsistent` —
  finite values are not that reliable unless searches are exhaustive.
* `Abstractor.goalDirected_distance_left_open` — nor are all of them found that follow.
-/

namespace GuidedReach

/-- What a graph presents of a system: once it is initialized, all init states; below an expanded
node, all transitions from its states; and a coverer has all the states that it stands in for. -/
structure Graph.OverApproximates (g : Graph StateSet) (system : TransitionSystem) : Prop where
  init : g.isInitialized = true → ∀ s, s ∈ system.init →
    ∃ i n, i ∈ g.initNodes ∧ g.get? i = some n ∧ s ∈ n.state
  step : ∀ {i n}, g.get? i = some n → n.isExpanded = true → ∀ s t, s ∈ n.state → system.Step s t →
    ∃ c m, c ∈ n.succs ∧ g.get? c = some m ∧ m.parent = some i ∧ t ∈ m.state
  covering : ∀ {i n c}, g.get? i = some n → n.covering = some c →
    ∃ m, g.get? c = some m ∧ ∀ s, s ∈ n.state → s ∈ m.state

/-- A graph that is faithful to the abstraction by blocks presents the system. -/
theorem Graph.Faithful.overApproximates {system : TransitionSystem} {g : Graph StateSet}
    (hg : g.Faithful system.blockAnalysis (Partition.Valid system)) : g.OverApproximates system where
  init hinitialized s hs := by
    obtain ⟨partition, hvalid, hall⟩ := hg.initialized hinitialized
    obtain ⟨block, hblock, hmem⟩ := hvalid.exists_meeting hs (system.init_lt s hs)
    obtain ⟨i, n, hi, hn, rfl⟩ := mem_statesOf.1 (hall block hblock)
    exact ⟨i, n, hi, hn, hmem⟩
  step {i n} hn hexpanded s t hs hstep := by
    obtain ⟨partition, hvalid, hall⟩ := hg.expanded hn hexpanded
    have ht : t ∈ system.image n.state := TransitionSystem.mem_image.2 ⟨s, hs, hstep⟩
    obtain ⟨block, hblock, hmem⟩ := hvalid.exists_meeting ht (system.edges_lt _ hstep).2
    obtain ⟨c, m, hc, hm, rfl⟩ := mem_statesOf.1 (hall block hblock)
    obtain ⟨m', hm', hparent⟩ := hg.wellFormed.succ_link hn hc
    obtain rfl := Option.some.inj (hm.symm.trans hm')
    exact ⟨c, m, hc, hm, hparent, hmem⟩
  covering hn hcovering := by
    obtain ⟨-, -, m, hm, hleq⟩ := hg.covering hn hcovering
    exact ⟨m, hm, TransitionSystem.blockAnalysis_isLeq.1 hleq⟩

/-- From state 1 a target is reached over 4 and 2, and by a longer way over 6. State 2 is also a
successor of the init state, so of its two nodes the one below 4 gets covered. -/
def TransitionSystem.detour : TransitionSystem where
  states := 10
  init := .ofList [0]
  edges := [(0, 1), (0, 2), (1, 4), (1, 6), (2, 3), (4, 2), (4, 5), (6, 7), (7, 8), (8, 9)]
  targets := .ofList [3, 9]
  succs := adjacency 10
    [(0, 1), (0, 2), (1, 4), (1, 6), (2, 3), (4, 2), (4, 5), (6, 7), (7, 8), (8, 9)]
  states_pos := by decide
  states_le := by decide
  init_lt := by decide
  targets_lt := by decide
  edges_lt := by decide
  succs_eq := rfl

/-- From state 1 a target is reached over 0, and by a longer way over 2. State 0 is also an init state,
so of its two nodes the one below 1 gets covered. -/
def TransitionSystem.shortcut : TransitionSystem where
  states := 8
  init := .ofList [0, 1]
  edges := [(0, 3), (1, 0), (1, 2), (2, 4), (4, 5), (5, 6), (6, 7), (7, 3)]
  targets := .ofList [3]
  succs := adjacency 8 [(0, 3), (1, 0), (1, 2), (2, 4), (4, 5), (5, 6), (6, 7), (7, 3)]
  states_pos := by decide
  states_le := by decide
  init_lt := by decide
  targets_lt := by decide
  edges_lt := by decide
  succs_eq := rfl

namespace Abstractor

variable {S P K : Type} {allowed : P → Prop} {dead : S → Prop}

/-! ## Pruning -/

/-- The caller may prune every node. -/
theorem Ready.pruneAll {abstractor : Abstractor S P K} {g g' : Graph S}
    (h : Ready allowed dead abstractor g) {u : Unit} (hprune : Graph.pruneAll.run g = .ok u g') :
    Ready allowed dead abstractor g' := by
  simp only [Graph.pruneAll, Edit.run_bind_ok, Edit.run_get_ok] at hprune
  obtain ⟨_, _, ⟨rfl, rfl⟩, ⟨⟩, mid, hprune, hset⟩ := hprune
  obtain rfl := Edit.run_modify_ok.1 hset
  have hmid := Edit.run_forM_induct (motive := Ready allowed dead abstractor)
    (fun _ _ _ _ hready hprune => hready.prune hprune) h hprune
  have hfaithful := hmid.faithful
  cases hmid with
  | start hempty hg => exact .start hempty (by subst hg; rfl)
  | resumed hlength hgen hsound hunknown hremains hg hhistory =>
    exact .resumed hlength hgen hsound hunknown ⟨hremains.node⟩
      { hg with
        wellFormed := { hg.wellFormed with }
        initialized := by simp } hhistory

/-! ## All generations -/

/-- The live generation of an abstractor with the caller's graph, and those before it. -/
theorem get?_generations {abstractor : Abstractor S P K} {g : Graph S} {history : History S P K}
    {live : Nat} {gen : Generation S P K} (hlength : history.length = live + 1)
    (hhistory : abstractor.history = history.set live { gen with graph := {} }) (i : Nat) :
    (abstractor.generations g).get? i =
      if i = live then some { gen with graph := g } else history.get? i := by
  simp only [generations, live?_of_history hlength hhistory]
  rw [hhistory, History.length_set, hlength, History.get?_set (by simp; omega),
    History.get?_set (by omega), Nat.add_sub_cancel]
  by_cases hi : i = live <;> simp [hi]

/-- All generations are faithful, the live one with the graph of the caller, and no target can be
reached from what is infinitely far away. -/
theorem Ready.sound_of_generations {abstractor : Abstractor S P K} {g : Graph S}
    (h : Ready allowed dead abstractor g) {index : Nat} {gen : Generation S P K}
    (hgen : (abstractor.generations g).get? index = some gen) :
    gen.graph.Faithful abstractor.analysis allowed ∧ ∀ {i n}, gen.graph.get? i = some n →
      gen.heuristic i = .ok .infinite ∨ gen.distance i = .ok .infinite → dead n.state := by
  cases h with
  | start hempty _ =>
    have hnone : ∀ j, abstractor.history.get? j = none := fun j =>
      Option.eq_none_iff_forall_ne_some.2 fun _ hj => by
        have := History.lt_length hj
        omega
    have hlive : abstractor.history.live? = none :=
      Option.eq_none_iff_forall_ne_some.2 fun _ hlive => by
        simpa [hnone] using History.live?_eq_some.1 hlive
    simp [generations, hlive, hnone] at hgen
  | @resumed before live held hlength hheld hsound _ hremains hg hhistory =>
    rw [get?_generations hlength hhistory] at hgen
    by_cases hindex : index = live
    · subst hindex
      obtain rfl : { held with graph := g } = gen := by simpa using hgen
      refine ⟨hg, fun {i n} hn hinfinite => ?_⟩
      obtain ⟨m, hm, hstate, -⟩ := hremains.node hn
      have hvalues := hsound.sound.generation _ held hheld
      rw [hstate]
      exact hinfinite.elim (hvalues.heuristic · hm) (hvalues.distance · hm)
    · have hbefore : before.get? index = some gen := by simpa [hindex] using hgen
      have hvalues := hsound.sound.generation _ gen hbefore
      exact ⟨(hsound.sound.faithful _ gen hbefore).1, fun hn hinfinite =>
        hinfinite.elim (hvalues.heuristic · hn) (hvalues.distance · hn)⟩

/-! ## Runs -/

open TransitionSystem (detour forked shortcut)

variable {system : TransitionSystem} {config : Config} {last : Option Partition}
variable {abstractor : Abstractor StateSet Partition Unit} {g : Graph StateSet}

/-- **Every refinement run leaves its abstractor ready**, and the last partition is one of the
states. -/
theorem Ready.of_refinementRun (h : RefinementRun system config last abstractor g) :
    Ready (Partition.Valid system) system.Dead abstractor g ∧
      abstractor.analysis = system.blockAnalysis ∧ abstractor.config = config ∧
      (last.getD (.initial system)).Valid system := by
  induction h with
  | start => exact ⟨.start rfl rfl, rfl, rfl, .initial system⟩
  | prune _ hprune ih => exact ⟨ih.1.prune hprune, ih.2⟩
  | pruneAll _ hprune ih => exact ⟨ih.1.pruneAll hprune, ih.2⟩
  | check _ hfollows hcheck ih =>
    obtain ⟨hready, hanalysis, hconfig, hvalid⟩ := ih
    have hvalid' := hfollows.valid hvalid
    obtain ⟨hready', hanalysis', hconfig', -⟩ := hready.check hvalid'
      (hanalysis ▸ system.blockAnalysis_lawful) (hanalysis ▸ system.blockAnalysis_refutes) hcheck
    exact ⟨hready', hanalysis'.trans hanalysis, hconfig'.trans hconfig, hvalid'⟩

/-- **Every graph presents the system**: that of the caller and those of all generations. -/
theorem graphs_overapproximate (h : RefinementRun system config last abstractor g) :
    g.OverApproximates system ∧ ∀ {index gen},
      (abstractor.generations g).get? index = some gen → gen.graph.OverApproximates system := by
  obtain ⟨hready, hanalysis, -⟩ := Ready.of_refinementRun h
  have hfaithful := hready.faithful
  rw [hanalysis] at hfaithful
  refine ⟨hfaithful.overApproximates, fun hgen => ?_⟩
  have hgraph := (hready.sound_of_generations hgen).1
  rw [hanalysis] at hgraph
  exact hgraph.overApproximates

/-- A round explores below the init state, and the caller prunes what it found there. -/
theorem graphs_overapproximate_forked :
    ∃ partition abstractor g, RefinementRun forked .standard (some partition) abstractor g ∧
      (g.isInitialized, g.ids) = (true, [0]) ∧ (abstractor.generations g).live?.isSome ∧
      g.OverApproximates forked ∧ ∀ {index gen},
        (abstractor.generations g).get? index = some gen → gen.graph.OverApproximates forked := by
  let partition := (Partition.initial forked).split (.ofList [0])
  have hround : (check { analysis := forked.blockAnalysis, config := .standard } 9 {} partition).map
      (fun round => ((Graph.prune 1).result round.2.2).map fun pruned =>
        ((pruned.2.isInitialized, pruned.2.ids), (round.2.1.generations pruned.2).live?.isSome)) =
        .ok (.ok ((true, [0]), true)) := by
    decide +kernel
  obtain ⟨⟨_, abstractor, g⟩, hcheck, hprune⟩ := map_eq_ok.1 hround
  obtain ⟨⟨_, g'⟩, hprune, hg'⟩ := map_eq_ok.1 hprune
  obtain ⟨hids, hlive⟩ := Prod.mk.inj hg'
  have hrun : RefinementRun forked .standard (some partition) abstractor g' :=
    .prune (.check .start (.split _ .refl) hcheck) (Edit.result_eq_ok.1 hprune)
  exact ⟨partition, abstractor, g', hrun, hids, hlive, graphs_overapproximate hrun⟩

/-- **Infinite values are true**: from no state behind such a node is a target reached. -/
theorem infinite_values_sound (h : RefinementRun system config last abstractor g) {index : Nat}
    {gen : Generation StateSet Partition Unit}
    (hgen : (abstractor.generations g).get? index = some gen) {i : NodeId} {n : Node StateSet}
    (hn : gen.graph.get? i = some n)
    (hinfinite : gen.heuristic i = .ok .infinite ∨ gen.distance i = .ok .infinite) :
    ∀ s, s ∈ n.state → system.targetDistance s = none ∧ ∀ length, ¬ system.ReachesTarget s length := by
  intro s hs
  have hdead := ((Ready.of_refinementRun h).1.sound_of_generations hgen).2 hn hinfinite s hs
  exact ⟨TransitionSystem.targetDistance_eq_none hdead, hdead⟩

/-- With each state in its own block, a round gives the way that leads nowhere an infinite distance. -/
theorem infinite_values_sound_forked :
    ∃ partition abstractor g gen n, RefinementRun forked .standard (some partition) abstractor g ∧
      (abstractor.generations g).get? 0 = some gen ∧ gen.graph.get? 1 = some n ∧
      (gen.heuristic 1 = .ok .infinite ∨ gen.distance 1 = .ok .infinite) ∧ 1 ∈ n.state ∧
      forked.targetDistance 1 = none ∧ ∀ length, ¬ forked.ReachesTarget 1 length := by
  let partition := ((Partition.initial forked).split (.ofList [0])).split (.ofList [1])
  have hround : (check { analysis := forked.blockAnalysis, config := .standard } 9 {} partition).map
      (fun round => do
        let gen ← (round.2.1.generations round.2.2).get? 0
        let n ← gen.graph.get? 1
        return (n.state.contains 1, gen.distance 1)) = .ok (some (true, .ok .infinite)) := by
    decide +kernel
  obtain ⟨⟨_, abstractor, g⟩, hcheck, hround⟩ := map_eq_ok.1 hround
  simp only [Option.bind_eq_bind, Option.bind_eq_some_iff, Option.pure_def, Option.some.injEq,
    Prod.mk.injEq] at hround
  obtain ⟨gen, hgen, n, hn, hmem, hdistance⟩ := hround
  have hrun : RefinementRun forked .standard (some partition) abstractor g :=
    .check .start (.split _ (.split _ .refl)) hcheck
  have hs := StateSet.contains_iff.1 hmem
  exact ⟨partition, abstractor, g, gen, n, hrun, hgen, hn, .inr hdistance, hs,
    infinite_values_sound hrun hgen hn (.inr hdistance) 1 hs⟩

/-! ### Finite values -/

/-- **A goal-directed search may leave a finite distance that is too large.** Of the two ways from
node 1, the longer one is settled first: when it is, the distance of node 4 is not known yet, because
another node below it has no distance. -/
theorem goalDirected_distance_too_large :
    ∃ partition abstractor g gen,
      RefinementRun detour ⟨.semiOnDemand, .fullExploration, by decide, by decide⟩ (some partition)
        abstractor g ∧ abstractor.history.length = 2 ∧ abstractor.history.get? 0 = some gen ∧
      gen.distance 1 = .ok (.finite 4) ∧ gen.graph.ReachesTarget 1 3 := by
  let config : Config := ⟨.semiOnDemand, .fullExploration, by decide, by decide⟩
  let partition := (Partition.initial detour).splitAll ((List.range 10).map fun s => [s])
  have hround : (check { analysis := detour.blockAnalysis, config } 30 {} partition).map
      (fun round => do
        let gen ← round.2.1.history.get? 0
        let a ← gen.graph.get? 3
        let b ← gen.graph.get? 6
        let c ← gen.graph.get? 5
        return ([a.parent, b.parent, b.covering, c.parent], decide (round.2.1.history.length = 2 ∧
          gen.distance 1 = .ok (.finite 4) ∧ c.isTarget = true))) =
      .ok (some ([some 1, some 3, some 2, some 2], true)) := by
    decide +kernel
  obtain ⟨⟨_, abstractor, g⟩, hcheck, hround⟩ := map_eq_ok.1 hround
  simp only [Option.bind_eq_bind, Option.bind_eq_some_iff, Option.pure_def, Option.some.injEq,
    Prod.mk.injEq, List.cons.injEq, decide_eq_true_eq] at hround
  obtain ⟨gen, hgen, a, ha, b, hb, c, hc, ⟨habove, hbetween, hcovering, hbelow, -⟩, hlength,
    hdistance, htarget⟩ := hround
  have hpath : gen.graph.Path 1 5 (1 + (1 + (0 + (1 + 0)))) :=
    .step (.tree ha habove) (.step (.tree hb hbetween) (.step (.covering hb hcovering)
      (.step (.tree hc hbelow) (.refl 5))))
  exact ⟨partition, abstractor, g, gen, .check .start (.splitAll .refl _) hcheck, hlength, hgen,
    hdistance, 5, c, hpath, hc, htarget⟩

/-- **A goal-directed search may leave inconsistent heuristics**, when it takes over such a distance:
that of node 1 is more than one above that of node 3 below it. -/
theorem goalDirected_heuristic_inconsistent :
    ∃ partition abstractor g gen,
      RefinementRun detour ⟨.decreasing, .fullExploration, by decide, by decide⟩ (some partition)
        abstractor g ∧ (abstractor.generations g).live? = some gen ∧ gen.graph.Edge 1 3 1 ∧
      gen.heuristic 1 = .ok (.finite 4) ∧ gen.heuristic 3 = .ok (.finite 2) := by
  let config : Config := ⟨.decreasing, .fullExploration, by decide, by decide⟩
  let partition := (Partition.initial detour).splitAll ((List.range 10).map fun s => [s])
  have hround : (check { analysis := detour.blockAnalysis, config } 30 {} partition).map
      (fun round => do
        let gen ← (round.2.1.generations round.2.2).live?
        let a ← gen.graph.get? 3
        return (a.parent, gen.heuristic 1, gen.heuristic 3)) =
      .ok (some (some 1, .ok (.finite 4), .ok (.finite 2))) := by
    decide +kernel
  obtain ⟨⟨_, abstractor, g⟩, hcheck, hround⟩ := map_eq_ok.1 hround
  simp only [Option.bind_eq_bind, Option.bind_eq_some_iff, Option.pure_def, Option.some.injEq,
    Prod.mk.injEq] at hround
  obtain ⟨gen, hgen, a, ha, hparent, hupper, hlower⟩ := hround
  exact ⟨partition, abstractor, g, gen, .check .start (.splitAll .refl _) hcheck, hgen,
    .tree ha hparent, hupper, hlower⟩

/-- **A goal-directed search may leave a distance open that follows.** The walk up the longer way breaks
off at node 1, which has a shorter one over node 3, and nothing is derived for it afterwards. -/
theorem goalDirected_distance_left_open :
    ∃ partition abstractor g gen n,
      RefinementRun shortcut ⟨.semiOnDemand, .fullExploration, by decide, by decide⟩ (some partition)
        abstractor g ∧ abstractor.solved? = some gen ∧ gen.graph.get? 1 = some n ∧
      n.isTarget = false ∧ gen.distance 1 = .ok .unknown ∧ n.covering = none ∧ n.isExpanded = true ∧
      n.succs = [3, 4] ∧ gen.distance 3 = .ok (.finite 1) ∧ gen.distance 4 = .ok (.finite 5) := by
  let config : Config := ⟨.semiOnDemand, .fullExploration, by decide, by decide⟩
  let partition := (Partition.initial shortcut).splitAll ((List.range 8).map fun s => [s])
  have hround : (check { analysis := shortcut.blockAnalysis, config } 30 {} partition).map
      (fun round => do
        let gen ← round.2.1.solved?
        let n ← gen.graph.get? 1
        return decide (n.isTarget = false ∧ gen.distance 1 = .ok .unknown ∧ n.covering = none ∧
          n.isExpanded = true ∧ n.succs = [3, 4] ∧ gen.distance 3 = .ok (.finite 1) ∧
          gen.distance 4 = .ok (.finite 5))) = .ok (some true) := by
    decide +kernel
  obtain ⟨⟨_, abstractor, g⟩, hcheck, hround⟩ := map_eq_ok.1 hround
  simp only [Option.bind_eq_bind, Option.bind_eq_some_iff, Option.pure_def, Option.some.injEq,
    decide_eq_true_eq] at hround
  obtain ⟨gen, hgen, n, hn, hnode⟩ := hround
  exact ⟨partition, abstractor, g, gen, n, .check .start (.splitAll .refl _) hcheck, hgen, hn, hnode⟩

end Abstractor

end GuidedReach
