import GuidedReach.Proofs.Abstractor.Refinement
import GuidedReach.Proofs.Generation.Exact

/-!
# Distances after exhaustive checks

An exhaustive check leaves exact distances behind: a known one is the length of a shortest path in the
graph that was explored. All of them are known, unless an init node is a target; then the check ends
right away.

* `Exploration.refutedBound` — what is known about distances before they are computed.
* `Exploration.Concluding` — what solving a generation exhaustively leaves behind.
* `Abstractor.full_search_distances_exact` — **after every exhaustive check, known distances are exact**.
* `Abstractor.full_search_knows_distances` — all distances are known if no init node is a target.
* `Abstractor.full_search_leaves_unknown` — otherwise some may be left unknown.
-/

namespace GuidedReach

variable {S P K : Type}

/-- One of two init states is a target. -/
def TransitionSystem.halfUnsafe : TransitionSystem where
  states := 2
  init := .ofList [0, 1]
  edges := []
  targets := .ofList [1]
  succs := adjacency 2 []
  states_pos := by decide
  states_le := by decide
  init_lt := by decide
  targets_lt := by decide
  edges_lt := by decide
  succs_eq := rfl

/-! ## Solving a generation exhaustively -/

namespace Exploration

variable {allowed : P → Prop} {dead : S → Prop} {index : Nat}
variable {gen gen' : Generation S P K} {p q : Progress S P K}

open Classical in
/-- A refuted node is infinitely far away; about other nodes nothing is known. -/
noncomputable def refutedBound (search : SearchType) (history : History S P K)
    (gen : Generation S P K) (id : NodeId) : Distance :=
  if Refuted search history gen id then .infinite else .zero

theorem refutedBound_eq_infinite {search : SearchType} {history : History S P K} {id : NodeId} :
    refutedBound search history gen id = .infinite ↔ Refuted search history gen id := by
  unfold refutedBound
  split
  · simp [*]
  · simp [*, Distance.zero]

/-- In a closed generation that bound drops along no edge. -/
theorem bounds_refutedBound {setup : Setup S P K} (hrefutes : setup.analysis.Refutes allowed dead)
    (hp : p.history.Sound setup.analysis allowed dead) (hgen : p.history.get? index = some gen)
    (hclosed : Closed setup.search p.history gen) :
    gen.graph.Bounds (refutedBound setup.search p.history gen) where
  wellFormed := (hp.faithful index gen hgen).1.wellFormed
  drops {i j w} hedge := by
    by_cases hi : Refuted setup.search p.history gen i
    · -- what is below a refuted node is refuted
      have hj : Refuted setup.search p.history gen j := by
        cases hedge with
        | tree hn hparent => exact hclosed.child hn hparent hi
        | covering hn hcovering => exact hclosed.coverer hn hcovering hi
      rw [refutedBound_eq_infinite.2 hj]
      refine .infinite ?_
      rw [refutedBound_eq_infinite.2 hi]
      rfl
    · unfold refutedBound
      rw [if_neg hi]
      refine .zero ?_
      split <;> rfl
  target hn htarget := if_neg (not_refuted_of_isTarget hrefutes hp hgen hn htarget)

/-- What solving a generation exhaustively leaves behind: all distances, or only those of targets,
some of which are init nodes. -/
def Concluding (gen : Generation S P K) : Prop :=
  gen.Measured ∨ (∃ i n, i ∈ gen.graph.initNodes ∧ gen.graph.get? i = some n ∧ n.isTarget = true) ∧
    ∀ i d, gen.distance i = .ok d → d.isKnown = true →
      d = .zero ∧ ∃ n, gen.graph.get? i = some n ∧ n.isTarget = true

/-- Only graph and distances matter. -/
theorem Concluding.congr (h : Concluding gen) (hgraph : gen'.graph = gen.graph)
    (hdistance : ∀ i, gen'.distance i = gen.distance i) : Concluding gen' := by
  rcases h with hmeasured | hshortcut
  · exact .inl (hmeasured.congr hgraph hdistance)
  · refine .inr ?_
    simp only [hgraph, hdistance]
    exact hshortcut

theorem Concluding.exact (h : Concluding gen) (hwf : gen.graph.WellFormed) : gen.Exact := by
  rcases h with hmeasured | ⟨-, htargets⟩
  · exact hmeasured.exact hwf
  · intro id d hd hknown
    obtain ⟨rfl, n, hn, htarget⟩ := htargets id d hd hknown
    exact .of_isTarget hn htarget

section

variable [DecidableEq S] [DecidableEq K] {setup : Setup S P K} {older : Older S P K}
variable (hlaws : setup.analysis.Lawful) (hrefutes : setup.analysis.Refutes allowed dead)
variable (hp : SoundAt setup.analysis setup.search allowed dead index p.history)
variable (hgen : p.history.get? index = some gen)
variable (hunknown : ∀ i d, gen.distance i = .ok d → d = .unknown)
variable (hfull : setup.search = .full)

include hlaws hrefutes hp hgen hunknown hfull

/-- An exhaustive search ends in one of two ways: an init node was a target, and then only targets got
distances; or all distances were spread over what the search left behind. -/
theorem solve_settled (holder : older.Lawful setup allowed index)
    (hinitialized : gen.graph.isInitialized = true) {stop : StopCriterion}
    (h : (solve setup older index gen.graph.initNodes stop).run p = .ok ((), q)) :
    ∃ mid gen₁ gen', Upto setup index p mid ∧ mid.history.get? index = some gen₁ ∧
      q.history.get? index = some gen' ∧ gen₁.DistanceWrites gen' ∧
      (∀ i ≠ index, q.history.get? i = mid.history.get? i) ∧
      (((∃ i n, i ∈ gen'.graph.initNodes ∧ gen'.graph.get? i = some n ∧ n.isTarget = true) ∧
        ∀ i d, gen'.distance i = .ok d → d.isKnown = true →
          d = .zero ∧ ∃ n, gen'.graph.get? i = some n ∧ n.isTarget = true) ∨
        gen'.Measured ∧ (stop = .fullExploration → Exhausted gen₁.graph.initNodes gen₁)) := by
  have hnone : ∀ {i d}, gen.distance i = .ok d → d.isKnown = true → False := by
    intro i d hd hknown
    rw [hunknown i d hd] at hknown
    cases hknown
  have hinit : ∀ {mid : Progress S P K} {gen₁ : Generation S P K}, Upto setup index p mid →
      mid.history.get? index = some gen₁ → gen₁.graph.initNodes = gen.graph.initNodes := by
    intro mid gen₁ hupto hgen₁
    obtain ⟨gen₂, hgen₂, hkept⟩ := (hupto.keeps hlaws hp.sound.faithful).2 index gen hgen
    obtain rfl := Option.some.inj (hgen₁.symm.trans hgen₂)
    exact (hkept.grows.isInitialized hinitialized).2
  obtain ⟨⟨gen', hgen', -⟩, hchanges⟩ := solve_ok hlaws hp.sound.faithful hgen holder h
  rcases hchanges with ⟨hupto, hshortcut⟩ |
    ⟨-, mid, gen₁, run, gen'', hupto, hgen₁, hfinite, hexhausted, hsettle, rfl⟩
  · -- no search was needed
    obtain ⟨honly, i, hi, m, hm⟩ := hshortcut hfull gen' hgen'
    have htargets : ∀ i d, gen'.distance i = .ok d → d.isKnown = true →
        d = .zero ∧ ∃ n, gen'.graph.get? i = some n ∧ n.isTarget = true := by
      intro i d hd hknown
      rcases honly i d hd hknown with hold | htarget
      · exact (hnone hold hknown).elim
      · exact htarget
    obtain ⟨-, n, hn, htarget⟩ := htargets i _ hm rfl
    exact ⟨q, gen', gen', hupto, hgen', hgen', .refl _, fun _ _ => rfl,
      .inl ⟨⟨i, n, hinit hupto hgen' ▸ hi, hn, htarget⟩, htargets⟩⟩
  · -- the search was settled
    have hmid := hupto.soundAt hlaws hrefutes hp
    have hclosed := hmid.closed (by simp [hfull]) gen₁ hgen₁
    rw [Progress.get?_put_self hgen₁] at hgen'
    obtain rfl := Option.some.inj hgen'
    have hmeasured := Generation.settleExhaustive_measured
      (bounds_refutedBound hrefutes hmid.sound hgen₁ hclosed) (fun {i d} hd => by
        cases d with
        | unknown => exact .inl rfl
        | finite m => exact (hnone (hfinite i m hd) rfl).elim
        | infinite => exact .inr ⟨rfl, refutedBound_eq_infinite.2 (.inl (.inr hd))⟩) hsettle
    exact ⟨mid, gen₁, _, hupto, hgen₁, Progress.get?_put_self hgen₁,
      Generation.settleExhaustive_writes hsettle, fun i hi => Progress.get?_put_of_ne hi,
      .inr ⟨hmeasured, hinit hupto hgen₁ ▸ hexhausted⟩⟩

theorem solve_concluding (holder : older.Lawful setup allowed index)
    (hinitialized : gen.graph.isInitialized = true) {stop : StopCriterion}
    (h : (solve setup older index gen.graph.initNodes stop).run p = .ok ((), q)) :
    ∃ gen', q.history.get? index = some gen' ∧ Concluding gen' := by
  obtain ⟨_, _, gen', -, -, hgen', -, -, hends⟩ :=
    solve_settled hlaws hrefutes hp hgen hunknown hfull holder hinitialized h
  exact ⟨gen', hgen', hends.symm.imp_left And.left⟩

/-- **Solving the live generation exhaustively** leaves nothing but true distances. -/
theorem solveLive_concluding {stop : StopCriterion}
    (h : (solveLive setup index [] stop).run p = .ok ((), q)) :
    ∃ gen', q.history.get? index = some gen' ∧ Concluding gen' := by
  obtain ⟨mid, hinitialize, gen₁, hgen₁, hsolve⟩ := solveLive_ok h
  obtain ⟨hquiet, gen₁', hgen₁', hinitialized⟩ :=
    ensureInitialized_ok hlaws hp.sound.faithful hgen hinitialize
  obtain rfl := Option.some.inj (hgen₁.symm.trans hgen₁')
  have hunknown₁ : ∀ i d, gen₁.distance i = .ok d → d = .unknown :=
    hquiet.unknown hgen hgen₁ hunknown
  exact solve_concluding hlaws hrefutes (hquiet.soundAt hlaws hrefutes hp) hgen₁ hunknown₁ hfull
    (below_lawful hlaws index) hinitialized hsolve

end

end Exploration

namespace Abstractor

variable {allowed : P → Prop} {dead : S → Prop}

/-- An exhaustive check leaves nothing but true distances behind. -/
theorem Ready.concluding [DecidableEq S] [DecidableEq K] {abstractor abstractor' : Abstractor S P K}
    {g g' : Graph S} {prec : P} {fuel : Nat} {verdict : Verdict}
    (h : Ready allowed dead abstractor g) (hprec : allowed prec)
    (hlaws : abstractor.analysis.Lawful) (hrefutes : abstractor.analysis.Refutes allowed dead)
    (hfull : abstractor.config.search = .full)
    (hcheck : abstractor.check fuel g prec = .ok (verdict, abstractor', g')) :
    ∃ gen, abstractor'.solved? = some gen ∧ gen.graph.WellFormed ∧ Exploration.Concluding gen := by
  obtain ⟨index, fresh, begun, solved, frozen, resumed, last, live, hcourse, -, -, -, -, hhistory,
    rfl⟩ := check_ok hcheck
  obtain ⟨rfl, -, first, hfirst, -, -, hsound, hunknown⟩ := h.begins hprec hcourse
  obtain ⟨hsolved, -⟩ := h.solves hprec hcourse hlaws hrefutes
  obtain ⟨last', hlast, hconcluding⟩ := Exploration.solveLive_concluding hlaws hrefutes hsound hfirst
    hunknown hfull hcourse.solve
  obtain rfl := Option.some.inj (hcourse.last.symm.trans hlast)
  obtain ⟨gen, hgen, hgraph, hdistance⟩ := h.leaves hprec hcourse hlaws hrefutes hhistory
  exact ⟨gen, hgen, hgraph ▸ (hsolved.sound.faithful _ _ hlast).1.wellFormed,
    hconcluding.congr hgraph hdistance⟩

/-! ## Refinement runs -/

open TransitionSystem (forked halfUnsafe)

variable {system : TransitionSystem} {config : Config} {partition : Partition}
variable {last : Option Partition} {abstractor : Abstractor StateSet Partition Unit}
variable {g : Graph StateSet}

/-- In an exhaustive run the last check left nothing but true distances; pruning changes nothing about
that. -/
theorem RefinementRun.concluding (h : RefinementRun system config last abstractor g)
    (hfull : config.search = .full) (hchecked : last.isSome = true) :
    ∃ gen, abstractor.solved? = some gen ∧ gen.graph.WellFormed ∧ Exploration.Concluding gen := by
  induction h with
  | start => cases hchecked
  | prune _ _ ih => exact ih hchecked
  | pruneAll _ _ ih => exact ih hchecked
  | check hrun hfollows hcheck _ =>
    obtain ⟨hready, hanalysis, hconfig, hvalid⟩ := Ready.of_refinementRun hrun
    exact hready.concluding (hfollows.valid hvalid) (hanalysis ▸ system.blockAnalysis_lawful)
      (hanalysis ▸ system.blockAnalysis_refutes) (hconfig ▸ hfull) hcheck

/-- **After every exhaustive check, known distances are exact**: each is the length of a shortest path
in the graph that was explored, and infinite exactly when there is none. -/
theorem full_search_distances_exact
    (h : RefinementRun system config (some partition) abstractor g)
    (hfull : config.search = .full) :
    ∃ gen, abstractor.solved? = some gen ∧ ∀ {i d}, gen.distance i = .ok d → d.isKnown = true →
      gen.graph.IsDistance i d := by
  obtain ⟨gen, hgen, hwf, hconcluding⟩ := RefinementRun.concluding h hfull rfl
  exact ⟨gen, hgen, hconcluding.exact hwf⟩

/-- With each state in its own block, the target is two edges away from the init state, and cannot be
reached from state 1. -/
theorem full_search_distances_exact_forked :
    ∃ partition abstractor g gen,
      RefinementRun forked ⟨.full, .fullExploration, by decide, by decide⟩ (some partition)
        abstractor g ∧ abstractor.solved? = some gen ∧
      gen.graph.IsDistance 0 (.finite 2) ∧ gen.graph.IsDistance 1 .infinite := by
  let config : Config := ⟨.full, .fullExploration, by decide, by decide⟩
  let partition := ((Partition.initial forked).split (.ofList [0])).split (.ofList [1])
  have hround : (check { analysis := forked.blockAnalysis, config } 9 {} partition).map
      (fun round => do
        let gen ← round.2.1.solved?
        return (gen.distance 0, gen.distance 1)) = .ok (some (.ok (.finite 2), .ok .infinite)) := by
    decide +kernel
  obtain ⟨⟨_, abstractor, g⟩, hcheck, hround⟩ := map_eq_ok.1 hround
  simp only [Option.bind_eq_bind, Option.bind_eq_some_iff, Option.pure_def, Option.some.injEq,
    Prod.mk.injEq] at hround
  obtain ⟨gen, hgen, hzero, hone⟩ := hround
  have hrun : RefinementRun forked config (some partition) abstractor g :=
    .check .start (.split _ (.split _ .refl)) hcheck
  obtain ⟨gen', hgen', hexact⟩ := full_search_distances_exact hrun rfl
  obtain rfl := Option.some.inj (hgen.symm.trans hgen')
  exact ⟨partition, abstractor, g, gen, hrun, hgen, hexact hzero rfl, hexact hone rfl⟩

/-- **All distances are known** if no init node is a target. -/
theorem full_search_knows_distances
    (h : RefinementRun system config (some partition) abstractor g)
    (hfull : config.search = .full) :
    ∃ gen, abstractor.solved? = some gen ∧
      ((∀ i n, i ∈ gen.graph.initNodes → gen.graph.get? i = some n → n.isTarget = false) →
        ∀ {i n}, gen.graph.get? i = some n → ∃ d, gen.distance i = .ok d ∧ d.isKnown = true) := by
  obtain ⟨gen, hgen, -, hconcluding⟩ := RefinementRun.concluding h hfull rfl
  refine ⟨gen, hgen, fun hnone {i n} hn => ?_⟩
  rcases hconcluding with hmeasured | ⟨⟨j, m, hj, hm, htarget⟩, -⟩
  · exact hmeasured.known hn
  · rw [hnone j m hj hm] at htarget
    cases htarget

/-- **A check that starts at a target leaves other distances unknown**: once the distance of one init
node is found, it ends. -/
theorem full_search_leaves_unknown :
    ∃ partition abstractor g gen n,
      RefinementRun halfUnsafe ⟨.full, .fullExploration, by decide, by decide⟩ (some partition)
        abstractor g ∧ abstractor.solved? = some gen ∧ gen.graph.get? 0 = some n ∧
      gen.distance 0 = .ok .unknown := by
  let config : Config := ⟨.full, .fullExploration, by decide, by decide⟩
  let partition := Partition.initial halfUnsafe
  have hround : (check { analysis := halfUnsafe.blockAnalysis, config } 9 {} partition).map
      (fun round => do
        let gen ← round.2.1.solved?
        let n ← gen.graph.get? 0
        return (n.isTarget, gen.distance 0)) = .ok (some (false, .ok .unknown)) := by
    decide +kernel
  obtain ⟨⟨_, abstractor, g⟩, hcheck, hround⟩ := map_eq_ok.1 hround
  simp only [Option.bind_eq_bind, Option.bind_eq_some_iff, Option.pure_def, Option.some.injEq,
    Prod.mk.injEq] at hround
  obtain ⟨gen, hgen, n, hn, -, hunknown⟩ := hround
  exact ⟨partition, abstractor, g, gen, n, .check .start .refl hcheck, hgen, hn, hunknown⟩

end Abstractor

end GuidedReach
