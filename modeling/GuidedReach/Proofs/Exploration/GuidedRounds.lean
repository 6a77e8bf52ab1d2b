import GuidedReach.Proofs.Exploration.GuidedSearch
import GuidedReach.Proofs.Exploration.Blank
import GuidedReach.Proofs.Exploration.Rounds

/-!
# Solving a guided generation

An exhaustive search that takes its heuristics from the one before it ends in exact distances again,
and what may reach a target was explored. So the next generation can take its heuristics from there.

* `Generation.Guided.charted` — what is left of a search after its settling.
* `Exploration.Solves` — what solving a generation leaves behind.
* `Exploration.Hosts.search`, `Exploration.Hosts.solve` — solving meets no fault.
* `Exploration.Hosts.solveLive` — nor does completing and solving the live generation.
-/

namespace GuidedReach

variable {S P K : Type}

/-! ## Settling -/

namespace Generation.Guided

variable [DecidableEq K] {analysis : Analysis S P K} {allowed : P → Prop} {far steps : Nat}
variable {guide : Option (Generation S P K)} {gen gen' : Generation S P K} {run : SearchRun}
variable (h : gen.Guided analysis allowed guide [])
variable (hguide : ∀ charted, guide = some charted → charted.Charted analysis allowed far)
variable (hlaws : analysis.Lawful)

include h hguide

omit hguide in
/-- What is taken over is infinite wherever the search does not need to go. -/
theorem inherited_of_hopeless {id : NodeId} (hid : gen.Hopeless id) :
    gen.inherited guide id = .infinite := by
  rcases hid with hheuristic | hdistance
  · exact (h.heuristic_eq hheuristic rfl).symm
  · obtain ⟨k, hk, hinfinite⟩ := distance_eq_ok.1 hdistance
    rcases h.distance hk with hunknown | ⟨-, heq⟩
    · rw [hunknown] at hinfinite
      cases hinfinite
    · exact heq

include hlaws

/-- What is taken over bounds the distances to come. -/
theorem bounded : gen.Bounded (gen.inherited guide) where
  wellFormed := h.faithful.wellFormed
  registered hn := h.registered hn List.not_mem_nil
  heuristic := by
    intro i k hk hknown
    have heq := h.heuristic_eq (heuristic_eq_ok.2 ⟨k, hk, rfl⟩) hknown
    rw [← heq]
    exact .refl hknown 0
  drops hedge := h.drops hedge List.not_mem_nil List.not_mem_nil
  target := by
    intro i n hn htarget
    obtain ⟨k, hk⟩ := h.registered hn List.not_mem_nil
    exact h.inherited_target hguide hlaws hn hk htarget

/-- **A finished search can be settled.** -/
theorem exists_settleExhaustive
    (hreached : ∀ i ∈ run.reached, ∃ n, gen.graph.get? i = some n ∧ n.isTarget = true) :
    ∃ gen', gen.settleExhaustive run = .ok gen' ∧ gen'.Measured ∧
      ∀ {i d}, gen'.distance i = .ok (.finite d) → ∃ v, gen.inherited guide i = .finite v := by
  obtain ⟨gen', hsettle, hmeasured, hbounded⟩ :=
    Generation.exists_settleExhaustive run (h.bounded hguide hlaws) (fun {i d} hd => by
      obtain ⟨k, hk, rfl⟩ := distance_eq_ok.1 hd
      exact h.distance hk) hreached
  refine ⟨gen', hsettle, hmeasured, fun {i d} hd => ?_⟩
  obtain ⟨v, hv, -⟩ := (hbounded hd).exists_finite
  exact ⟨v, hv⟩

/-- After its settling, values fit their nodes. -/
theorem checkFits (hwrites : DistanceWrites gen gen') (hmeasured : gen'.Measured) {id : NodeId}
    {n : Node S} {k : SearchNode} (hn : gen'.graph.get? id = some n)
    (hk : gen'.searchNodes.get? id = some k) : k.checkFits n.isTarget = .ok () := by
  rcases hwrites.searchNode id with ⟨-, hnone⟩ | ⟨k₀, d, hk₀, hk', hd⟩
  · rw [hnone] at hk
    cases hk
  rw [hk'] at hk
  cases hk
  refine SearchNode.exists_checkFits (fun htarget hknown => ?_) (fun htarget _ => ?_) ?_
  · rw [h.heuristic_eq (heuristic_eq_ok.2 ⟨k₀, hk₀, rfl⟩) hknown]
    exact h.inherited_target hguide hlaws (hwrites.graph ▸ hn) hk₀ htarget
  · obtain ⟨k', hk'', hzero⟩ := distance_eq_ok.1 (hmeasured.target hn htarget)
    rw [hk'] at hk''
    cases hk''
    exact hzero
  · rcases hd with rfl | ⟨-, hadmissible⟩
    · -- a distance that was there before is infinite
      intro hheuristic hdistance
      rcases h.distance hk₀ with hunknown | ⟨hinfinite, -⟩
      · rw [hunknown] at hdistance
        cases hdistance
      · rw [hinfinite]
        exact (Distance.drops_zero_iff hheuristic rfl).1 (.infinite hheuristic)
    · exact hadmissible

omit hguide hlaws in
/-- **A search leaves all distances behind**, if it went wherever a target may be reached. -/
theorem charted (hwrites : DistanceWrites gen gen') (hmeasured : gen'.Measured)
    (hfinite : ∀ {i d}, gen'.distance i = .ok (.finite d) → ∃ v, gen.inherited guide i = .finite v)
    (hinitialized : gen.graph.isInitialized = true)
    (hroot : ∀ {i n}, gen.graph.get? i = some n → n.parent = none → n.isTarget = false)
    {finished : List NodeId} (hsteps : finished.length ≤ steps)
    (hstart : ∀ i ∈ gen.graph.initNodes, i ∈ finished ∨ gen.Hopeless i)
    (hhandled : ∀ i ∈ finished, gen.graph.Handled (fun c => c ∈ finished ∨ gen.Hopeless c) i) :
    gen'.Charted analysis allowed steps := by
  have hvisited : ∀ {i d}, gen'.distance i = .ok (.finite d) → i ∈ finished := by
    intro i d hd
    obtain ⟨v, hv⟩ := hfinite hd
    obtain ⟨n, hn⟩ : ∃ n, gen.graph.get? i = some n := by
      obtain ⟨k, hk, -⟩ := distance_eq_ok.1 hd
      rcases hwrites.searchNode i with ⟨-, hnone⟩ | ⟨k₀, -, hk₀, -⟩
      · rw [hnone] at hk
        cases hk
      · exact (h.held hk₀).2
    have hor := h.faithful.visited_or (· ∈ finished)
      (fun i => gen.inherited guide i = .infinite)
      (fun i hi => (hstart i hi).imp_right h.inherited_of_hopeless)
      (fun i hi => (hhandled i hi).mono fun c hc => hc.imp_right h.inherited_of_hopeless)
      (fun hn hparent hinfinite => ?_) hn
    · exact hor.resolve_right (by simp [hv])
    · have hdrops := h.drops (.tree hn hparent) List.not_mem_nil List.not_mem_nil
      rw [hinfinite] at hdrops
      exact hdrops.eq_infinite
  have hfaithful : gen'.graph.Faithful analysis allowed := hwrites.graph ▸ h.faithful
  constructor
  · exact hfaithful
  · exact hwrites.graph ▸ hinitialized
  · exact hmeasured
  · rw [hwrites.graph]
    exact hroot
  · intro i d hd
    exact (Nat.le_of_lt (hmeasured.lt_length hfaithful.wellFormed hvisited hd)).trans hsteps
  · intro i d hd
    rw [hwrites.graph]
    exact (hhandled i (hvisited hd)).mono fun _ _ => trivial

end Generation.Guided

/-! ## Searching -/

/-- The graph agrees with the analysis, all its states can be expanded, and nodes without a parent
have init states. -/
structure Graph.Grounded (analysis : Analysis S P K) (allowed : P → Prop) (g : Graph S) : Prop where
  faithful : g.Faithful analysis allowed
  inDomain : ∀ {i n}, g.get? i = some n → analysis.inDomain n.state = true
  rooted : ∀ {i n}, g.get? i = some n → n.parent = none →
    ∃ prec, allowed prec ∧ n.state ∈ analysis.initStates prec

/-- An init node is a target that nothing covers. -/
def Graph.HasInitTarget (g : Graph S) : Prop :=
  ∃ i n, g.get? i = some n ∧ n.parent = none ∧ n.covering = none ∧ n.isTarget = true

namespace Exploration

open Explore

/-- What solving a generation leaves behind: values that fit its graph, and either all distances or a
target among the init nodes. -/
structure Concluded (setup : Setup S P K) (allowed : P → Prop) (index : Nat) (p : Progress S P K)
    (gen : Generation S P K) : Prop where
  held : p.history.get? index = some gen
  length : p.history.length = index + 1
  faithful : p.history.Faithful setup.analysis allowed
  grounded : gen.graph.Grounded setup.analysis allowed
  registered : ∀ {i n}, gen.graph.get? i = some n → ∃ k, gen.searchNodes.get? i = some k
  fits : ∀ {i k}, gen.searchNodes.get? i = some k → ∃ n, gen.graph.get? i = some n ∧
    k.checkFits n.isTarget = .ok ()
  outcome : gen.Charted setup.analysis allowed setup.fuel ∨ gen.graph.HasInitTarget

variable [DecidableEq S] [DecidableEq K]
variable {setup : Setup S P K} {older : Older S P K} {index : Nat} {allowed : P → Prop} {far : Nat}
variable {guide : Option (Generation S P K)} {p q : Progress S P K} {gen gen' : Generation S P K}
variable {run : SearchRun} {id : NodeId} {n : Node S} {k : SearchNode}

section

variable {start : List NodeId}

omit [DecidableEq S] [DecidableEq K] in
/-- Once the distances of some nodes are known, one is finite or all are infinite. -/
theorem decided_of_known (hstart : ∀ i ∈ start, ∃ d, gen.distance i = .ok d ∧ d.isKnown = true) :
    (∃ i ∈ start, ∃ d, gen.distance i = .ok (.finite d)) ∨
      ∀ i ∈ start, gen.distance i = .ok .infinite := by
  refine or_iff_not_imp_left.2 fun hnone i hi => ?_
  obtain ⟨d, hd, hknown⟩ := hstart i hi
  cases d with
  | unknown => cases hknown
  | finite v => exact absurd ⟨i, hi, v, hd⟩ hnone
  | infinite => exact hd

omit [DecidableEq S] [DecidableEq K] in
/-- The final check of a search can be passed. -/
theorem exists_decided (hstart : ∀ i ∈ start, ∃ d, gen.distance i = .ok d)
    (hdecided : (∃ i ∈ start, ∃ d, gen.distance i = .ok (.finite d)) ∨
      ∀ i ∈ start, gen.distance i = .ok .infinite) :
    ∃ decided refuted, (decided || refuted) = true ∧
      (start.anyM fun id => do return (← gen.distance id).isFinite : Explore S P K Bool).run p =
        .ok (decided, p) ∧
      (start.allM fun id => do return (← gen.distance id).isInfinite : Explore S P K Bool).run p =
        .ok (refuted, p) := by
  let value (i : NodeId) : Distance := (gen.searchNodes.get? i).elim .unknown (·.distance)
  have hvalue : ∀ i ∈ start, ∀ d, gen.distance i = .ok d → value i = d := by
    intro i hi d hd
    obtain ⟨k, hk, rfl⟩ := Generation.distance_eq_ok.1 hd
    simp [value, hk]
  have hread : ∀ i ∈ start, gen.distance i = .ok (value i) := by
    intro i hi
    obtain ⟨d, hd⟩ := hstart i hi
    rw [hd, hvalue i hi d hd]
  refine ⟨start.any fun i => (value i).isFinite, start.all fun i => (value i).isInfinite, ?_,
    run_anyM_of_forall fun i hi => run_distance_ok.2 ⟨_, hread i hi, rfl, rfl⟩,
    run_allM_of_forall fun i hi => run_distance_ok.2 ⟨_, hread i hi, rfl, rfl⟩⟩
  rw [Bool.or_eq_true, List.any_eq_true, List.all_eq_true]
  rcases hdecided with ⟨i, hi, d, hd⟩ | hall
  · exact .inl ⟨i, hi, by rw [hvalue i hi _ hd]; rfl⟩
  · exact .inr fun i hi => by rw [hvalue i hi _ (hall i hi)]; rfl

end

omit [DecidableEq S] [DecidableEq K] in
/-- What is left when an init node is a target. -/
theorem HoldsBlank.concluded {g : Graph S} (h : HoldsBlank setup.analysis allowed index g p gen)
    (hg : g.Grounded setup.analysis allowed) (htarget : g.HasInitTarget) : Concluded setup allowed index p gen where
  held := h.held
  length := h.length
  faithful := h.faithful
  grounded := h.graph ▸ hg
  registered := h.graph ▸ h.registered
  fits := by
    intro i k hk
    obtain ⟨n, hn⟩ := h.inGraph hk
    exact ⟨n, h.graph ▸ hn, (h.blank.searchNode hk).checkFits n.isTarget⟩
  outcome := .inr (h.graph ▸ htarget)

namespace Hosts

variable (h : Hosts setup allowed index guide [] p gen)
variable (hguide : ∀ charted, guide = some charted → charted.Charted setup.analysis allowed far)
variable (hlaws : setup.analysis.Lawful)

include h hguide hlaws

omit [DecidableEq S] in
/-- The heuristics of start nodes can be made known. -/
theorem forM_ensureHeuristic {ids : List NodeId}
    (hids : ∀ i ∈ ids, ∃ n, gen.graph.get? i = some n) :
    (ids.forM fun id => do let _ ← Exploration.ensureHeuristic setup older index id).Ensures p fun _ q =>
      ∃ gen', Hosts setup allowed index guide [] q gen' ∧ gen'.graph = gen.graph ∧
        gen.Keeps gen' ∧ ∀ i ∈ ids, SearchRun.Judged gen' i := by
  refine (ensures_forM (motive := fun rest q => ∃ gen', Hosts setup allowed index guide [] q gen' ∧
    gen'.graph = gen.graph ∧ gen.Keeps gen' ∧ (∀ i ∈ rest, i ∈ ids) ∧
    ∀ i ∈ ids, i ∈ rest ∨ SearchRun.Judged gen' i) ?_
    ⟨gen, h, rfl, .refl gen, fun _ hi => hi, fun _ hi => .inl hi⟩).mono ?_
  · rintro id rest q ⟨mid, hmid, hgraph, hkeeps, hrest, hall⟩
    obtain ⟨n, hn⟩ := hids id (hrest id List.mem_cons_self)
    rw [← hgraph] at hn
    obtain ⟨k, hk⟩ := hmid.guided.registered hn List.not_mem_nil
    simp only [ensures_bind]
    refine (hmid.ensureHeuristic hguide hk hlaws).mono ?_
    rintro d q' - ⟨-, gen', h', hgraph', hkeeps', hd, hknown⟩
    refine ensures_pure.2 ⟨gen', h', hgraph'.trans hgraph, hkeeps.trans hkeeps',
      fun i hi => hrest i (List.mem_cons_of_mem id hi), fun i hi => ?_⟩
    rcases hall i hi with hwaits | hjudged
    · rcases List.mem_cons.1 hwaits with rfl | hwaits
      · exact .inr ⟨⟨n, hgraph' ▸ hn⟩, d, hd, hknown⟩
      · exact .inl hwaits
    · exact .inr (hjudged.keeps hkeeps')
  · rintro - q - ⟨gen', h', hgraph, hkeeps, -, hall⟩
    exact ⟨gen', h', hgraph, hkeeps, fun i hi => (hall i hi).resolve_left List.not_mem_nil⟩

omit [DecidableEq S] in
/-- **It can be told which start nodes to search from.** -/
theorem searchableStart {start : List NodeId} (hstart : ∀ i ∈ start, SearchRun.Judged gen i) :
    (searchableStart index start).Ensures p fun searched q =>
      ∃ gen', Hosts setup allowed index guide [] q gen' ∧ gen'.graph = gen.graph ∧
        gen.Keeps gen' ∧ ∀ i ∈ searched, i ∈ start := by
  induction start generalizing p gen with
  | nil => exact ensures_pure.2 ⟨gen, h, rfl, .refl gen, fun _ hi => hi⟩
  | cons id rest ih =>
    obtain ⟨-, d, hd, hknown⟩ := hstart id List.mem_cons_self
    obtain ⟨k, hk, -⟩ := Generation.heuristic_eq_ok.1 hd
    have hrest : ∀ i ∈ rest, SearchRun.Judged gen i := fun i hi =>
      hstart i (List.mem_cons_of_mem id hi)
    simp only [Exploration.searchableStart, ensures_bind, ensures_generation, ensures_lift]
    refine ⟨gen, h.held, d, hd, ?_⟩
    split
    · rename_i hinfinite
      rw [Distance.isInfinite_iff] at hinfinite
      obtain ⟨mid, hset, hguided, hgraph, hkeeps⟩ := h.guided.setDistance hguide hlaws hk
        (hinfinite ▸ (h.guided.heuristic_eq hd hknown).symm)
      simp only [ensures_bind, ensures_setDistance]
      refine ⟨gen, h.held, mid, hset, (ih (h.put hguided hkeeps)
        fun i hi => (hrest i hi).keeps hkeeps).mono ?_⟩
      rintro searched q - ⟨gen', h', hgraph', hkeeps', hsub⟩
      exact ⟨gen', h', hgraph'.trans hgraph, hkeeps.trans hkeeps',
        fun i hi => List.mem_cons_of_mem id (hsub i hi)⟩
    · simp only [ensures_bind, ensures_lift]
      refine ⟨k.distance, Generation.distance_eq_ok.2 ⟨k, hk, rfl⟩, ?_⟩
      split
      · refine (ih h hrest).mono ?_
        rintro searched q - ⟨gen', h', hgraph, hkeeps, hsub⟩
        exact ⟨gen', h', hgraph, hkeeps, fun i hi => List.mem_cons_of_mem id (hsub i hi)⟩
      · simp only [ensures_bind]
        refine (ih h hrest).mono ?_
        rintro searched q - ⟨gen', h', hgraph, hkeeps, hsub⟩
        refine ensures_pure.2 ⟨gen', h', hgraph, hkeeps, fun i hi => ?_⟩
        rcases List.mem_cons.1 hi with rfl | hi
        · exact List.mem_cons_self
        · exact List.mem_cons_of_mem id (hsub i hi)

/-- **What a search visits, it handles**, and it passes over hopeless nodes only. -/
theorem visitAll_exhausts (hsearch : setup.search = .full)
    (hfar : setup.fuel + far ≤ Distance.limit) (holder : older.Lawful setup allowed index)
    {start searched : List NodeId} (hjudged : ∀ i ∈ searched, SearchRun.Judged gen i)
    (hstart : ∀ i ∈ start, i ∈ searched ∨ gen.distance i = .ok .infinite) :
    ∃ run₀, (searched.forM fun id => SearchRun.enqueue gen id none 0).run
        { start := searched, stop := .fullExploration } = .ok () run₀ ∧
      (Exploration.visitAll setup older index setup.fuel run₀).Ensures p fun run q =>
        ∃ gen', Hosts setup allowed index guide [] q gen' ∧ gen.Keeps gen' ∧
          (∀ i ∈ run.reached, ∃ n, gen'.graph.get? i = some n ∧ n.isTarget = true) ∧
          run.finished.length ≤ setup.fuel ∧
          (∀ i ∈ start, i ∈ run.finished ∨ gen'.Hopeless i) ∧
          ∀ i ∈ run.finished, gen'.graph.Handled (fun c => c ∈ run.finished ∨ gen'.Hopeless c) i := by
  have henqueued : ∀ i ∈ searched, (∃ n, gen.graph.get? i = some n) ∧
      ∃ k, gen.searchNodes.get? i = some k ∧ k.heuristic.isKnown = true ∧
        k.distance.isFinite = false ∧ ∀ v, k.heuristic = .finite v → v ≤ Distance.limit := by
    intro i hi
    obtain ⟨hn, d, hd, hknown⟩ := hjudged i hi
    obtain ⟨k, hk, rfl⟩ := Generation.heuristic_eq_ok.1 hd
    refine ⟨hn, k, hk, hknown, h.guided.isFinite_distance hk, fun v hv => ?_⟩
    have hle := h.guided.inherited_le hguide hk
      ((h.guided.heuristic_eq hd hknown).symm.trans hv)
    omega
  obtain ⟨run₀, henqueue, hpaced, hfinished⟩ :=
    SearchRun.exists_forM_enqueue (.start searched) henqueued
  obtain ⟨horderly, hextends, hseen⟩ := SearchRun.forM_enqueue_ok
    ⟨by simp, by simp [SearchRun.depth?, NodeMap.get?_empty]⟩ henqueue
  refine ⟨run₀, henqueue, ?_⟩
  have hfuel : run₀.finished.length + setup.fuel ≤ setup.fuel := by
    rw [hfinished]
    exact (Nat.zero_add _).le
  refine (h.visitAll hguide hlaws hsearch hfar hfuel hpaced).mono ?_
  rintro run q hvisit ⟨gen', pace, h', hkeeps, hrun, hsteps⟩
  obtain ⟨-, gen'', hgen'', hreached, hhandled⟩ :=
    visitAll_ok hlaws h.faithful h.held holder horderly hvisit
  obtain rfl := Option.some.inj (h'.held.symm.trans hgen'')
  obtain ⟨hempty, hhandled⟩ :=
    hhandled (by rw [hsearch]; rfl) hextends.stop (by simp [hextends.finished])
  -- nothing is left waiting
  have hfinished : ∀ i, run.Reached gen' i → i ∈ run.finished ∨ gen'.Hopeless i := fun i hi =>
    hi.imp_left fun hi => hi.resolve_right (by simp [hempty])
  refine ⟨gen', h', hkeeps, hrun.reached, hsteps, fun i hi => ?_,
    fun i hi => (hhandled i hi).mono hfinished⟩
  rcases hstart i hi with hi | hi
  · exact hfinished i (hreached i (hseen i hi))
  · exact .inr (.inr (hkeeps.distance hi rfl))

omit [DecidableEq S] in
/-- What is left of a search after its settling. -/
theorem concluded (hwrites : Generation.DistanceWrites gen gen')
    (hcharted : gen'.Charted setup.analysis allowed setup.fuel) :
    Concluded setup allowed index (p.put index gen') gen' where
  held := Progress.get?_put_self h.held
  length := Progress.length_put.trans h.length
  faithful := Progress.faithful_put h.faithful h.held hcharted.faithful hwrites.prec
  grounded := hwrites.graph ▸ ⟨h.guided.faithful, h.guided.inDomain, h.guided.rooted⟩
  registered := by
    intro i n hn
    obtain ⟨d, hd, -⟩ := hcharted.measured.known hn
    obtain ⟨k, hk, -⟩ := Generation.distance_eq_ok.1 hd
    exact ⟨k, hk⟩
  fits := by
    intro i k hk
    obtain ⟨n, hn⟩ : ∃ n, gen'.graph.get? i = some n := by
      rw [hwrites.graph]
      rcases hwrites.searchNode i with ⟨-, hnone⟩ | ⟨k₀, -, hk₀, -⟩
      · rw [hnone] at hk
        cases hk
      · exact (h.guided.held hk₀).2
    exact ⟨n, hn, h.guided.checkFits hguide hlaws hwrites hcharted.measured hn hk⟩
  outcome := .inl hcharted

/-- **A search meets no fault**, and leaves all distances behind. -/
theorem search (hsearch : setup.search = .full) (hfar : setup.fuel + far ≤ Distance.limit)
    (holder : older.Lawful setup allowed index)
    (hinitialized : gen.graph.isInitialized = true)
    (hroot : ∀ i ∈ gen.graph.initNodes, ∀ n, gen.graph.get? i = some n → n.isTarget = false) :
    (search setup older index gen.graph.initNodes .fullExploration).Ensures p fun _ q =>
      ∃ gen', Concluded setup allowed index q gen' := by
  have hstart : ∀ i ∈ gen.graph.initNodes, ∃ n, gen.graph.get? i = some n := by
    intro i hi
    obtain ⟨n, hn, -⟩ := h.guided.faithful.wellFormed.init_parentless hi
    exact ⟨n, hn⟩
  simp only [Exploration.search, ensures_bind]
  refine (h.forM_ensureHeuristic hguide hlaws hstart).mono ?_
  rintro - p₁ - ⟨gen₁, h₁, hgraph₁, hkeeps₁, hjudged⟩
  refine (h₁.searchableStart hguide hlaws hjudged).mono ?_
  rintro searched p₂ hsearchable ⟨gen₂, h₂, hgraph₂, hkeeps₂, hsub⟩
  obtain ⟨-, gen₂', hgen₂', -, -, hcovered⟩ := searchableStart_ok h₁.faithful h₁.held hsearchable
  obtain rfl := Option.some.inj (h₂.held.symm.trans hgen₂')
  obtain ⟨run₀, henqueue, hvisit⟩ := h₂.visitAll_exhausts hguide hlaws hsearch hfar holder
    (fun i hi => (hjudged i (hsub i hi)).keeps hkeeps₂) hcovered
  simp only [ensures_generation, ensures_lift]
  refine ⟨gen₂, h₂.held, ((), run₀), Edit.result_eq_ok.2 henqueue, hvisit.mono ?_⟩
  rintro run p₃ - ⟨gen₃, h₃, hkeeps₃, hreached, hsteps, hseen, hhandled⟩
  obtain ⟨gen₄, hsettle, hmeasured, hfinite⟩ :=
    h₃.guided.exists_settleExhaustive hguide hlaws hreached
  have hwrites := Generation.settleExhaustive_writes hsettle
  have hkeeps := hkeeps₁.trans (hkeeps₂.trans hkeeps₃)
  have hinit := hkeeps.grows.isInitialized hinitialized
  have hcharted : gen₄.Charted setup.analysis allowed setup.fuel := by
    refine h₃.guided.charted hwrites hmeasured hfinite hinit.1 ?_ hsteps ?_ hhandled
    · intro i n hn hparent
      have hi : i ∈ gen.graph.initNodes :=
        hinit.2 ▸ (h₃.guided.faithful.wellFormed.mem_initNodes_iff hn).2 hparent
      obtain ⟨m, hm⟩ := hstart i hi
      obtain ⟨n', hn', hgrows⟩ := hkeeps.grows.node hm
      rw [hn] at hn'
      cases hn'
      exact hgrows.isTarget.trans (hroot i hi m hm)
    · rw [hinit.2]
      exact hseen
  simp only [settle, hsearch, ensures_bind, ensures_generation, ensures_lift, ensures_putGeneration]
  refine ⟨gen₃, h₃.held, gen₄, hsettle, gen₄, Progress.get?_put_self h₃.held, ?_⟩
  have hknown : ∀ i ∈ gen.graph.initNodes, ∃ d, gen₄.distance i = .ok d ∧ d.isKnown = true := by
    intro i hi
    obtain ⟨n, hn⟩ := hstart i hi
    obtain ⟨n', hn', -⟩ := hkeeps.grows.node hn
    exact hmeasured.known (hwrites.graph ▸ hn')
  obtain ⟨decided, refuted, hdecided, hany, hall⟩ :=
    exists_decided (fun i hi => (hknown i hi).imp fun _ hd => hd.1) (decided_of_known hknown)
  rw [ensures_of_ok hany, ensures_of_ok hall]
  exact ⟨(), demand_eq_ok.2 hdecided, gen₄, h₃.concluded hguide hlaws hwrites hcharted⟩

/-! ## Solving -/

omit [DecidableEq S] hguide hlaws in
/-- What is known while there is no guide. -/
theorem holdsBlank (hnone : guide = none) :
    HoldsBlank setup.analysis allowed index gen.graph p gen where
  held := h.held
  length := h.length
  faithful := h.faithful
  graph := rfl
  blank := by
    refine ⟨h.base hnone, fun {i k} hk => ⟨fun hknown => ?_, fun hknown => ?_⟩⟩
    · rw [h.guided.heuristic_eq (Generation.heuristic_eq_ok.2 ⟨k, hk, rfl⟩) hknown, hnone]
      rfl
    · rcases h.guided.distance hk with hunknown | ⟨-, hinfinite⟩
      · rw [hunknown] at hknown
        cases hknown
      · rw [hnone] at hinfinite
        cases hinfinite
  registered hn := h.guided.registered hn List.not_mem_nil
  inGraph hk := (h.guided.held hk).2

/-- **Solving meets no fault**: either a search finds all distances or, without a guide, an init node
is a target. -/
theorem solve (hsearch : setup.search = .full) (hfar : setup.fuel + far ≤ Distance.limit)
    (holder : older.Lawful setup allowed index)
    (hinitialized : gen.graph.isInitialized = true)
    (hfree : guide = none → ∀ {i n}, gen.graph.get? i = some n → n.covering = none) :
    (solve setup older index gen.graph.initNodes .fullExploration).Ensures p fun _ q =>
      ∃ gen', Concluded setup allowed index q gen' := by
  have hwf := h.guided.faithful.wellFormed
  have hopen : (gen.graph.initNodes.anyM fun id => do
      return (← gen.distance id).isFinite : Explore S P K Bool).run p = .ok (false, p) := by
    have hany : gen.graph.initNodes.any (fun _ => false) = false := by simp
    rw [← hany]
    refine run_anyM_of_forall fun i hi => run_distance_ok.2 ?_
    obtain ⟨n, hn, -⟩ := hwf.init_parentless hi
    obtain ⟨k, hk⟩ := h.guided.registered hn List.not_mem_nil
    exact ⟨k.distance, Generation.distance_eq_ok.2 ⟨k, hk, rfl⟩, h.guided.isFinite_distance hk, rfl⟩
  have htargets : (gen.graph.initNodes.filterM fun id => do
      return (← gen.graph.node id).isTarget : Explore S P K (List NodeId)).run p =
        .ok (gen.graph.initNodes.filter (gen.graph.test (·.isTarget)), p) := by
    refine run_filterM_of_forall fun i hi => ?_
    obtain ⟨n, hn, -⟩ := hwf.init_parentless hi
    simp only [run_bind_ok, run_lift_ok, Graph.node_eq_ok, run_pure_ok]
    exact ⟨n, p, ⟨hn, rfl⟩, by simp [Graph.test, hn], rfl⟩
  simp only [Exploration.solve, ensures_bind, ensures_generation]
  refine ⟨gen, h.held, ?_⟩
  rw [ensures_of_ok hopen, if_neg Bool.false_ne_true, ensures_bind, ensures_of_ok htargets]
  split
  · rename_i hempty
    refine h.search hguide hlaws hsearch hfar holder hinitialized fun i hi n hn => ?_
    rw [List.isEmpty_iff, List.filter_eq_nil_iff] at hempty
    simpa [Graph.test, hn] using hempty i hi
  · rename_i hsome
    have hmem : ∀ i ∈ gen.graph.initNodes.filter (gen.graph.test (·.isTarget)),
        ∃ n, gen.graph.get? i = some n ∧ n.parent = none ∧ n.isTarget = true := by
      intro i hi
      obtain ⟨hinit, htest⟩ := List.mem_filter.1 hi
      obtain ⟨n, hn, hparent⟩ := hwf.init_parentless hinit
      exact ⟨n, hn, hparent, by simpa [Graph.test, hn] using htest⟩
    obtain ⟨i, hi⟩ := List.exists_mem_of_ne_nil _ fun hnil => hsome (List.isEmpty_iff.2 hnil)
    obtain ⟨n, hn, hparent, htarget⟩ := hmem i hi
    -- under a guide no init node is a target
    have hnone : guide = none := by
      by_contra hne
      have := h.guided.root hne hn hparent
      rw [htarget] at this
      cases this
    refine ((h.holdsBlank hnone).forM_settleTarget fun j hj => ?_).mono ?_
    · obtain ⟨m, hm, -, hm'⟩ := hmem j hj
      exact ⟨m, hm, hm'⟩
    · rintro - q - ⟨gen', h', -⟩
      exact ⟨gen', h'.concluded ⟨h.guided.faithful, h.guided.inDomain, h.guided.rooted⟩
        ⟨i, n, hn, hparent, hfree hnone hn, htarget⟩⟩

/-! ## The live generation -/

/-- **The missing init nodes can be added**, with search nodes. -/
theorem ensureInitialized (hsearch : setup.search = .full)
    (hfree : guide = none → ∀ {i n}, gen.graph.get? i = some n → n.covering = none) :
    (ensureInitialized setup index).Ensures p fun _ q =>
      ∃ gen', Hosts setup allowed index guide [] q gen' ∧ gen'.graph.isInitialized = true ∧
        (guide = none → ∀ {i n}, gen'.graph.get? i = some n → n.covering = none) := by
  simp only [Exploration.ensureInitialized, ensures_bind, ensures_generation]
  refine ⟨gen, h.held, ?_⟩
  split
  · rename_i hinitialized
    exact ensures_pure.2 ⟨gen, h, hinitialized, hfree⟩
  · rename_i hopen
    have hopen : gen.graph.isInitialized = false := by simpa using hopen
    have hfaithful := h.guided.faithful
    obtain ⟨new, graph, hseed⟩ := Graph.exists_seed setup.analysis gen.prec gen.graph
    obtain ⟨hfaithful', hadded, hinitialized⟩ :=
      Graph.seed_ok hfaithful hopen h.guided.finest.isAllowed hseed
    have hguided : Generation.Guided setup.analysis allowed guide new { gen with graph } :=
      h.guided.of_addedLeaves hguide hlaws hadded hfaithful' (Graph.seed_new hfaithful hopen hseed)
        (fun _ _ hs => hs) (by simp)
    have hgrows : gen.Keeps { gen with graph } := .of_grows hadded.grows
    simp only [ensures_bind, ensures_editGraph]
    refine ⟨gen, h.held, new, graph, hseed, ?_⟩
    refine (ensures_forM (motive := fun rest q => ∃ gen',
      Hosts setup allowed index guide rest q gen' ∧ gen'.graph = graph) ?_
      ⟨_, h.put hguided hgrows, rfl⟩).mono ?_
    · rintro c rest q ⟨mid, hmid, hgraph⟩
      refine (hmid.createSearchNode hguide hlaws hsearch).mono ?_
      rintro - q' - ⟨gen', h', hgraph', -⟩
      exact ⟨gen', h', hgraph'.trans hgraph⟩
    · rintro - q - ⟨gen', h', hgraph⟩
      refine ⟨gen', h', hgraph ▸ hinitialized, fun hnone {i n} hn => ?_⟩
      rw [hgraph] at hn
      by_cases hi : i ∈ new
      · exact (hadded.isOpen_of_mem hi hn).2.1
      · obtain ⟨m, hm, hcovering, -⟩ := hadded.old hi hn
        exact hcovering.trans (hfree hnone hm)

/-- **Completing and solving the live generation meets no fault.** -/
theorem solveLive (hsearch : setup.search = .full) (hfar : setup.fuel + far ≤ Distance.limit)
    (hfree : guide = none → ∀ {i n}, gen.graph.get? i = some n → n.covering = none) :
    (solveLive setup index [] .fullExploration).Ensures p fun _ q =>
      ∃ gen', Concluded setup allowed index q gen' := by
  simp only [Exploration.solveLive, ensures_bind, ensures_generation]
  rw [ensures_of_ok (a := ()) (q := p) rfl]
  refine (h.ensureInitialized hguide hlaws hsearch hfree).mono ?_
  rintro - q - ⟨gen', h', hinitialized, hfree'⟩
  exact ⟨gen', h'.held, h'.solve hguide hlaws hsearch hfar (below_lawful hlaws index) hinitialized
    hfree'⟩

end Hosts

end Exploration

end GuidedReach
