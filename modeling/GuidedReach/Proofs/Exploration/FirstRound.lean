import GuidedReach.Proofs.Exploration.GuidedRounds
import GuidedReach.Proofs.Exploration.Unguided
import GuidedReach.Proofs.Generation.FirstSettling

/-!
# The first round

The first round adds the init nodes to an empty graph and looks for the nearest target. If an init node
is a target, nothing is searched. Otherwise the search is made and settled. Either way no assertion
fails, and the init nodes have the distances that the graph gives them.

* `Generation.Resolved`, `Exploration.Completes` — what the first round leaves behind.
* `Exploration.Unfolds.search`, `Exploration.Unfolds.solve` — searching and solving.
* `Exploration.Unfolds.solveLive` — the whole round.
-/

namespace GuidedReach

variable {S P K : Type}

/-- The least distance of the init nodes is the length of a shortest path to a target, whatever is
nearer was explored, and the graph grew out of nothing under one precision. -/
structure Generation.Resolved (analysis : Analysis S P K) (leq : S → S → Bool) (prec : P)
    (nearest : Option Nat) (gen : Generation S P K) : Prop where
  faithful : gen.graph.Faithful (analysis.under leq) (· = prec)
  grown : ({} : Graph S).GrownFrom (analysis.under leq) prec gen.graph
  initialized : gen.graph.isInitialized = true
  shortest : gen.graph.NearestTarget gen.graph.initNodes nearest
  explored : gen.graph.ExploredTo gen.graph.initNodes nearest
  tells : gen.Tells gen.graph.initNodes nearest

/-- Only the graph and the distances matter. -/
theorem Generation.Resolved.congr {analysis : Analysis S P K} {leq : S → S → Bool} {prec : P}
    {nearest : Option Nat} {gen gen' : Generation S P K} (h : gen.Resolved analysis leq prec nearest)
    (hgraph : gen'.graph = gen.graph) (hdistance : ∀ i, gen'.distance i = gen.distance i) :
    gen'.Resolved analysis leq prec nearest := by
  obtain ⟨hfaithful, hgrown, hinitialized, hshortest, hexplored, htells⟩ := h
  refine ⟨?_, ?_, ?_, ?_, ?_, ?_⟩
  all_goals rw [hgraph]
  · exact hfaithful
  · exact hgrown
  · exact hinitialized
  · exact hshortest
  · exact hexplored
  · cases nearest <;> simpa only [Generation.Tells, hdistance] using htells

namespace SearchRun

variable {gen : Generation S P K} {run : SearchRun}

/-- The start nodes can be enqueued, by induction on their list. -/
theorem Levelled.exists_forM_enqueue {ids : List NodeId} (h : run.Levelled 0)
    (hids : ∀ i ∈ ids, (∃ n, gen.graph.get? i = some n) ∧ ∃ k, gen.searchNodes.get? i = some k ∧
      k.heuristic = .zero ∧ k.distance = .unknown) :
    ∃ run', (ids.forM fun id => enqueue gen id none 0).run run = .ok () run' ∧ run'.Levelled 0 ∧
      Notes none 0 ids run run' := by
  induction ids generalizing run with
  | nil => exact ⟨run, rfl, h, .refl none 0 run⟩
  | cons id rest ih =>
    obtain ⟨⟨⟨n, hn⟩, k, hk, hzero, hopen⟩, hrest⟩ := List.forall_mem_cons.1 hids
    obtain ⟨mid, hfirst, hmid, hnotes⟩ :=
      h.exists_enqueue none hn hk hzero hopen (Nat.le_refl 0) (Nat.zero_le _)
    obtain ⟨run', hrun, hrun', hnotes'⟩ := ih hmid hrest
    exact ⟨run', Edit.run_forM_cons_ok.2 ⟨mid, hfirst, hrun⟩, hrun', hnotes.cons hnotes'⟩

end SearchRun

/-- What the first round leaves behind: values that fit, and the nearest target is found. -/
structure Exploration.Completes (setup : Setup S P K) (leq : S → S → Bool) (prec : P) (index : Nat)
    (nearest : Option Nat) (p : Progress S P K) (gen : Generation S P K) : Prop where
  held : p.history.get? index = some gen
  length : p.history.length = index + 1
  settleable : gen.Settleable
  resolved : gen.Resolved setup.analysis leq prec nearest

namespace Exploration.Unfolds

open Explore

variable [DecidableEq K]
variable {setup : Setup S P K} {older : Older S P K} {leq : S → S → Bool} {prec : P} {index : Nat}
variable {p q : Progress S P K} {gen gen' : Generation S P K} {stop : StopCriterion}

section

variable (h : Unfolds setup leq prec index [] p gen)

include h

/-! ## Start nodes -/

theorem exists_searchNode {i : NodeId} {n : Node S} (hn : gen.graph.get? i = some n) :
    ∃ k, gen.searchNodes.get? i = some k ∧ gen.distance i = .ok .unknown := by
  obtain ⟨k, hk⟩ := h.unguided.registered hn List.not_mem_nil
  exact ⟨k, hk, Generation.distance_eq_ok.2 ⟨k, hk, h.unguided.distance hk⟩⟩

/-- The heuristics of start nodes can be made known. -/
theorem forM_ensureHeuristic {ids : List NodeId}
    (hids : ∀ i ∈ ids, ∃ n, gen.graph.get? i = some n) :
    (ids.forM fun id => do let _ ← Exploration.ensureHeuristic setup older index id).Ensures p fun _ q =>
      ∃ gen', Unfolds setup leq prec index [] q gen' ∧ gen'.graph = gen.graph ∧
        ∀ i ∈ ids, gen'.heuristic i = Except.ok Distance.zero := by
  refine (ensures_forM (motive := fun rest q => ∃ gen', Unfolds setup leq prec index [] q gen' ∧
    gen'.graph = gen.graph ∧ (∀ i ∈ rest, i ∈ ids) ∧
    ∀ i ∈ ids, i ∈ rest ∨ gen'.heuristic i = .ok .zero) ?_
    ⟨gen, h, rfl, fun _ hi => hi, fun _ hi => .inl hi⟩).mono ?_
  · rintro id rest q ⟨mid, hmid, hgraph, hrest, hall⟩
    obtain ⟨n, hn⟩ := hids id (hrest id List.mem_cons_self)
    obtain ⟨k, hk, -⟩ := hmid.exists_searchNode (hgraph ▸ hn)
    simp only [ensures_bind]
    refine (hmid.ensureHeuristic hk).mono ?_
    rintro d q' - ⟨-, gen', h', hgraph', hkeeps, hzero⟩
    refine ensures_pure.2 ⟨gen', h', hgraph'.trans hgraph,
      fun i hi => hrest i (List.mem_cons_of_mem id hi), fun i hi => ?_⟩
    rcases hall i hi with hwaits | hold
    · rcases List.mem_cons.1 hwaits with rfl | hwaits
      · exact .inr hzero
      · exact .inl hwaits
    · exact .inr (hkeeps.heuristic hold rfl)
  · rintro - q - ⟨gen', h', hgraph, -, hall⟩
    exact ⟨gen', h', hgraph, fun i hi => (hall i hi).resolve_left List.not_mem_nil⟩

/-- All start nodes are searched from. -/
theorem run_searchableStart {start : List NodeId}
    (hstart : ∀ i ∈ start, gen.heuristic i = .ok .zero) :
    (searchableStart index start).run p = .ok (start, p) := by
  induction start with
  | nil => rfl
  | cons id rest ih =>
    obtain ⟨hzero, hrest⟩ := List.forall_mem_cons.1 hstart
    obtain ⟨k, hk, -⟩ := Generation.heuristic_eq_ok.1 hzero
    have hopen : gen.distance id = .ok .unknown :=
      Generation.distance_eq_ok.2 ⟨k, hk, h.unguided.distance hk⟩
    simp only [searchableStart, run_bind_ok, run_generation_ok, run_lift_ok]
    refine ⟨gen, p, ⟨h.held, rfl⟩, .zero, p, ⟨hzero, rfl⟩, ?_⟩
    rw [if_neg (by simp [Distance.isInfinite, Distance.zero])]
    simp only [run_bind_ok, run_lift_ok]
    refine ⟨.unknown, p, ⟨hopen, rfl⟩, ?_⟩
    rw [if_neg (by simp [Distance.isInfinite])]
    simp only [run_bind_ok, run_pure_ok]
    exact ⟨rest, p, ih hrest, rfl, rfl⟩

/-! ## Searching -/

/-- **A search that is over can be settled.** -/
theorem settle (hleq : setup.analysis.Refines leq)
    (hlimit : gen.graph.expandedIds.length ≤ Distance.limit) {run : SearchRun}
    (hover : SearchRun.Proceeds setup.search.visitsReached gen run none)
    (hstart : ∀ i ∈ run.start, ∃ n, gen.graph.get? i = some n) :
    (settle setup index run).Ensures p fun _ q => ∃ gen' nearest,
      q.history.get? index = some gen' ∧ q.history.length = index + 1 ∧ gen'.Settleable ∧
      Generation.DistanceWrites gen gen' ∧ gen.graph.NearestTarget run.start nearest ∧
      gen.graph.ExploredTo run.start nearest ∧ gen'.Tells run.start nearest := by
  obtain ⟨⟨pace, hlevels⟩, hsurvey, hends⟩ := hover
  have hsettleable := h.unguided.settleable
  have hopen : ∀ {i d}, gen.distance i = .ok d → d = .unknown := h.unguided.distance_eq_unknown
  obtain ⟨nearest, hnearest, hexplored, hcases⟩ :=
    hsurvey.exists_nearest h.unguided.faithful.wellFormed hlevels (hends.imp_right And.left)
      fun hn hcovering hm => h.unguided.isTarget_of_covering hleq hn hcovering hm
  -- whatever the search type, there is a generation to put back
  have hput : ∀ {gen'}, Generation.DistanceWrites gen gen' → gen'.Settleable →
      gen'.Tells run.start nearest → ∃ gen'' nearest,
        (p.put index gen').history.get? index = some gen'' ∧
        (p.put index gen').history.length = index + 1 ∧ gen''.Settleable ∧
        Generation.DistanceWrites gen gen'' ∧ gen.graph.NearestTarget run.start nearest ∧
        gen.graph.ExploredTo run.start nearest ∧ gen''.Tells run.start nearest :=
    fun hwrites h' htells => ⟨_, nearest, Progress.get?_put_self h.held,
      Progress.length_put.trans h.length, h', hwrites, hnearest, hexplored, htells⟩
  have hguided : setup.search ≠ .full → ∃ gen', gen.settleGuided run = .ok gen' ∧
      gen'.Settleable ∧ Generation.DistanceWrites gen gen' ∧ gen'.Tells run.start nearest := by
    intro hsearch
    have hvisits : setup.search.visitsReached = false := by
      cases hs : setup.search <;> simp_all [SearchType.visitsReached]
    rw [hvisits] at hsurvey
    cases nearest with
    | none =>
      exact hsettleable.exists_settleGuided_of_exhausted hsurvey hlevels hopen hlimit hcases.1 hcases.2
    | some nearest =>
      obtain ⟨goal, rest, hreached, hgoal⟩ := hcases
      exact hsettleable.exists_settleGuided_of_reached hsurvey hlevels hopen hlimit hreached hgoal
  simp only [Exploration.settle, ensures_bind, ensures_generation]
  refine ⟨gen, h.held, ?_⟩
  cases hsearch : setup.search with
  | full =>
    obtain ⟨gen', hrun, h', hwrites, htells⟩ := hsettleable.exists_settleExhaustive_tells hopen
      (fun i hi => (hsurvey.isTarget_of_reached hi).2) hstart hnearest
    simp only [ensures_bind, ensures_lift, ensures_putGeneration]
    exact ⟨gen', hrun, hput hwrites h' htells⟩
  | semiOnDemand =>
    obtain ⟨gen', hrun, h', hwrites, htells⟩ := hguided (by simp [hsearch])
    simp only [ensures_bind, ensures_lift, ensures_putGeneration]
    exact ⟨gen', hrun, hput hwrites h' htells⟩
  | decreasing =>
    obtain ⟨gen', hrun, h', hwrites, htells⟩ := hguided (by simp [hsearch])
    simp only [ensures_bind, ensures_lift, ensures_putGeneration]
    exact ⟨gen', hrun, hput hwrites h' htells⟩

variable [DecidableEq S] {inside : S → Prop}

/-- The graph has its init nodes and nothing else, and there is room for a search. -/
structure Seeded (analysis : Analysis S P K) (leq : S → S → Bool) (prec : P) (visits : Nat)
    (gen : Generation S P K) : Prop where
  initialized : gen.graph.isInitialized = true
  fresh : ∀ {i n}, gen.graph.get? i = some n → n.succs = [] ∧ n.covering = none ∧ n.isExpanded = false
  room : Room analysis leq prec visits gen

/-- **A search meets no fault**, and it finds the nearest target. -/
theorem search (hleq : setup.analysis.Refines leq) (hinside : setup.analysis.Encloses prec inside)
    (hseeded : Seeded setup.analysis leq prec setup.fuel gen) :
    (search setup older index gen.graph.initNodes stop).Ensures p fun _ q => ∃ gen' nearest,
      Completes setup leq prec index nearest q gen' := by
  have hstart : ∀ i ∈ gen.graph.initNodes, ∃ n, gen.graph.get? i = some n := by
    intro i hi
    obtain ⟨n, hn, -⟩ := h.unguided.faithful.wellFormed.init_parentless hi
    exact ⟨n, hn⟩
  simp only [Exploration.search, ensures_bind]
  refine (h.forM_ensureHeuristic hstart).mono ?_
  rintro - p₁ - ⟨gen₁, h₁, hgraph₁, hzero⟩
  rw [← hgraph₁] at hstart hzero ⊢
  rw [ensures_of_ok (h₁.run_searchableStart hzero)]
  simp only [ensures_generation, ensures_lift]
  have henqueued : ∀ i ∈ gen₁.graph.initNodes, (∃ n, gen₁.graph.get? i = some n) ∧
      ∃ k, gen₁.searchNodes.get? i = some k ∧ k.heuristic = .zero ∧ k.distance = .unknown := by
    intro i hi
    obtain ⟨k, hk, hheuristic⟩ := Generation.heuristic_eq_ok.1 (hzero i hi)
    exact ⟨hstart i hi, k, hk, hheuristic, h₁.unguided.distance hk⟩
  obtain ⟨run₀, henqueue, hlevels, hnotes⟩ :=
    (SearchRun.Levelled.start gen₁.graph.initNodes stop).exists_forM_enqueue henqueued
  have hsurvey : run₀.Survey setup.search.visitsReached none gen₁ :=
    .begin hnotes (fun hn => hseeded.fresh (hgraph₁ ▸ hn)) (fun i hi => ⟨hstart i hi, hzero i hi⟩)
      h₁.unguided.faithful.wellFormed
  have hroom : Room setup.analysis leq prec setup.fuel gen₁ := by
    rw [Room, hgraph₁]
    exact hseeded.room
  refine ⟨gen₁, h₁.held, ((), run₀), Edit.result_eq_ok.2 henqueue, ?_⟩
  refine (h₁.visitAll hleq hinside hroom hlevels hsurvey).mono ?_
  rintro run p₂ - ⟨gen₂, h₂, hkeeps, hover, hrunStart, -, hroom₂⟩
  have hinit := hkeeps.grows.isInitialized (hgraph₁ ▸ hseeded.initialized)
  have hstart₂ : run.start = gen₂.graph.initNodes := by
    rw [hrunStart, hnotes.start, hinit.2]
  have hheld : ∀ i ∈ run.start, ∃ n, gen₂.graph.get? i = some n := by
    intro i hi
    rw [hstart₂, hinit.2] at hi
    obtain ⟨n, hn⟩ := hstart i hi
    obtain ⟨n', hn', -⟩ := hkeeps.grows.node hn
    exact ⟨n', hn'⟩
  have hlimit : gen₂.graph.expandedIds.length ≤ Distance.limit :=
    hroom₂.elim (fun hle => hle) fun hall => hall gen₂ h₂.unguided
  refine (h₂.settle hleq hlimit hover hheld).mono ?_
  rintro - p₃ - ⟨gen₃, nearest, hheld₃, hlength₃, hsettleable, hwrites, hnearest, hexplored, htells⟩
  have hdistance : ∀ i ∈ gen₁.graph.initNodes, ∃ d, gen₃.distance i = .ok d := by
    intro i hi
    rw [← hinit.2, ← hstart₂] at hi
    obtain ⟨n, hn⟩ := hheld i hi
    exact hsettleable.furnished.exists_distance (hwrites.graph ▸ hn)
  rw [hstart₂, hinit.2] at htells
  have hdecided : (∃ i ∈ gen₁.graph.initNodes, ∃ d, gen₃.distance i = .ok (.finite d)) ∨
      ∀ i ∈ gen₁.graph.initNodes, gen₃.distance i = .ok .infinite := by
    cases nearest with
    | none => exact .inr htells
    | some nearest =>
      obtain ⟨i, hi, hd⟩ := htells.1
      exact .inl ⟨i, hi, nearest, hd⟩
  obtain ⟨decided, refuted, hpasses, hany, hall⟩ := exists_decided hdistance hdecided
  refine ⟨gen₃, hheld₃, ?_⟩
  rw [ensures_of_ok hany, ensures_of_ok hall]
  refine ⟨(), demand_eq_ok.2 hpasses, gen₃, nearest, hheld₃, hlength₃, hsettleable, ⟨?_, ?_, ?_, ?_, ?_, ?_⟩⟩
  all_goals rw [hwrites.graph]
  · exact h₂.unguided.faithful
  · exact h₂.unguided.grown
  · exact hinit.1
  · exact hstart₂ ▸ hnearest
  · exact hstart₂ ▸ hexplored
  · exact hinit.2 ▸ htells

omit [DecidableEq S] in
/-- Nothing but zeros is known yet. -/
theorem holdsBlank (hindex : index = 0) :
    HoldsBlank (setup.analysis.under leq) (· = prec) index gen.graph p gen where
  held := h.held
  length := h.length
  faithful := by
    intro i other hother
    have hlt := History.lt_length hother
    rw [h.length] at hlt
    obtain rfl : i = index := by omega
    obtain rfl := Option.some.inj (h.held.symm.trans hother)
    exact ⟨h.unguided.faithful, h.unguided.prec_eq⟩
  graph := rfl
  blank := by
    refine ⟨h.unguided.provider, fun hk => ⟨fun hknown => ?_, fun hknown => ?_⟩⟩
    · refine (h.unguided.heuristic hk).resolve_left fun hunknown => ?_
      simp [hunknown, Distance.isKnown] at hknown
    · simp [h.unguided.distance hk, Distance.isKnown] at hknown
  registered hn := h.unguided.registered hn List.not_mem_nil
  inGraph hk := (h.unguided.held hk).2

omit [DecidableEq S] h in
/-- If an init node is a target, then it is the nearest one, and nothing has to be explored. -/
theorem completes_of_initTarget {i : NodeId} {n : Node S} (h : gen.Unguided setup.analysis leq prec [])
    (hblank : HoldsBlank (setup.analysis.under leq) (· = prec) index gen.graph q gen')
    (hinitialized : gen.graph.isInitialized = true) (hi : i ∈ gen.graph.initNodes)
    (hn : gen.graph.get? i = some n) (htarget : n.isTarget = true)
    (hzero : gen'.distance i = .ok .zero) : Completes setup leq prec index (some 0) q gen' := by
  have hsettleable : gen'.Settleable := by
    refine ⟨hblank.graph ▸ h.faithful.wellFormed, ?_, hblank.graph ▸ hblank.registered,
      hblank.graph ▸ hblank.inGraph, fun hk => ?_, fun _ _ hd => ?_⟩
    · rw [hblank.graph]
      exact h.settleable.covered_leaf
    · refine or_iff_not_imp_left.2 fun hne => (hblank.blank.searchNode hk).heuristic ?_
      by_contra hopen
      exact hne (Distance.eq_unknown_of_not_isKnown (by simpa using hopen))
    · obtain ⟨k, hk, rfl⟩ := Generation.distance_eq_ok.1 hd
      refine or_iff_not_imp_left.2 fun hne => (hblank.blank.searchNode hk).distance ?_
      by_contra hopen
      exact hne (Distance.eq_unknown_of_not_isKnown (by simpa using hopen))
  refine ⟨hblank.held, hblank.length, hsettleable, ⟨?_, ?_, ?_, ?_, ?_, ?_⟩⟩
  all_goals rw [hblank.graph]
  · exact h.faithful
  · exact h.grown
  · exact hinitialized
  · exact ⟨⟨i, hi, .of_isTarget hn htarget⟩, fun _ _ => Nat.zero_le _⟩
  · intro s _ j length m _ hlt
    exact absurd (hlt 0 rfl) (Nat.not_lt_zero _)
  · exact ⟨⟨i, hi, hzero⟩, fun _ _ => Nat.zero_le _⟩

/-- **Solving meets no fault**: either an init node is a target, or a search finds the nearest one. -/
theorem solve (hindex : index = 0) (hleq : setup.analysis.Refines leq)
    (hinside : setup.analysis.Encloses prec inside)
    (hseeded : Seeded setup.analysis leq prec setup.fuel gen) :
    (solve setup older index gen.graph.initNodes stop).Ensures p fun _ q => ∃ gen' nearest,
      Completes setup leq prec index nearest q gen' := by
  have hwf := h.unguided.faithful.wellFormed
  have hopen : (gen.graph.initNodes.anyM fun id => do
      return (← gen.distance id).isFinite : Explore S P K Bool).run p = .ok (false, p) := by
    have hany : gen.graph.initNodes.any (fun _ => false) = false := by simp
    rw [← hany]
    refine run_anyM_of_forall fun i hi => run_distance_ok.2 ?_
    obtain ⟨n, hn, -⟩ := hwf.init_parentless hi
    obtain ⟨-, -, hd⟩ := h.exists_searchNode hn
    exact ⟨.unknown, hd, rfl, rfl⟩
  have htargets : (gen.graph.initNodes.filterM fun id => do
      return (← gen.graph.node id).isTarget : Explore S P K (List NodeId)).run p =
        .ok (gen.graph.initNodes.filter (gen.graph.test (·.isTarget)), p) := by
    refine run_filterM_of_forall fun i hi => ?_
    obtain ⟨n, hn, -⟩ := hwf.init_parentless hi
    simp only [run_bind_ok, run_lift_ok, Graph.node_eq_ok, run_pure_ok]
    exact ⟨n, p, ⟨hn, rfl⟩, by simp [Graph.test, hn], rfl⟩
  simp only [Exploration.solve, ensures_bind, ensures_generation]
  refine ⟨gen, h.held, ?_⟩
  rw [ensures_of_ok hopen, if_neg Bool.false_ne_true, ensures_bind, ensures_of_ok htargets]
  split
  · exact h.search hleq hinside hseeded
  · rename_i hsome
    have hmem : ∀ i ∈ gen.graph.initNodes.filter (gen.graph.test (·.isTarget)),
        i ∈ gen.graph.initNodes ∧ ∃ n, gen.graph.get? i = some n ∧ n.isTarget = true := by
      intro i hi
      obtain ⟨hinit, htest⟩ := List.mem_filter.1 hi
      obtain ⟨n, hn, -⟩ := hwf.init_parentless hinit
      exact ⟨hinit, n, hn, by simpa [Graph.test, hn] using htest⟩
    obtain ⟨i, hi⟩ := List.exists_mem_of_ne_nil _ fun hnil => hsome (List.isEmpty_iff.2 hnil)
    obtain ⟨hinit, n, hn, htarget⟩ := hmem i hi
    refine ((h.holdsBlank hindex).forM_settleTarget fun j hj => (hmem j hj).2).mono ?_
    rintro - q - ⟨gen', h', hzero⟩
    exact ⟨gen', some 0,
      completes_of_initTarget h.unguided h' hseeded.initialized hinit hn htarget (hzero i hi)⟩

end

/-! ## The live generation -/

variable [DecidableEq S]

/-- **The init nodes can be added to an empty graph**, with search nodes. -/
theorem ensureInitialized (h : Unfolds setup leq prec index [] p gen) (hempty : gen.graph = {})
    {visits : Nat} (hroom : Room setup.analysis leq prec visits gen) :
    (ensureInitialized setup index).Ensures p fun _ q => ∃ gen',
      Unfolds setup leq prec index [] q gen' ∧ Seeded setup.analysis leq prec visits gen' := by
  have hnode : ∀ {i n}, gen.graph.get? i ≠ some n := by
    intro i n hn
    simp [hempty, Graph.get?, NodeMap.get?_empty] at hn
  have hfaithful := h.unguided.faithful
  have hopen : gen.graph.isInitialized = false := by
    rw [hempty]
  obtain ⟨new, graph, hseed⟩ := Graph.exists_seed setup.analysis gen.prec gen.graph
  have hseed' : (Graph.seed (setup.analysis.under leq) prec).run gen.graph = .ok new graph := by
    rw [Graph.seed_under, ← h.unguided.prec_eq]
    exact hseed
  obtain ⟨hfaithful', hadded, hinitialized⟩ := Graph.seed_ok hfaithful hopen rfl hseed'
  have hgrown := h.unguided.grown.seed hfaithful rfl hopen hseed'
  have hunguided : Generation.Unguided setup.analysis leq prec new { gen with graph } :=
    h.unguided.of_addedLeaves hadded (Graph.seed_new hfaithful hopen hseed').1 hfaithful' hgrown (by simp)
  have hfresh : ∀ {i n}, graph.get? i = some n →
      n.succs = [] ∧ n.covering = none ∧ n.isExpanded = false := by
    intro i n hn
    by_cases hi : i ∈ new
    · exact hadded.isOpen_of_mem hi hn
    · obtain ⟨m, hm, -⟩ := hadded.old hi hn
      exact absurd hm hnode
  simp only [Exploration.ensureInitialized, ensures_bind, ensures_generation]
  refine ⟨gen, h.held, ?_⟩
  rw [if_neg (by simp [hopen])]
  simp only [ensures_bind, ensures_editGraph]
  refine ⟨gen, h.held, new, graph, hseed, (h.put hunguided).forM_createSearchNode.mono ?_⟩
  rintro - q - ⟨gen', h', hgraph, -⟩
  refine ⟨gen', h', hgraph ▸ hinitialized, fun hn => hfresh (hgraph ▸ hn), ?_⟩
  refine hroom.imp_left fun hle => ?_
  have hnone : gen'.graph.expandedIds = [] := by
    rw [List.eq_nil_iff_forall_not_mem]
    intro i hi
    obtain ⟨n, hn, hexpanded⟩ := Graph.mem_expandedIds.1 hi
    simp [(hfresh (hgraph ▸ hn)).2.2] at hexpanded
  rw [hnone, List.length_nil]
  omega

/-- **The first round meets no fault**, and it finds the nearest target. -/
theorem solveLive {inside : S → Prop} (h : Unfolds setup leq prec index [] p gen) (hindex : index = 0)
    (hempty : gen.graph = {}) (hleq : setup.analysis.Refines leq)
    (hinside : setup.analysis.Encloses prec inside)
    (hroom : Room setup.analysis leq prec setup.fuel gen) :
    (solveLive setup index [] stop).Ensures p fun _ q => ∃ gen' nearest,
      Completes setup leq prec index nearest q gen' := by
  simp only [Exploration.solveLive, ensures_bind, ensures_generation]
  rw [ensures_of_ok (a := ()) (q := p) rfl]
  refine (h.ensureInitialized hempty hroom).mono ?_
  rintro - q - ⟨gen', h', hseeded⟩
  exact ⟨gen', h'.held, h'.solve hindex hleq hinside hseeded⟩

end Exploration.Unfolds

/-- An empty generation has yet to explore. -/
theorem Generation.Unguided.of_empty [DecidableEq K] {analysis : Analysis S P K} {leq : S → S → Bool}
    (prec : P) : ({ graph := {}, prec } : Generation S P K).Unguided analysis leq prec [] := by
  have hnode : ∀ {i n}, ({} : Graph S).get? i ≠ some n := by
    intro i n hn
    simp [Graph.get?, NodeMap.get?_empty] at hn
  have hsearch : ∀ {i k}, ({} : NodeMap SearchNode).get? i ≠ some k := by
    intro i k hk
    simp [NodeMap.get?_empty] at hk
  exact ⟨.of_empty prec, .empty, .refl _, rfl, rfl, fun hk => absurd hk hsearch,
    fun hk => absurd hk hsearch, fun hn _ => absurd hn hnode, fun hn _ _ _ _ => absurd hn hnode⟩

end GuidedReach
