import GuidedReach.Proofs.Exploration.Searching
import GuidedReach.Proofs.Exploration.Works
import GuidedReach.Proofs.Generation.Exhaustive

/-!
# Solving generations

* `Exploration.Decided`, `Exploration.OnlyTargets`, `Exploration.Exhausted` — what a search arrives at.
* `Exploration.solve_ok` — solving a generation decides its start nodes, in steps.
* `Exploration.openProvider_ok` — so does work on targets whose successors are needed.
* `Exploration.below_lawful` — hence older generations are only changed in steps, too.
* `Exploration.solveLive_works` — and so is the live one, save for the distances at the end.
-/

namespace GuidedReach.Exploration

open Explore

variable {S P K : Type}

/-- One of the start nodes has a finite distance, or all of them have an infinite one. -/
def Decided (start : List NodeId) (gen : Generation S P K) : Prop :=
  (∃ i ∈ start, ∃ d, gen.distance i = .ok (.finite d)) ∨ ∀ i ∈ start, gen.distance i = .ok .infinite

/-- The only new distances are those of targets. -/
def OnlyTargets (gen gen' : Generation S P K) : Prop :=
  ∀ id d, gen'.distance id = .ok d → d.isKnown = true →
    gen.distance id = .ok d ∨ d = .zero ∧ ∃ n, gen'.graph.get? id = some n ∧ n.isTarget = true

/-- Everything below the start nodes was visited, or is hopeless. -/
def Exhausted (start : List NodeId) (gen : Generation S P K) : Prop :=
  ∃ finished : List NodeId, (∀ i ∈ start, i ∈ finished ∨ gen.Hopeless i) ∧
    ∀ i ∈ finished, gen.graph.Handled (fun c => c ∈ finished ∨ gen.Hopeless c) i

variable [DecidableEq S] [DecidableEq K]
variable {setup : Setup S P K} {older : Older S P K} {index bound : Nat} {allowed : P → Prop}
variable {p q : Progress S P K} {gen gen' : Generation S P K} {id : NodeId} {start : List NodeId}
variable {stop : StopCriterion}

/-! ## Searching -/

omit [DecidableEq S] [DecidableEq K] in
theorem run_distance_ok {f : Distance → Bool} {b : Bool} :
    (do let d ← liftM (gen.distance id); pure (f d) : Explore S P K Bool).run p = .ok (b, q) ↔
      ∃ d, gen.distance id = .ok d ∧ f d = b ∧ p = q := by
  simp only [run_bind_ok, run_lift_ok, run_pure_ok]
  constructor
  · rintro ⟨d, _, ⟨hd, rfl⟩, rfl, rfl⟩
    exact ⟨d, hd, rfl, rfl⟩
  · rintro ⟨d, hd, rfl, rfl⟩
    exact ⟨d, p, ⟨hd, rfl⟩, rfl, rfl⟩

omit [DecidableEq S] [DecidableEq K] in
/-- Looking for a start node at a finite distance. -/
theorem run_anyM_finite_ok {found : Bool}
    (h : (start.anyM fun id => do
      let d ← liftM (gen.distance id)
      pure d.isFinite : Explore S P K Bool).run p = .ok (found, q)) :
    p = q ∧ (found = true → ∃ i ∈ start, ∃ d, gen.distance i = .ok (.finite d)) := by
  obtain ⟨heq, hfound, -⟩ := run_anyM_ok (fun _ _ _ _ hrun => (run_distance_ok.1 hrun).choose_spec.2.2) h
  refine ⟨heq, fun htrue => ?_⟩
  obtain ⟨i, hi, hrun⟩ := hfound htrue
  obtain ⟨d, hd, hfinite, -⟩ := run_distance_ok.1 hrun
  cases d with
  | finite d => exact ⟨i, hi, d, hd⟩
  | _ => simp [Distance.isFinite] at hfinite

omit [DecidableEq S] [DecidableEq K] in
theorem run_settle_ok {run : SearchRun} (hgen : p.history.get? index = some gen)
    (h : (settle setup index run).run p = .ok ((), q)) :
    ∃ gen', q = p.put index gen' ∧
      (setup.search = .full ∧ gen.settleExhaustive run = .ok gen' ∨
        setup.search ≠ .full ∧ gen.settleGuided run = .ok gen') := by
  simp only [settle, run_bind_ok, run_generation_ok] at h
  obtain ⟨_, _, ⟨hgen', rfl⟩, h⟩ := h
  obtain rfl := Option.some.inj (hgen.symm.trans hgen')
  split at h
  · rename_i hfull
    simp only [run_bind_ok, run_lift_ok, run_putGeneration_ok] at h
    obtain ⟨gen', _, ⟨hsettle, rfl⟩, rfl⟩ := h
    exact ⟨gen', rfl, .inl ⟨hfull, hsettle⟩⟩
  · rename_i hguided
    simp only [run_bind_ok, run_lift_ok, run_putGeneration_ok] at h
    obtain ⟨gen', _, ⟨hsettle, rfl⟩, rfl⟩ := h
    exact ⟨gen', rfl, .inr ⟨hguided, hsettle⟩⟩

section

variable (hlaws : setup.analysis.Lawful) (hp : p.history.Faithful setup.analysis allowed)
variable (hgen : p.history.get? index = some gen) (holder : older.Lawful setup allowed index)

include hlaws hp hgen holder

/-- A search goes on in steps until it is settled. -/
theorem search_ok (h : (search setup older index start stop).run p = .ok ((), q)) :
    ∃ mid gen₁ run gen', Upto setup index p mid ∧ mid.history.get? index = some gen₁ ∧
      (∀ id d, gen₁.distance id = .ok (.finite d) → gen.distance id = .ok (.finite d)) ∧
      (setup.search = .full → stop = .fullExploration → Exhausted start gen₁) ∧
      q = mid.put index gen' ∧ Decided start gen' ∧
      (setup.search = .full ∧ gen₁.settleExhaustive run = .ok gen' ∨
        setup.search ≠ .full ∧ gen₁.settleGuided run = .ok gen') := by
  obtain ⟨_, p₁, hheuristics, h₁⟩ := run_bind_ok.1 h
  obtain ⟨searched, p₂, hsearchable, h₂⟩ := run_bind_ok.1 h₁
  obtain ⟨gen₂, _, hread, h₃⟩ := run_bind_ok.1 h₂
  obtain ⟨hgen₂, rfl⟩ := run_generation_ok.1 hread
  obtain ⟨⟨⟨⟩, run₀⟩, _, hlift, h₄⟩ := run_bind_ok.1 h₃
  obtain ⟨henqueue, rfl⟩ := run_lift_ok.1 hlift
  obtain ⟨run, p₃, hvisit, h₅⟩ := run_bind_ok.1 h₄
  obtain ⟨_, p₄, hsettle, h₆⟩ := run_bind_ok.1 h₅
  -- the start nodes
  have hquiet := forM_ensureHeuristic_ok hlaws hp hgen holder hheuristics
  obtain ⟨hp₁, gen₁, hgen₁, -, hdistance₁⟩ := hquiet.generation hlaws hp hgen
  obtain ⟨hupto, gen₂', hgen₂', -, hfinite, hstart⟩ := searchableStart_ok hp₁ hgen₁ hsearchable
  obtain rfl := Option.some.inj (hgen₂.symm.trans hgen₂')
  have hp₂ := (hupto.keeps hlaws hp₁).1
  obtain ⟨hrun₀, hextends, hseen⟩ := SearchRun.forM_enqueue_ok
    ⟨by simp, by simp [SearchRun.depth?, NodeMap.get?_empty]⟩
    (Edit.result_eq_ok.1 henqueue)
  -- the search itself
  obtain ⟨hquiet', gen₃, hgen₃, hreached, hhandled⟩ :=
    visitAll_ok hlaws hp₂ hgen₂ holder hrun₀ hvisit
  obtain ⟨hp₃, gen₃', hgen₃', hkept, hdistance₃⟩ := hquiet'.generation hlaws hp₂ hgen₂
  obtain rfl := Option.some.inj (hgen₃.symm.trans hgen₃')
  obtain ⟨gen', rfl, hsettle'⟩ := run_settle_ok hgen₃ hsettle
  simp only [run_bind_ok, run_generation_ok, run_lift_ok, demand_eq_ok, Bool.or_eq_true] at h₆
  obtain ⟨_, _, ⟨hgen', rfl⟩, decided, _, hany, refuted, _, hall, hend, rfl⟩ := h₆
  rw [Progress.get?_put_self hgen₃] at hgen'
  obtain rfl := Option.some.inj hgen'
  obtain ⟨rfl, hdecided⟩ := run_anyM_finite_ok hany
  obtain ⟨rfl, hrefuted⟩ := run_allM_ok (fun _ _ _ _ hrun => (run_distance_ok.1 hrun).choose_spec.2.2) hall
  refine ⟨p₃, gen₃, run, gen', hquiet.upto.trans (hupto.trans hquiet'.upto), hgen₃,
    fun id d hd => hdistance₁ id _ (hfinite id d (hdistance₃ id _ hd rfl)) rfl, fun hfull hstop => ?_,
    rfl, hend.imp (fun h => hdecided h) fun h i hi => ?_, hsettle'⟩
  · obtain ⟨hempty, hhandled⟩ :=
      hhandled (by rw [hfull]; rfl) (hextends.stop.trans hstop) (by simp [hextends.finished])
    -- nothing is left waiting
    have hfinished : ∀ i, run.Reached gen₃ i → i ∈ run.finished ∨ gen₃.Hopeless i := fun i hi =>
      hi.imp_left fun hi => hi.resolve_right (by simp [hempty])
    refine ⟨run.finished, fun i hi => ?_, fun i hi => (hhandled i hi).mono hfinished⟩
    obtain hi | hi := hstart i hi
    · exact hfinished i (hreached i (hseen i hi))
    · exact .inr (.inr (hkept.distance hi rfl))
  · obtain ⟨d, hd, hinfinite, -⟩ := run_distance_ok.1 (hrefuted h i hi)
    exact hd.trans (congrArg _ (Distance.isInfinite_iff.1 hinfinite))

/-- Targets are settled at distance 0. -/
theorem forM_settleTarget_ok {targets : List NodeId} {u : Unit}
    (htargets : ∀ i ∈ targets, ∃ n, gen.graph.get? i = some n ∧ n.isTarget = true)
    (h : (targets.forM fun id => do
      let _ ← ensureHeuristic setup older index id
      setDistance index id .zero).run p = .ok (u, q)) :
    Upto setup index p q ∧ ∃ gen', q.history.get? index = some gen' ∧ gen.Keeps gen' ∧
      OnlyTargets gen gen' ∧ ∀ i ∈ targets, gen'.distance i = .ok .zero := by
  induction targets generalizing p gen with
  | nil =>
    obtain ⟨-, rfl⟩ : () = u ∧ p = q := run_pure_ok.1 h
    exact ⟨.refl p, gen, hgen, .refl gen, fun _ _ hd _ => .inl hd, by simp⟩
  | cons id targets ih =>
    obtain ⟨r, hfirst, hrest⟩ := run_forM_cons_ok.1 h
    obtain ⟨_, s, hensure, hwrite⟩ := run_bind_ok.1 hfirst
    obtain ⟨gen₁, gen₂, hgen₁, hset, rfl⟩ := run_setDistance_ok.1 hwrite
    obtain ⟨hquiet, -, gen₁', hgen₁', hgraph, -, -⟩ := ensureHeuristic_ok holder hp hgen hensure
    obtain rfl := Option.some.inj (hgen₁.symm.trans hgen₁')
    obtain ⟨hs, gen₁', hgen₁', hkept, hdistance⟩ := hquiet.generation hlaws hp hgen
    obtain rfl := Option.some.inj (hgen₁.symm.trans hgen₁')
    obtain ⟨n, hn, htarget⟩ := htargets id List.mem_cons_self
    have hwrites := Generation.DistanceWrites.of_setDistance hset
    have hsettle : Settle setup index s (s.put index gen₂) :=
      .target hgen₁ (hgraph ▸ hn) htarget hset
    obtain ⟨hupto, gen', hgen', hkept', honly, hall⟩ := ih (hsettle.keeps hs).1
      (Progress.get?_put_self hgen₁)
      (fun i hi => by
        rw [hwrites.graph, hgraph]
        exact htargets i (List.mem_cons_of_mem _ hi)) hrest
    refine ⟨hquiet.upto.trans (hsettle.upto.trans hupto), gen', hgen',
      hkept.trans ((Generation.Keeps.of_distanceWrites hwrites).trans hkept'), fun i d hi hknown => ?_,
      List.forall_mem_cons.2 ⟨hkept'.distance (Generation.distance_self_of_setDistance hset).1 rfl,
        hall⟩⟩
    rcases honly i d hi hknown with hi | hzero
    · rcases Generation.distance_of_setDistance hset hi with ⟨rfl, rfl⟩ | hi
      · -- the target that was just settled is still one
        obtain ⟨n', hn', hgrows⟩ := hkept'.grows.node (hwrites.graph ▸ hgraph ▸ hn)
        exact .inr ⟨rfl, n', hn', hgrows.isTarget.trans htarget⟩
      · exact .inl (hdistance i d hi hknown)
    · exact .inr hzero

/-- **Solving a generation decides its start nodes.** It goes on in steps, save that an exhaustive
search is settled in its own way. -/
theorem solve_ok (h : (solve setup older index start stop).run p = .ok ((), q)) :
    (∃ gen', q.history.get? index = some gen' ∧ Decided start gen') ∧
      (Upto setup index p q ∧ (setup.search = .full → ∀ gen', q.history.get? index = some gen' →
          OnlyTargets gen gen' ∧ ∃ i ∈ start, ∃ d, gen'.distance i = .ok (.finite d)) ∨
        setup.search = .full ∧ ∃ mid gen₁ run gen', Upto setup index p mid ∧
          mid.history.get? index = some gen₁ ∧
          (∀ id d, gen₁.distance id = .ok (.finite d) → gen.distance id = .ok (.finite d)) ∧
          (stop = .fullExploration → Exhausted start gen₁) ∧
          gen₁.settleExhaustive run = .ok gen' ∧ q = mid.put index gen') := by
  simp only [solve, run_bind_ok, run_generation_ok] at h
  obtain ⟨_, _, ⟨hgen', rfl⟩, found, _, hany, h⟩ := h
  obtain rfl := Option.some.inj (hgen.symm.trans hgen')
  obtain ⟨rfl, hfound⟩ := run_anyM_finite_ok hany
  split at h
  · rename_i htrue
    obtain ⟨-, rfl⟩ := run_pure_ok.1 h
    refine ⟨⟨gen, hgen, .inl (hfound htrue)⟩, .inl ⟨.refl p, fun _ gen' hgen' => ?_⟩⟩
    obtain rfl := Option.some.inj (hgen.symm.trans hgen')
    exact ⟨fun _ _ hd _ => .inl hd, hfound htrue⟩
  · obtain ⟨targets, _, hfilter, hrest⟩ := run_bind_ok.1 h
    obtain ⟨rfl, hmem⟩ := run_filterM_ok (by
      intro a b r r' hrun
      simp only [run_bind_ok, run_lift_ok, run_pure_ok] at hrun
      obtain ⟨_, _, ⟨-, rfl⟩, -, rfl⟩ := hrun
      rfl) hfilter
    split at hrest
    · obtain ⟨mid, gen₁, run, gen', hupto, hgen₁, hfinite, hexhausted, rfl, hdecided, hsettle⟩ :=
        search_ok hlaws hp hgen holder hrest
      have hput : (mid.put index gen').history.get? index = some gen' :=
        Progress.get?_put_self hgen₁
      obtain ⟨hfull, hsettle⟩ | ⟨hguided, hsettle⟩ := hsettle
      · exact ⟨⟨gen', hput, hdecided⟩, .inr ⟨hfull, mid, gen₁, run, gen', hupto, hgen₁, hfinite,
          hexhausted hfull, hsettle, rfl⟩⟩
      · exact ⟨⟨gen', hput, hdecided⟩, .inl ⟨hupto.trans (Settle.upto (.guided hgen₁ hsettle)),
          fun hfull => absurd hfull hguided⟩⟩
    · rename_i hsome
      have htarget : ∀ i ∈ targets, i ∈ start ∧ ∃ n, gen.graph.get? i = some n ∧ n.isTarget = true := by
        intro i hi
        obtain ⟨hstart, hrun⟩ := (hmem i).1 hi
        simp only [run_bind_ok, run_lift_ok, Graph.node_eq_ok, run_pure_ok] at hrun
        obtain ⟨n, _, ⟨hn, rfl⟩, htarget, -⟩ := hrun
        exact ⟨hstart, n, hn, htarget⟩
      obtain ⟨hupto, gen', hgen', -, honly, hall⟩ :=
        forM_settleTarget_ok hlaws hp hgen holder (fun i hi => (htarget i hi).2) hrest
      obtain ⟨i, hi⟩ := List.exists_mem_of_ne_nil targets (by simpa using hsome)
      refine ⟨⟨gen', hgen', .inl ⟨i, (htarget i hi).1, 0, hall i hi⟩⟩, .inl ⟨hupto, ?_⟩⟩
      intro _ gen'' hgen''
      obtain rfl := Option.some.inj (hgen'.symm.trans hgen'')
      exact ⟨honly, i, (htarget i hi).1, 0, hall i hi⟩

/-! ## Targets whose successors are needed -/

/-- Nodes get search nodes, and those that are targets are settled; the graph stays as it is. -/
theorem forM_settleNew_ok {ids : List NodeId}
    (hparent : ∀ i ∈ ids, ∀ n parent, gen.graph.get? i = some n → n.parent = some parent →
      ∃ d, gen.heuristic parent = .ok d ∧ d.isKnown = true) {u : Unit}
    (h : (ids.forM fun succ => do
      createSearchNode setup older index succ
      if (← node index succ).isTarget then
        setHeuristic index succ .zero
        setDistance index succ .zero).run p = .ok (u, q)) :
    Upto setup index p q ∧ ∃ gen', q.history.get? index = some gen' ∧ gen'.graph = gen.graph := by
  refine run_forM_induct (motive := fun r => Upto setup index p r ∧
    ∃ gen', r.history.get? index = some gen' ∧ gen'.graph = gen.graph) ?_ ⟨.refl p, gen, hgen, rfl⟩ h
  rintro succ r r' hsucc ⟨hupto, gen₁, hr, hgraph⟩ hstep
  obtain ⟨hr', hkept⟩ := hupto.keeps hlaws hp
  obtain ⟨gen₁', hgen₁', hkept⟩ := hkept index gen hgen
  obtain rfl := Option.some.inj (hr.symm.trans hgen₁')
  obtain ⟨_, r₁, hcreate, hrest⟩ := run_bind_ok.1 hstep
  obtain ⟨hquiet, gen₂, hr₁, hgraph'⟩ := createSearchNode_ok holder hr' hlaws hr
    (fun m parent hm hparent' => by
      obtain ⟨d, hd, hknown⟩ := hparent succ hsucc m parent (hgraph ▸ hm) hparent'
      exact ⟨d, hkept.heuristic hd hknown, hknown⟩) hcreate
  simp only [run_bind_ok, run_node_ok, Graph.node_eq_ok] at hrest
  obtain ⟨m, _, ⟨_, hgen', hm, rfl⟩, hrest⟩ := hrest
  obtain rfl := Option.some.inj (hr₁.symm.trans hgen')
  split at hrest
  · rename_i hm'
    simp only [run_bind_ok, run_setHeuristic_ok, run_setDistance_ok] at hrest
    obtain ⟨_, _, ⟨_, gen₃, hgen₂, hset, rfl⟩, _, gen₄, hgen₃, hset', rfl⟩ := hrest
    obtain rfl := Option.some.inj (hr₁.symm.trans hgen₂)
    rw [Progress.get?_put_self hr₁] at hgen₃
    obtain rfl := Option.some.inj hgen₃
    obtain ⟨_, _, -, -, -, hrewrites, -⟩ := Generation.setHeuristic_ok hset
    have hgen₃ : (r₁.put index gen₃).history.get? index = some gen₃ := Progress.get?_put_self hr₁
    have hstep : Step setup index r₁ (r₁.put index gen₃) := .heuristic hr₁ (.target hm hm') hset
    have hsettle : Settle setup index (r₁.put index gen₃) _ :=
      .target hgen₃ (hrewrites.graph ▸ hm) hm' hset'
    refine ⟨hupto.trans (hquiet.upto.trans (hstep.quiet.upto.trans hsettle.upto)), gen₄,
      Progress.get?_put_self hgen₃, ?_⟩
    rw [(Generation.DistanceWrites.of_setDistance hset').graph, hrewrites.graph, hgraph', hgraph]
  · obtain ⟨-, rfl⟩ := run_pure_ok.1 hrest
    exact ⟨hupto.trans hquiet.upto, gen₂, hr₁, hgraph'.trans hgraph⟩

/-- The new successors of a target get search nodes, and those that are targets are settled. -/
theorem expandTarget_ok {n : Node S} (hn : gen.graph.get? id = some n) (hfree : n.covering = none)
    (hopen : n.isExpanded = false) (htarget : n.isTarget = true) {d : Distance}
    (hd : gen.heuristic id = .ok d) (hknown : d.isKnown = true)
    (hclosed : gen.Uncoverable setup.analysis id)
    (h : (expandTarget setup older index id).run p = .ok ((), q)) : Upto setup index p q := by
  obtain ⟨new, r, hexpand, hloop⟩ := run_bind_ok.1 h
  obtain ⟨hquiet, gen', -, hr, -, -, -, hparent⟩ := expand_added hlaws hp hgen hn hfree hopen
    (.inl htarget) hd hknown (.inl htarget) hclosed hexpand
  exact hquiet.upto.trans
    (forM_settleNew_ok hlaws (hquiet.keeps hlaws hp).1 hr holder hparent hloop).1

theorem openTarget_ok {fuel : Nat} (htarget : ∀ n, gen.graph.get? id = some n → n.isTarget = true)
    (h : (openTarget setup older index fuel id).run p = .ok ((), q)) : Upto setup index p q := by
  induction fuel generalizing p gen id with
  | zero => exact (run_throw_ok.1 h).elim
  | succ fuel ih =>
    simp only [openTarget, run_bind_ok, run_node_ok, Graph.node_eq_ok] at h
    obtain ⟨n, _, ⟨_, hgen', hn, rfl⟩, h⟩ := h
    obtain rfl := Option.some.inj (hgen.symm.trans hgen')
    split at h
    · rename_i coverer hcovering
      simp only [run_bind_ok, run_node_ok, run_lift_ok, Graph.node_eq_ok, demand_eq_ok] at h
      obtain ⟨m, _, ⟨_, hgen', hm, rfl⟩, _, _, ⟨hm', rfl⟩, h⟩ := h
      obtain rfl := Option.some.inj (hgen.symm.trans hgen')
      exact ih hp hgen (fun m' hcoverer => Option.some.inj (hm.symm.trans hcoverer) ▸ hm') h
    · rename_i hfree
      split at h
      · obtain ⟨-, rfl⟩ := run_pure_ok.1 h
        exact .refl p
      · rename_i hopen
        simp only [run_bind_ok] at h
        obtain ⟨d, p₁, hensure, result, p₂, hclose, h⟩ := h
        obtain ⟨hquiet, hknown, gen₁, hgen₁, hgraph, -, hd⟩ :=
          ensureHeuristic_ok holder hp hgen hensure
        obtain ⟨hp₁, -⟩ := hquiet.keeps hlaws hp
        obtain ⟨hquiet', gen₂, hgen₂, hcovered, hclosed⟩ := close_ok holder hp₁ hlaws hgen₁
          (fun a ha => .inl (htarget a (hgraph ▸ ha))) hclose
        obtain ⟨hp₂, gen₂', hgen₂', hkept, -⟩ := hquiet'.generation hlaws hp₁ hgen₁
        obtain rfl := Option.some.inj (hgen₂.symm.trans hgen₂')
        refine hquiet.upto.trans (hquiet'.upto.trans ?_)
        cases result with
        | some coverer =>
          refine ih hp₂ hgen₂ (fun m hm => ?_) h
          obtain ⟨m', hm', hgrows⟩ := hkept.grows.node (hgraph ▸ hn)
          obtain rfl := Option.some.inj (hm.symm.trans hm')
          exact hgrows.isTarget.trans (htarget n hn)
        | none =>
          have hgraph' : gen₂.graph = gen₁.graph := hcovered
          exact expandTarget_ok hlaws hp₂ hgen₂ holder (hgraph' ▸ hgraph ▸ hn) hfree
            (by simpa using hopen) (htarget n hn) (hkept.heuristic hd hknown) hknown (hclosed rfl) h

theorem openProvider_ok (h : (openProvider setup older index id).run p = .ok ((), q)) :
    Upto setup index p q := by
  simp only [openProvider, run_bind_ok, run_node_ok, Graph.node_eq_ok] at h
  obtain ⟨n, _, ⟨_, hgen', hn, rfl⟩, h⟩ := h
  obtain rfl := Option.some.inj (hgen.symm.trans hgen')
  split at h
  · rename_i htarget
    exact openTarget_ok hlaws hp hgen holder
      (fun m hm => Option.some.inj (hn.symm.trans hm) ▸ htarget) h
  · split at h
    · simp only [run_bind_ok, run_node_ok, Graph.node_eq_ok] at h
      obtain ⟨m, _, ⟨_, hgen', hm, rfl⟩, h⟩ := h
      obtain rfl := Option.some.inj (hgen.symm.trans hgen')
      split at h
      · rename_i htarget
        exact openTarget_ok hlaws hp hgen holder
          (fun m' hm' => Option.some.inj (hm.symm.trans hm') ▸ htarget) h
      · obtain ⟨-, rfl⟩ := run_lift_ok.1 h
        exact .refl p
    · obtain ⟨-, rfl⟩ := run_lift_ok.1 h
      exact .refl p

end

/-! ## Older generations -/

omit [DecidableEq S] [DecidableEq K] in
theorem exists_of_run_generation {α : Type} {f : Generation S P K → Explore S P K α} {a : α}
    (h : (Explore.generation index >>= f).run p = .ok (a, q)) :
    ∃ gen, p.history.get? index = some gen := by
  obtain ⟨gen, _, hread, -⟩ := run_bind_ok.1 h
  exact ⟨gen, (run_generation_ok.1 hread).1⟩

omit [DecidableEq S] [DecidableEq K] in
theorem exists_of_run_node {α : Type} {f : Node S → Explore S P K α} {a : α}
    (h : (Explore.node index id >>= f).run p = .ok (a, q)) :
    ∃ gen, p.history.get? index = some gen := by
  obtain ⟨_, _, hread, -⟩ := run_bind_ok.1 h
  obtain ⟨gen, hgen, -⟩ := run_node_ok.1 hread
  exact ⟨gen, hgen⟩

/-- **Older generations are only changed in steps**, by induction on their index. -/
theorem below_lawful (hlaws : setup.analysis.Lawful) (bound : Nat) :
    (below setup bound).Lawful setup allowed bound := by
  induction bound with
  | zero => exact ⟨fun _ _ _ _ _ _ hlt => by omega, fun _ _ _ _ _ hlt => by omega⟩
  | succ bound ih =>
    refine ⟨fun hsemi index start stop p q hlt h hp => ?_, fun hsemi index id p q hlt h hp => ?_⟩
    · obtain ⟨gen, hgen⟩ := exists_of_run_generation h
      obtain ⟨-, ⟨hupto, -⟩ | ⟨hfull, -⟩⟩ :=
        solve_ok hlaws hp hgen (ih.mono (Nat.le_of_lt_succ hlt)) h
      · exact hupto
      · simp [hsemi] at hfull
    · obtain ⟨gen, hgen⟩ := exists_of_run_node h
      exact openProvider_ok hlaws hp hgen (ih.mono (Nat.le_of_lt_succ hlt)) h

/-! ## The live generation -/

theorem ensureInitialized_ok (hlaws : setup.analysis.Lawful)
    (hp : p.history.Faithful setup.analysis allowed) (hgen : p.history.get? index = some gen)
    (h : (ensureInitialized setup index).run p = .ok ((), q)) :
    Quiet setup index p q ∧
      ∃ gen', q.history.get? index = some gen' ∧ gen'.graph.isInitialized = true := by
  simp only [ensureInitialized, run_bind_ok, run_generation_ok] at h
  obtain ⟨_, _, ⟨hgen', rfl⟩, h⟩ := h
  obtain rfl := Option.some.inj (hgen.symm.trans hgen')
  split at h
  · rename_i hinitialized
    obtain ⟨-, rfl⟩ := run_pure_ok.1 h
    exact ⟨.refl p, gen, hgen, hinitialized⟩
  · rename_i hopen
    have hopen : gen.graph.isInitialized = false := by simpa using hopen
    obtain ⟨new, r, hedit, hcreate⟩ := run_bind_ok.1 h
    obtain ⟨_, graph, hgen', hseed, rfl⟩ := run_editGraph_ok.1 hedit
    obtain rfl := Option.some.inj (hgen.symm.trans hgen')
    obtain ⟨hfaithful, hprec⟩ := hp index gen hgen
    obtain ⟨-, hadded, hinitialized⟩ := Graph.seed_ok hfaithful hopen hprec hseed
    have hstep : Step setup index p (p.put index { gen with graph }) := .seed hgen hopen hseed
    obtain ⟨hquiet, gen', hgen', hgraph⟩ := forM_createSearchNode_ok hlaws (hstep.keeps hlaws hp).1
      (Progress.get?_put_self hgen) (below_lawful hlaws index)
      (fun i hi n parent hn hparent => by
        simp [hadded.parent_eq hi hn] at hparent) hcreate
    exact ⟨hstep.quiet.trans hquiet, gen', hgen', hgraph ▸ hinitialized⟩

/-- Solving the live generation, all of whose nodes have search nodes: it is completed first. -/
theorem solveLive_ok (h : (solveLive setup index [] stop).run p = .ok ((), q)) :
    ∃ mid, (ensureInitialized setup index).run p = .ok ((), mid) ∧
      ∃ gen, mid.history.get? index = some gen ∧
        (solve setup (below setup index) index gen.graph.initNodes stop).run mid = .ok ((), q) := by
  obtain ⟨_, _, hnone, h⟩ := run_bind_ok.1 h
  obtain ⟨-, rfl⟩ := run_pure_ok.1 hnone
  obtain ⟨⟨⟩, mid, hinitialized, h⟩ := run_bind_ok.1 h
  obtain ⟨gen, _, hread, h⟩ := run_bind_ok.1 h
  obtain ⟨hgen, rfl⟩ := run_generation_ok.1 hread
  exact ⟨mid, hinitialized, gen, hgen, h⟩

/-- **Solving the live generation works on the history**, and an exhaustive search only writes
distances after that. -/
theorem solveLive_works (hlaws : setup.analysis.Lawful)
    (hp : p.history.Faithful setup.analysis allowed) (hgen : p.history.get? index = some gen)
    (h : (solveLive setup index [] stop).run p = .ok ((), q)) :
    ∃ mid, Works setup p mid ∧ (setup.search ≠ .full → q = mid) ∧
      ∀ {i gen'}, q.history.get? i = some gen' →
        ∃ gen₁, mid.history.get? i = some gen₁ ∧ gen₁.DistanceWrites gen' := by
  obtain ⟨begun, hbegun, gen₁, hgen₁, hsolve⟩ := solveLive_ok h
  obtain ⟨hquiet, -⟩ := ensureInitialized_ok hlaws hp hgen hbegun
  have hbegun := (hquiet.keeps hlaws hp).1
  obtain ⟨-, ⟨hupto, -⟩ | ⟨hfull, mid, gen₂, run, last, hupto, hgen₂, -, -, hsettle, rfl⟩⟩ :=
    solve_ok hlaws hbegun hgen₁ (below_lawful hlaws index) hsolve
  · exact ⟨q, hquiet.works.trans hupto.works, fun _ => rfl,
      fun {i gen'} hgen' => ⟨gen', hgen', .refl gen'⟩⟩
  · refine ⟨mid, hquiet.works.trans hupto.works, fun hguided => absurd hfull hguided,
      fun {i gen'} hgen' => ?_⟩
    rw [Progress.get?_put hgen₂] at hgen'
    split at hgen'
    · rename_i hi
      exact ⟨gen₂, hi ▸ hgen₂,
        Option.some.inj hgen' ▸ Generation.settleExhaustive_writes hsettle⟩
    · exact ⟨gen', hgen', .refl gen'⟩

end GuidedReach.Exploration
