import GuidedReach.Proofs.Exploration.Confined
import GuidedReach.Proofs.Exploration.Rounds
import GuidedReach.Proofs.Finishes

/-!
# Searches come to an end

While no graph exceeds a size, no exploration goes on for ever, provided that what it asks of older
generations does not. The fuel is only spent by searches, and these hand out every node once.

* `Older.Ends` — what an exploration relies on in older generations.
* `Exploration.ensureHeuristic_finishes`, `Exploration.createSearchNode_finishes`,
  `Exploration.close_finishes` — the operations on single nodes.
* `Exploration.visitAll_finishes` — a search hands out each node once.
* `Exploration.solve_finishes` — solving a generation finishes.
-/

namespace GuidedReach

variable {S P K : Type} [DecidableEq S] [DecidableEq K]

/-- What is asked of older generations, on demand, finishes while no graph exceeds a size. -/
structure Older.Ends (older : Older S P K) (setup : Setup S P K) (allowed : P → Prop)
    (size bound : Nat) : Prop where
  solve : setup.search = .semiOnDemand → ∀ {index start stop} {p : Progress S P K}, index < bound →
    Exploration.Confined setup allowed size p → (older.solve index start stop).Finishes p
  openProvider : setup.search = .semiOnDemand → ∀ {index id} {p : Progress S P K}, index < bound →
    Exploration.Confined setup allowed size p → (older.openProvider index id).Finishes p

theorem Older.Ends.mono {older : Older S P K} {setup : Setup S P K} {allowed : P → Prop}
    {size bound index : Nat} (h : older.Ends setup allowed size bound) (hle : index ≤ bound) :
    older.Ends setup allowed size index :=
  ⟨fun hsemi _ _ _ _ hlt => h.solve hsemi (Nat.lt_of_lt_of_le hlt hle),
    fun hsemi _ _ _ hlt => h.openProvider hsemi (Nat.lt_of_lt_of_le hlt hle)⟩

namespace Exploration

open Explore

variable {setup : Setup S P K} {older : Older S P K} {index size : Nat} {allowed : P → Prop}
variable {p q : Progress S P K} {gen : Generation S P K} {run : SearchRun} {id : NodeId}
variable {start : List NodeId} {stop : StopCriterion}

section

variable (hlaws : setup.analysis.Lawful) (hends : older.Ends setup allowed size index)

include hlaws hends

/-! ## Heuristics

Older generations are only asked when heuristics are found on demand. -/

section

variable (hp : setup.search = .semiOnDemand → Confined setup allowed size p)

include hp

theorem heuristicWithoutDistance_finishes :
    (heuristicWithoutDistance setup older index id).Finishes p := by
  unfold heuristicWithoutDistance
  refine finishes_generation_bind fun gen _ => ?_
  split
  · exact finishes_fail
  · rename_i hsemi
    refine finishes_lift_bind fun k _ => ?_
    split
    · refine finishes_bind finishes_count fun _ q hcount => ?_
      have hstep : Step setup index p q := .count (by rw [run_count_ok.1 hcount])
      refine finishes_lift_bind fun _ hlt => ?_
      have hcounted := (hp hsemi).works hlaws hstep.works
      refine finishes_bind
        (hends.solve hsemi (by simpa using demand_eq_ok.1 hlt) hcounted) fun _ _ _ => ?_
      exact finishes_generation_bind fun _ _ => finishes_lift_bind fun _ _ =>
        finishes_lift_bind fun _ _ => finishes_pure
    · exact finishes_fail
  · refine finishes_lift_bind fun n _ => ?_
    split
    · exact finishes_pure
    · refine finishes_lift_bind fun above _ => ?_
      split
      · exact finishes_pure
      · exact finishes_pure
      · exact finishes_fail

omit [DecidableEq S] [DecidableEq K] hlaws hends hp in
theorem inheritedDistance_finishes :
    (inheritedDistance index id : Explore S P K Distance).Finishes p := by
  unfold inheritedDistance
  refine finishes_generation_bind fun gen _ => finishes_lift_bind fun k _ => ?_
  split
  · exact finishes_generation_bind fun _ _ => finishes_lift
  · exact finishes_pure

theorem computeHeuristic_finishes : (computeHeuristic setup older index id).Finishes p := by
  unfold computeHeuristic
  refine finishes_generation_bind fun gen hgen =>
    finishes_bind inheritedDistance_finishes fun inherited q hinherited => ?_
  obtain ⟨hsame, -⟩ : q = p ∧ (_ → Source setup _ _ _ _) := inheritedDistance_ok hgen hinherited
  rw [hsame]
  refine finishes_lift_bind fun n _ => ?_
  split
  · exact finishes_lift_bind fun _ _ => finishes_pure
  · split
    · exact finishes_pure
    · split
      · exact finishes_pure
      · exact heuristicWithoutDistance_finishes hlaws hends hp

theorem ensureHeuristic_finishes : (ensureHeuristic setup older index id).Finishes p := by
  unfold ensureHeuristic
  refine finishes_generation_bind fun gen _ => finishes_lift_bind fun k _ => ?_
  split
  · exact finishes_pure
  · exact finishes_bind (computeHeuristic_finishes hlaws hends hp) fun _ _ _ =>
      finishes_bind finishes_setHeuristic fun _ _ _ => finishes_pure

end

/-! ## Providers -/

section

variable (hp : Confined setup allowed size p)

include hp

omit hlaws in
theorem askForSuccessors_finishes {below : Nat} {provider : NodeId} :
    (askForSuccessors setup older index below provider).Finishes p := by
  unfold askForSuccessors
  split
  · rename_i hexpands
    have hsemi : setup.search = .semiOnDemand := by
      cases hs : setup.search <;> simp_all [SearchType.expandsProviders]
    exact finishes_lift_bind fun _ hlt =>
      hends.openProvider hsemi (by simpa using demand_eq_ok.1 hlt) hp
  · exact finishes_pure

omit [DecidableEq S] [DecidableEq K] hlaws hends hp in
theorem uncoveredProvider_finishes {below : Nat} {provider : NodeId} :
    (uncoveredProvider index below id provider : Explore S P K NodeId).Finishes p := by
  unfold uncoveredProvider
  refine finishes_node_bind fun _ m _ _ => ?_
  split
  · exact finishes_generation_bind fun _ _ => finishes_lift_bind fun _ _ =>
      finishes_bind finishes_putGeneration fun _ _ _ => finishes_pure
  · exact finishes_pure

omit hlaws in
theorem providerCandidates_finishes {below : Nat} :
    (providerCandidates setup older index below id).Finishes p := by
  unfold providerCandidates
  refine finishes_generation_bind fun gen _ => finishes_lift_bind fun n _ => ?_
  split
  · refine finishes_lift_bind fun k _ => ?_
    split
    · refine finishes_bind (askForSuccessors_finishes hends hp) fun _ _ _ =>
        finishes_bind uncoveredProvider_finishes fun _ _ _ => finishes_node_bind fun _ above _ _ => ?_
      split
      · exact finishes_pure
      · exact finishes_lift_bind fun _ _ => finishes_pure
    · exact finishes_lift_bind fun _ _ => finishes_pure
  · exact finishes_generation_bind fun _ _ => finishes_pure

omit hlaws in
theorem findProvider_finishes {below : Nat} :
    (findProvider setup older index below id).Finishes p := by
  unfold findProvider
  refine finishes_bind (providerCandidates_finishes hends hp) fun candidates _ _ =>
    finishes_generation_bind fun _ _ => finishes_generation_bind fun _ _ =>
      finishes_lift_bind fun n _ => ?_
  refine finishes_bind
    (finishes_filterM fun _ _ => finishes_lift_bind fun _ _ => finishes_pure) fun subsuming _ _ => ?_
  refine finishes_bind
    (finishes_mapM fun _ _ => finishes_lift_bind fun _ _ => finishes_pure) fun distances _ _ => ?_
  dsimp only
  split
  · exact finishes_lift_bind fun _ _ => finishes_pure
  · exact finishes_pure

omit hlaws in
theorem createSearchNode_finishes : (createSearchNode setup older index id).Finishes p := by
  unfold createSearchNode
  refine finishes_generation_bind fun gen _ => ?_
  split
  · exact finishes_bind (findProvider_finishes hends hp) fun _ _ _ =>
      finishes_generation_bind fun _ _ => finishes_lift_bind fun _ _ => finishes_putGeneration
  · exact finishes_bind finishes_pure fun _ _ _ =>
      finishes_generation_bind fun _ _ => finishes_lift_bind fun _ _ => finishes_putGeneration

variable (holder : older.Lawful setup allowed index)

include holder

/-! ## Covering and expanding -/

theorem coverByOneOf_finishes {isTarget : Bool} {above : Distance} {candidates : List NodeId} :
    (coverByOneOf setup older index id isTarget above candidates).Finishes p := by
  induction candidates generalizing p with
  | nil => exact finishes_pure
  | cons candidate rest ih =>
    unfold coverByOneOf
    refine finishes_generation_bind fun gen hgen => finishes_lift_bind fun b _ => ?_
    split
    · exact ih hp
    · refine finishes_lift_bind fun may _ => ?_
      split
      · exact ih hp
      · refine finishes_bind (ensureHeuristic_finishes hlaws hends fun _ => hp) fun below q hensure =>
          finishes_lift_bind fun less _ => ?_
        obtain ⟨hquiet, -⟩ := ensureHeuristic_ok holder hp.faithful hgen hensure
        split
        · exact ih (hp.works hlaws hquiet.works)
        · exact finishes_bind finishes_editGraph fun _ _ _ =>
            finishes_bind finishes_count fun _ _ _ => finishes_pure

theorem close_finishes : (close setup older index id).Finishes p := by
  unfold close
  refine finishes_generation_bind fun gen _ => finishes_lift_bind fun n _ => ?_
  split
  · exact finishes_pure
  · exact finishes_lift_bind fun _ _ => finishes_lift_bind fun _ _ => finishes_lift_bind fun _ _ =>
      coverByOneOf_finishes hlaws hends hp holder

omit [DecidableEq K] hlaws hends hp holder in
theorem expand_finishes : (expand setup index id).Finishes p := by
  unfold expand
  exact finishes_generation_bind fun _ _ => finishes_bind finishes_editGraph fun _ _ _ =>
    finishes_bind finishes_count fun _ _ _ => finishes_pure

/-- New nodes get search nodes one by one. -/
theorem forM_createSearchNode_finishes (hgen : p.history.get? index = some gen) {ids : List NodeId}
    (hparent : ∀ i ∈ ids, ∀ n parent, gen.graph.get? i = some n → n.parent = some parent →
      ∃ d, gen.heuristic parent = .ok d ∧ d.isKnown = true) :
    (ids.forM (createSearchNode setup older index)).Finishes p := by
  refine finishes_forM fun before i after q heq hrun => ?_
  obtain ⟨hquiet, -⟩ := forM_createSearchNode_ok hlaws hp.faithful hgen holder
    (fun j hj => hparent j (heq ▸ List.mem_append_left _ hj)) hrun
  exact createSearchNode_finishes hends (hp.works hlaws hquiet.works)

theorem ensureExpanded_finishes (hgen : p.history.get? index = some gen) {n : Node S}
    (hn : gen.graph.get? id = some n) (hfree : n.covering = none) (hfeasible : n.isFeasible = true)
    (hid : gen.Searchable id) (hclosed : gen.Uncoverable setup.analysis id) :
    (ensureExpanded setup older index id).Finishes p := by
  unfold ensureExpanded
  refine finishes_node_bind fun _ n' hgen' hn' => ?_
  obtain rfl := Option.some.inj (hgen.symm.trans hgen')
  obtain rfl := Option.some.inj (hn.symm.trans hn')
  split
  · exact finishes_pure
  · rename_i hopen
    refine finishes_bind expand_finishes fun new q hexpand => ?_
    obtain ⟨d, hd, hknown, hsearched⟩ := hid
    obtain ⟨hquiet, gen', -, hq, -, -, -, hparent⟩ := expand_added hlaws hp.faithful hgen hn hfree
      (by simpa using hopen) (.inr hfeasible) hd hknown (.inr hsearched) hclosed hexpand
    exact forM_createSearchNode_finishes hlaws hends (hp.works hlaws hquiet.works) holder hq hparent

/-! ## Searching -/

omit holder in
theorem follow_finishes {next : NodeId} {depth : Nat} :
    (follow setup older index run id next depth).Finishes p := by
  unfold follow
  exact finishes_bind (ensureHeuristic_finishes hlaws hends fun _ => hp) fun _ _ _ =>
    finishes_generation_bind fun _ _ => finishes_lift_bind fun _ _ =>
      finishes_lift_bind fun _ _ => finishes_pure

theorem foldlM_follow_finishes (hgen : p.history.get? index = some gen) (hrun : run.Orderly gen)
    {succs : List NodeId} {depth : Nat} :
    (succs.foldlM (fun run succ => follow setup older index run id succ depth) run).Finishes p := by
  refine finishes_foldlM fun before succ after run' q heq hfold => ?_
  obtain ⟨hquiet, -⟩ := foldlM_follow_ok hlaws hp.faithful hgen holder hrun hfold
  exact follow_finishes hlaws hends (hp.works hlaws hquiet.works)

theorem reroute_finishes : (reroute setup older index run id).Finishes p := by
  unfold reroute
  refine finishes_bind (close_finishes hlaws hends hp holder) fun result _ _ => ?_
  split
  · split
    · refine finishes_generation_bind fun gen _ => finishes_lift_bind fun n _ => ?_
      split
      · exact finishes_lift_bind fun _ _ => finishes_pure
      · exact finishes_pure
    · exact finishes_pure
  · exact finishes_pure

theorem visit_finishes (hgen : p.history.get? index = some gen) (hrun : run.Orderly gen)
    (hid : gen.Searchable id) {depth : Nat} :
    (visit setup older index run id depth).Finishes p := by
  unfold visit
  refine finishes_bind (reroute_finishes hlaws hends hp holder) fun ⟨id', mid⟩ q hreroute => ?_
  obtain ⟨hquiet, gen', result, hq, -, hmid, -, hstay, hmoved⟩ :=
    reroute_ok hlaws hp.faithful hgen holder hrun hid hreroute
  have hp' := hp.works hlaws hquiet.works
  refine finishes_node_bind fun gen₁ n hgen₁ hn => ?_
  obtain rfl := Option.some.inj (hq.symm.trans hgen₁)
  split
  · exact follow_finishes hlaws hends hp'
  · rename_i hfree
    split
    · exact finishes_pure
    · rename_i hfeasible
      have hnone : result = none := by
        cases result with
        | none => rfl
        | some c =>
          obtain ⟨n', hn', hcov⟩ := hmoved c rfl
          obtain rfl := Option.some.inj (hn.symm.trans hn')
          simp [hfree] at hcov
      obtain ⟨rfl, hclosed⟩ := hstay hnone
      have hid' := hquiet.searchable hlaws hp.faithful hgen hq hid
      have hfeasible : n.isFeasible = true := by simpa using hfeasible
      refine finishes_bind (ensureExpanded_finishes hlaws hends hp' holder hq hn hfree hfeasible hid'
        hclosed) fun _ r hensure => ?_
      obtain ⟨hquiet', gen₁, -, hr, -⟩ :=
        ensureExpanded_ok hlaws hp'.faithful hq holder hn hfree hfeasible hid' hclosed hensure
      refine finishes_node_bind fun _ _ _ _ => ?_
      exact foldlM_follow_finishes hlaws hends (hp'.works hlaws hquiet'.works) holder hr
        (hquiet'.orderly hlaws hp'.faithful hq hr hmid)

/-- **A search finishes**: it hands out each node once, and there are only so many of them. -/
theorem visitAll_finishes (hgen : p.history.get? index = some gen) (hrun : run.Orderly gen)
    (hcounted : run.Counted gen.graph) {fuel : Nat} (hfuel : size < run.finished.length + fuel) :
    (visitAll setup older index fuel run).Finishes p := by
  induction fuel generalizing p gen run with
  | zero =>
    have hsize := hp.size_le (.refl p) hgen
    have hlength := hcounted.length_le
    omega
  | succ fuel ih =>
    refine finishes_generation_bind fun _ hgen' => finishes_lift_bind fun ⟨next, mid⟩ hnext => ?_
    obtain rfl := Option.some.inj (hgen.symm.trans hgen')
    rw [Edit.result_eq_ok] at hnext
    obtain ⟨hmid, hlength⟩ := SearchRun.next_counted hcounted hnext
    have hout := SearchRun.next_ok hnext
    cases next with
    | none => exact finishes_pure
    | some entry =>
      obtain ⟨id, depth⟩ := entry
      obtain ⟨e, he, rfl⟩ := hout.waited rfl
      have hid := hrun.searchable e he
      refine finishes_bind (visit_finishes hlaws hends hp holder hgen (hout.orderly hrun) hid)
        fun run₁ q hvisit => ?_
      obtain ⟨hquiet, gen₁, hq, hrun₁, hextends, -⟩ :=
        visit_ok hlaws hp.faithful hgen holder (hout.orderly hrun) hid hvisit
      obtain ⟨-, gen₂, hgen₂, hkept, -⟩ := hquiet.generation hlaws hp.faithful hgen
      obtain rfl := Option.some.inj (hq.symm.trans hgen₂)
      refine ih (hp.works hlaws hquiet.works) hq hrun₁ ⟨?_, fun i hi => ?_⟩ ?_
      · exact hextends.finished ▸ hmid.nodup
      · obtain ⟨n, hn⟩ := hmid.held i (hextends.finished ▸ hi)
        obtain ⟨n', hn', -⟩ := hkept.grows.node hn
        exact ⟨n', hn'⟩
      · rw [hextends.finished]
        simp only [Option.toList_some, List.length_singleton] at hlength
        omega

omit [DecidableEq S] [DecidableEq K] hlaws hends hp holder in
theorem searchableStart_finishes :
    (searchableStart index start : Explore S P K (List NodeId)).Finishes p := by
  induction start generalizing p with
  | nil => exact finishes_pure
  | cons id start ih =>
    unfold searchableStart
    refine finishes_generation_bind fun gen _ => finishes_lift_bind fun d _ => ?_
    split
    · exact finishes_bind finishes_setDistance fun _ _ _ => ih
    · refine finishes_lift_bind fun e _ => ?_
      split
      · exact ih
      · exact finishes_bind ih fun _ _ _ => finishes_pure

omit [DecidableEq S] [DecidableEq K] hlaws hends hp holder in
theorem settle_finishes : (settle setup index run).Finishes p := by
  unfold settle
  refine finishes_generation_bind fun gen _ => ?_
  split
  · exact finishes_lift_bind fun _ _ => finishes_putGeneration
  · exact finishes_lift_bind fun _ _ => finishes_putGeneration

theorem search_finishes (hgen : p.history.get? index = some gen) (hfuel : size < setup.fuel) :
    (search setup older index start stop).Finishes p := by
  unfold search
  refine finishes_bind (finishes_forM fun before id after q heq hrun => ?_) fun _ p₁ hheuristics => ?_
  · have hquiet := forM_ensureHeuristic_ok hlaws hp.faithful hgen holder hrun
    exact finishes_bind (ensureHeuristic_finishes hlaws hends fun _ => hp.works hlaws hquiet.works)
      fun _ _ _ => finishes_pure
  have hquiet := forM_ensureHeuristic_ok hlaws hp.faithful hgen holder hheuristics
  have hp₁ := hp.works hlaws hquiet.works
  obtain ⟨-, gen₁, hgen₁, -⟩ := hquiet.generation hlaws hp.faithful hgen
  refine finishes_bind searchableStart_finishes fun searched p₂ hsearchable => ?_
  obtain ⟨hupto, -⟩ := searchableStart_ok hp₁.faithful hgen₁ hsearchable
  have hp₂ := hp₁.works hlaws hupto.works
  refine finishes_generation_bind fun gen₂ hgen₂ => finishes_lift_bind fun ⟨⟨⟩, run₀⟩ henqueue => ?_
  obtain ⟨hrun₀, hextends, -⟩ := SearchRun.forM_enqueue_ok
    ⟨by simp, by simp [SearchRun.depth?, NodeMap.get?_empty]⟩ (Edit.result_eq_ok.1 henqueue)
  have hnone : run₀.finished = [] := hextends.finished
  refine finishes_bind (visitAll_finishes hlaws hends hp₂ holder hgen₂ hrun₀ ⟨?_, ?_⟩ ?_)
    fun run p₃ _ => ?_
  · simp [hnone]
  · simp [hnone]
  · simpa [hnone] using hfuel
  refine finishes_bind settle_finishes fun _ _ _ => finishes_generation_bind fun gen' _ => ?_
  refine finishes_bind
    (finishes_anyM fun _ _ => finishes_lift_bind fun _ _ => finishes_pure) fun _ _ _ => ?_
  exact finishes_bind
    (finishes_allM fun _ _ => finishes_lift_bind fun _ _ => finishes_pure) fun _ _ _ => finishes_lift

theorem solve_finishes (hfuel : size < setup.fuel) :
    (solve setup older index start stop).Finishes p := by
  unfold solve
  refine finishes_generation_bind fun gen hgen => ?_
  refine finishes_bind (finishes_anyM fun _ _ => finishes_lift_bind fun _ _ => finishes_pure)
    fun found q hany => ?_
  obtain ⟨rfl, -⟩ := run_anyM_finite_ok hany
  split
  · exact finishes_pure
  · refine finishes_bind (finishes_filterM fun _ _ => finishes_lift_bind fun _ _ => finishes_pure)
      fun targets q hfilter => ?_
    obtain ⟨rfl, hmem⟩ := run_filterM_ok (by
      intro a b r r' hrun
      simp only [run_bind_ok, run_lift_ok, run_pure_ok] at hrun
      obtain ⟨_, _, ⟨-, rfl⟩, -, rfl⟩ := hrun
      rfl) hfilter
    split
    · exact search_finishes hlaws hends hp holder hgen hfuel
    · refine finishes_forM fun before id after q heq hrun => ?_
      have htarget : ∀ i ∈ before, ∃ n, gen.graph.get? i = some n ∧ n.isTarget = true := by
        intro i hi
        obtain ⟨-, hread⟩ := (hmem i).1 (heq ▸ List.mem_append_left _ hi)
        simp only [run_bind_ok, run_lift_ok, Graph.node_eq_ok, run_pure_ok] at hread
        obtain ⟨n, _, ⟨hn, rfl⟩, htarget, -⟩ := hread
        exact ⟨n, hn, htarget⟩
      obtain ⟨hupto, -⟩ := forM_settleTarget_ok hlaws hp.faithful hgen holder htarget hrun
      exact finishes_bind (ensureHeuristic_finishes hlaws hends fun _ => hp.works hlaws hupto.works)
        fun _ _ _ => finishes_setDistance

end

end

end Exploration

end GuidedReach
