import GuidedReach.Proofs.Exploration.FoundNodes
import GuidedReach.Proofs.Exploration.MovingRounds
import GuidedReach.Proofs.SearchRun.Found

/-!
# Searches and rounds find their search nodes

A search looks up the nodes that it starts from, the nodes that it hands out, and those that these are
linked with; all of them are in the graph of its generation, and so they have search nodes.

* `Exploration.finds_visitAll`, `Exploration.finds_solve` — a search.
* `Exploration.finds_openProvider` — a provider that is a target is given its successors.
* `Exploration.below_tidying` — so the searches in older generations find theirs, by induction.
* `Exploration.finds_solveLive`, `Exploration.finds_resumeLive` — the live generation.
-/

namespace GuidedReach

open Explore Progress

variable {S P K : Type} [DecidableEq K]

/-- The nodes that a search started from and those it reached are in the graph of a generation. -/
def Progress.Within (p : Progress S P K) (index : Nat) (run : SearchRun) : Prop :=
  ∀ i, i ∈ run.start ∨ i ∈ run.reached → p.Holds index i

variable {analysis : Analysis S P K} {pending : List NodeId} {index : Nat} {p q : Progress S P K}
variable {run : SearchRun} {gen : Generation S P K} {id : NodeId}

theorem Progress.Tidies.within (h : p.Tidies analysis pending index q) (hrun : p.Within index run) :
    q.Within index run :=
  fun i hi => h.holds (hrun i hi)

omit [DecidableEq K] in
theorem Progress.Within.of_run (hgen : p.history.get? index = some gen) (h : run.Within gen) :
    p.Within index run := by
  rintro i (hi | hi)
  · exact (h.start i hi).elim fun n hn => ⟨gen, n, hgen, hn⟩
  · exact (h.reached i hi).elim fun n hn => ⟨gen, n, hgen, hn⟩

omit [DecidableEq K] in
theorem Progress.Within.inGraph (h : p.Within index run) (hgen : p.history.get? index = some gen) :
    run.Within gen :=
  ⟨fun i hi => (h i (.inl hi)).exists hgen, fun i hi => (h i (.inr hi)).exists hgen⟩

namespace Exploration

variable {setup : Setup S P K} {older : Older S P K}

/-! ## Visiting nodes -/

section

variable (holder : older.Tidying setup.analysis index)
variable (h : p.history.Tidy setup.analysis [] index) (hrun : p.Within index run)

include holder h

/-- A node at the end of an edge is let to wait. -/
theorem finds_follow {next : NodeId} {depth : Nat} (hrun : p.Within index run)
    (hid : p.Holds index id) (hnext : p.Holds index next) :
    (follow setup older index run id next depth).Finds p fun run' q =>
      p.Tidies setup.analysis [] index q ∧ q.Within index run' := by
  refine (finds_ensureHeuristic holder h hnext).bind fun _ q _ hq => ?_
  refine finds_generation_bind fun gen hgen => ?_
  have hgen' := hq.tidy.furnished hgen
  have hid' := (hq.holds hid).exists hgen
  have hnext' := (hq.holds hnext).exists hgen
  refine finds_lift_bind (Generation.finds_checkConsistent (hgen'.registered hid'.choose_spec)
    (hgen'.registered hnext'.choose_spec)) fun _ _ _ => ?_
  refine finds_lift_bind (SearchRun.finds_enqueue hgen' hnext' ((hq.within hrun).inGraph hgen))
    fun result _ hresult => ?_
  exact finds_pure ⟨hq, .of_run hgen hresult⟩

theorem finds_reroute (hid : p.Holds index id) (hrun : p.Within index run) :
    (reroute setup older index run id).Finds p fun result q =>
      p.Tidies setup.analysis [] index q ∧ q.Holds index result.1 ∧ q.Within index result.2 := by
  refine (finds_close holder h).bind fun coverer q _ hq => ?_
  have hstay : p.Tidies setup.analysis [] index q ∧ q.Holds index id ∧ q.Within index run :=
    ⟨hq, hq.holds hid, hq.within hrun⟩
  split
  · split
    · rename_i parent hparent
      refine finds_generation_bind fun gen hgen => finds_lift_bind Graph.finds_node fun n _ hn => ?_
      split
      · rename_i hcovering
        have hgen' := hq.tidy.furnished hgen
        obtain ⟨m, hm⟩ := hgen'.exists_coverer hn hcovering
        refine finds_lift_bind (Generation.finds_checkConsistent (hgen'.registered hn)
          (hgen'.registered hm)) fun _ _ _ => finds_pure ⟨hq, ⟨gen, n, hgen, hn⟩, hstay.2.2⟩
      · exact finds_pure hstay
    · exact finds_pure hstay
  · exact finds_pure hstay

variable [DecidableEq S]

theorem finds_ensureExpanded :
    (ensureExpanded setup older index id).Finds p fun _ q =>
      p.Tidies setup.analysis [] index q := by
  refine finds_node_bind fun gen n hgen hn => ?_
  split
  · exact finds_pure (.refl h)
  · rename_i hopen
    refine (finds_expand h hgen hn (by simpa using hopen)).bind fun new q _ hq => ?_
    exact (finds_forM_createSearchNode holder hq.tidy).mono fun _ _ _ hr => hq.trans hr

/-- **A node is visited** without missing a search node. -/
theorem finds_visit {depth : Nat} (hid : p.Holds index id) (hrun : p.Within index run) :
    (visit setup older index run id depth).Finds p fun run' q =>
      p.Tidies setup.analysis [] index q ∧ q.Within index run' := by
  refine (finds_reroute holder h hid hrun).bind fun result q _ hrerouted => ?_
  obtain ⟨hq, hid', hrun'⟩ := hrerouted
  obtain ⟨id', run'⟩ := result
  refine finds_node_bind fun gen n hgen hn => ?_
  dsimp only
  split
  · rename_i coverer hcovering
    obtain ⟨m, hm⟩ := (hq.tidy.furnished hgen).exists_coverer hn hcovering
    exact (finds_follow holder hq.tidy hrun' hid' ⟨gen, m, hgen, hm⟩).mono fun _ _ _ hlast =>
      ⟨hq.trans hlast.1, hlast.2⟩
  split
  · exact finds_pure ⟨hq, hrun'⟩
  refine (finds_ensureExpanded holder hq.tidy).bind fun _ r _ hr => ?_
  refine finds_node_bind fun gen' n' hgen' hn' => ?_
  have hsuccs : ∀ i ∈ n'.succs, r.Holds index i := fun i hi => by
    obtain ⟨m, hm⟩ := (hr.tidy.furnished hgen').exists_succ hn' hi
    exact ⟨gen', m, hgen', hm⟩
  -- what is left of the list stays in the graph
  refine (finds_foldlM (motive := fun run rest s => p.Tidies setup.analysis [] index s ∧
    s.Within index run ∧ s.Holds index id' ∧ ∀ i ∈ rest, s.Holds index i)
    (fun run succ rest s hloop => ?_)
    ⟨hq.trans hr, hr.within hrun', hr.holds hid', hsuccs⟩).mono fun _ _ _ hlast =>
      ⟨hlast.1, hlast.2.1⟩
  obtain ⟨hs, hrun, hid, hrest⟩ := hloop
  obtain ⟨hsucc, hrest⟩ := List.forall_mem_cons.1 hrest
  refine (finds_follow holder hs.tidy hrun hid hsucc).mono fun _ _ _ hnext => ?_
  obtain ⟨ht, hrun'⟩ := hnext
  exact ⟨hs.trans ht, hrun', ht.holds hid, fun i hi => ht.holds (hrest i hi)⟩

theorem finds_visitAll (fuel : Nat) (hrun : p.Within index run) :
    (visitAll setup older index fuel run).Finds p fun run' q =>
      p.Tidies setup.analysis [] index q ∧ q.Within index run' := by
  induction fuel generalizing p run with
  | zero => exact finds_outOfFuel
  | succ fuel ih =>
    refine finds_generation_bind fun gen hgen => ?_
    refine finds_lift_bind (SearchRun.finds_next (h.furnished hgen) (hrun.inGraph hgen))
      fun result _ ⟨hwithin, hnext⟩ => ?_
    obtain ⟨next, run'⟩ := result
    cases next with
    | none => exact finds_pure ⟨.refl h, .of_run hgen hwithin⟩
    | some entry =>
      obtain ⟨id, depth⟩ := entry
      obtain ⟨n, hn⟩ := hnext (id, depth) rfl
      refine (finds_visit holder h ⟨gen, n, hgen, hn⟩ (.of_run hgen hwithin)).bind
        fun run₂ q _ ⟨hq, hrun₂⟩ => ?_
      exact (ih hq.tidy hrun₂).mono fun _ _ _ ⟨hr, hlast⟩ => ⟨hq.trans hr, hlast⟩

end

/-! ## Solving -/

section

variable {start : List NodeId} {stop : StopCriterion}
variable (holder : older.Tidying setup.analysis index)
variable (h : p.history.Tidy setup.analysis [] index)

include h

/-- What is searched from is among the start nodes. -/
theorem finds_searchableStart (hstart : ∀ i ∈ start, p.Holds index i) :
    (searchableStart index start).Finds p fun searched q =>
      p.Tidies setup.analysis [] index q ∧ ∀ i ∈ searched, q.Holds index i := by
  induction start generalizing p with
  | nil => exact finds_pure ⟨.refl h, by simp⟩
  | cons id rest ih =>
    obtain ⟨hid, hrest⟩ := List.forall_mem_cons.1 hstart
    refine finds_generation_bind fun gen hgen => ?_
    have hgen' := h.furnished hgen
    refine finds_lift_bind (hgen'.finds_heuristic (hid.exists hgen)) fun d _ _ => ?_
    split
    · refine (finds_setDistance h List.not_mem_nil).bind fun _ q _ hq => ?_
      exact (ih hq.tidy fun i hi => hq.holds (hrest i hi)).mono fun _ _ _ hlast =>
        ⟨hq.trans hlast.1, hlast.2⟩
    refine finds_lift_bind (hgen'.finds_distance (hid.exists hgen)) fun d _ _ => ?_
    split
    · exact ih h hrest
    · refine (ih h hrest).bind fun searched q _ hlast => finds_pure ⟨hlast.1, ?_⟩
      exact List.forall_mem_cons.2 ⟨hlast.1.holds hid, hlast.2⟩

theorem finds_settle (hrun : p.Within index run) :
    (settle setup index run).Finds p fun _ q => p.Tidies setup.analysis [] index q := by
  refine finds_generation_bind fun gen hgen => ?_
  have hgen' := h.furnished hgen
  have hwithin := hrun.inGraph hgen
  split
  · exact finds_lift_bind hgen'.finds_settleExhaustive fun gen' _ hwrites =>
      finds_putGeneration.mono fun _ _ _ hq => hq ▸ .put_of_distanceWrites h hgen hwrites
  · exact finds_lift_bind (hgen'.finds_settleGuided hwithin.start hwithin.reached)
      fun gen' _ hwrites => finds_putGeneration.mono fun _ _ _ hq =>
        hq ▸ .put_of_distanceWrites h hgen hwrites

include holder

/-- The heuristics of some nodes are made known. -/
theorem finds_forM_ensureHeuristic {ids : List NodeId} (hids : ∀ i ∈ ids, p.Holds index i) :
    (ids.forM fun id => do let _ ← ensureHeuristic setup older index id).Finds p fun _ q =>
      p.Tidies setup.analysis [] index q := by
  refine (finds_forM (motive := fun rest q => p.Tidies setup.analysis [] index q ∧
    ∀ i ∈ rest, q.Holds index i) (fun id rest q ⟨hq, hrest⟩ => ?_) ⟨.refl h, hids⟩).mono
      fun _ _ _ hlast => hlast.1
  obtain ⟨hid, hrest⟩ := List.forall_mem_cons.1 hrest
  exact (finds_ensureHeuristic holder hq.tidy hid).bind fun _ r _ hr =>
    finds_pure ⟨hq.trans hr, fun i hi => hr.holds (hrest i hi)⟩

variable [DecidableEq S]

theorem finds_search (hstart : ∀ i ∈ start, p.Holds index i) :
    (search setup older index start stop).Finds p fun _ q =>
      p.Tidies setup.analysis [] index q := by
  refine (finds_forM_ensureHeuristic holder h hstart).bind fun _ p₁ _ h₁ => ?_
  refine (finds_searchableStart h₁.tidy fun i hi => h₁.holds (hstart i hi)).bind
    fun searched p₂ _ ⟨h₂, hsearched⟩ => ?_
  refine finds_generation_bind fun gen hgen => ?_
  have hgen' := h₂.tidy.furnished hgen
  have hrun₀ : SearchRun.Within { start := searched, stop } gen :=
    ⟨fun i hi => (hsearched i hi).exists hgen, by simp⟩
  have henqueue : (searched.forM fun id => SearchRun.enqueue gen id none 0).Finds
      { start := searched, stop } fun _ run => run.Within gen :=
    Edit.finds_forM (fun i hi _ hrun =>
      SearchRun.finds_enqueue hgen' ((hsearched i hi).exists hgen) hrun) hrun₀
  refine finds_lift_bind henqueue fun result _ hrun₁ => ?_
  refine (finds_visitAll holder h₂.tidy _ (.of_run hgen hrun₁)).bind fun run p₃ _ ⟨h₃, hrun⟩ => ?_
  refine (finds_settle h₃.tidy hrun).bind fun _ p₄ _ h₄ => ?_
  have htidies := ((h₁.trans h₂).trans h₃).trans h₄
  refine finds_generation_bind fun gen₄ hgen₄ => ?_
  have hread : ∀ i ∈ start, GuidedReach.Finds (gen₄.distance i) fun _ => True := fun i hi =>
    (h₄.tidy.furnished hgen₄).finds_distance ((htidies.holds (hstart i hi)).exists hgen₄)
  refine (finds_anyM fun i hi => finds_lift_bind (hread i hi) fun _ _ _ => finds_pure rfl).bind
    fun decided _ _ hsame => ?_
  subst hsame
  refine (finds_allM fun i hi => finds_lift_bind (hread i hi) fun _ _ _ => finds_pure rfl).bind
    fun refuted _ _ hsame => ?_
  subst hsame
  refine (finds_lift (finds_demand ?_)).mono fun _ _ _ ⟨_, hsame⟩ => hsame ▸ htidies
  exact fun h => h

/-- **A search finds its search nodes.** -/
theorem finds_solve (hstart : ∀ i ∈ start, p.Holds index i) :
    (solve setup older index start stop).Finds p fun _ q =>
      p.Tidies setup.analysis [] index q := by
  refine finds_generation_bind fun gen hgen => ?_
  have hgen' := h.furnished hgen
  refine (finds_anyM fun i hi => finds_lift_bind (hgen'.finds_distance ((hstart i hi).exists hgen))
    fun _ _ _ => finds_pure rfl).bind fun decided p₁ _ hsame => ?_
  subst hsame
  split
  · exact finds_pure (.refl h)
  refine (finds_filterM fun i _ => finds_lift_bind Graph.finds_node fun _ _ _ =>
    finds_pure rfl).bind fun targets p₂ _ hfiltered => ?_
  obtain ⟨rfl, htargets⟩ := hfiltered
  split
  · exact finds_search holder h hstart
  refine (finds_forM (motive := fun rest q => p₂.Tidies setup.analysis [] index q ∧
    ∀ i ∈ rest, q.Holds index i) (fun id rest q hloop => ?_)
    ⟨.refl h, fun i hi => hstart i (htargets i hi)⟩).mono fun _ _ _ hlast => hlast.1
  obtain ⟨hq, hrest⟩ := hloop
  obtain ⟨hid, hrest⟩ := List.forall_mem_cons.1 hrest
  refine (finds_ensureHeuristic holder hq.tidy hid).bind fun _ r _ hr => ?_
  exact (finds_setDistance hr.tidy List.not_mem_nil).mono fun _ _ _ ht =>
    ⟨(hq.trans hr).trans ht, fun i hi => ht.holds (hr.holds (hrest i hi))⟩

end

/-! ## Providers that are targets -/

section

variable {top : Nat} (holder : older.Tidying setup.analysis index)

include holder

omit holder in
/-- A check changes nothing. -/
theorem finds_check (h : p.history.Tidy setup.analysis pending index) {condition : Bool}
    {fault : Fault} (hfault : ¬ fault.IsMissing) :
    (liftM (demand condition fault) : Explore S P K Unit).Finds p fun _ q =>
      p.Tidies setup.analysis pending index q :=
  (finds_lift (finds_demand hfault)).mono fun _ _ _ ⟨_, hsame⟩ => hsame.symm ▸ .refl h

/-- A new successor gets its search node, and its values if it is a target. -/
theorem finds_settleNew {succ : NodeId} (h : p.history.Tidy setup.analysis (succ :: pending) index) :
    (do
      createSearchNode setup older index succ
      if (← node index succ).isTarget then
        setHeuristic index succ .zero
        setDistance index succ .zero : Explore S P K Unit).Finds p fun _ q =>
      p.Tidies setup.analysis pending index q := by
  refine (finds_createSearchNode holder h).bind fun _ q hcreate hq => ?_
  obtain ⟨gen, hgen⟩ := exists_of_run_generation hcreate
  have hsucc := (h.filed hgen).head_notMem
  refine finds_node_bind fun _ n _ _ => ?_
  split
  · refine (finds_setHeuristic hq.tidy hsucc).bind fun _ r _ hr => ?_
    exact (finds_setDistance hr.tidy hsucc).mono fun _ _ _ hs => (hq.trans hr).trans hs
  · exact finds_pure hq

variable [DecidableEq S] (h : p.history.Tidy setup.analysis [] index)

include h

theorem finds_expandTarget (hgen : p.history.get? index = some gen) {n : Node S}
    (hn : gen.graph.get? id = some n) (hopen : n.isExpanded = false) :
    (expandTarget setup older index id).Finds p fun _ q =>
      p.Tidies setup.analysis [] index q := by
  refine (finds_expand h hgen hn hopen).bind fun new q _ hq => ?_
  exact finds_forM (motive := fun rest r => p.Tidies setup.analysis rest index r)
    (fun _ _ _ hr => (finds_settleNew holder hr.tidy).mono fun _ _ _ hs => hr.trans hs) hq

theorem finds_openTarget (hmoving : older.Moving setup top index) (fuel : Nat)
    (hid : p.Holds index id) :
    (openTarget setup older index fuel id).Finds p fun _ q =>
      p.Tidies setup.analysis [] index q := by
  induction fuel generalizing p id with
  | zero => exact finds_outOfFuel
  | succ fuel ih =>
    refine finds_node_bind fun gen n hgen hn => ?_
    split
    · rename_i coverer hcovering
      refine finds_node_bind fun gen' m hgen' hm => ?_
      exact finds_lift_bind (finds_demand fun h => h) fun _ _ _ => ih h ⟨gen', m, hgen', hm⟩
    split
    · exact finds_pure (.refl h)
    · rename_i hopen
      refine (finds_ensureHeuristic holder h hid).bind fun _ q hensure hq => ?_
      refine (finds_close holder hq.tidy).bind fun result r hclose hr => ?_
      obtain ⟨-, -, gen₁, hgen₁, hgraph, -⟩ := ensureHeuristic_moves hmoving hgen hensure
      obtain ⟨-, gen₂, hgen₂, hsame, -⟩ := close_moves hmoving hgen₁ hclose
      have htidies := hq.trans hr
      cases result with
      | some coverer =>
        exact (ih hr.tidy (htidies.holds hid)).mono fun _ _ _ hs => htidies.trans hs
      | none =>
        have hn₂ : gen₂.graph.get? id = some n := by rw [hsame rfl, hgraph, hn]
        exact (finds_expandTarget holder hr.tidy hgen₂ hn₂ (by simpa using hopen)).mono
          fun _ _ _ hs => htidies.trans hs

theorem finds_openProvider (hmoving : older.Moving setup top index) (hid : p.Holds index id) :
    (openProvider setup older index id).Finds p fun _ q =>
      p.Tidies setup.analysis [] index q := by
  refine finds_node_bind fun gen n hgen hn => ?_
  split
  · exact finds_openTarget holder h hmoving _ hid
  split
  · refine finds_node_bind fun gen' m hgen' hm => ?_
    split
    · exact finds_openTarget holder h hmoving _ ⟨gen', m, hgen', hm⟩
    · exact finds_check h fun h => h
  · exact finds_check h fun h => h

end

/-! ## Rounds -/

section

variable [DecidableEq S]

/-- **What is asked of older generations finds its search nodes**, by induction on their index. -/
theorem below_tidying (setup : Setup S P K) (bound : Nat) :
    (below setup bound).Tidying setup.analysis bound := by
  induction bound with
  | zero => exact ⟨fun hlt => absurd hlt (Nat.not_lt_zero _), fun hlt => absurd hlt (Nat.not_lt_zero _)⟩
  | succ bound ih =>
    have hmono : ∀ {index}, index < bound + 1 → (below setup bound).Tidying setup.analysis index :=
      fun hlt => ⟨fun hlt' => ih.solve (by omega), fun hlt' => ih.openProvider (by omega)⟩
    refine ⟨fun hlt h hstart => finds_solve (hmono hlt) h hstart, fun hlt h hid => ?_⟩
    exact finds_openProvider (hmono hlt) h
      ((below_moving (Nat.le_refl bound)).mono (Nat.le_of_lt_succ hlt)) hid

theorem finds_ensureInitialized (h : p.history.Tidy setup.analysis [] index) :
    (ensureInitialized setup index).Finds p fun _ q => p.Tidies setup.analysis [] index q := by
  refine finds_generation_bind fun gen hgen => ?_
  split
  · exact finds_pure (.refl h)
  · rename_i hopen
    refine (finds_editGraph fun _ => Graph.finds_seed).bind fun new q _ hedited => ?_
    obtain ⟨gen', graph, hgen', hrun, hq⟩ := hedited
    obtain rfl := Option.some.inj (hgen.symm.trans hgen')
    have hgrows := (Graph.seed_leaves (by simpa using hopen) hrun).grows
    have htidies : p.Tidies setup.analysis new index q := hq ▸ .put_of_grows h hgen hgrows
      ((h.wellFormed (Nat.le_refl _) hgen).seed hrun) (Graph.ids_seed hrun)
    exact (finds_forM_createSearchNode (below_tidying setup index) htidies.tidy).mono
      fun _ _ _ hr => htidies.trans hr

/-- **The live generation is solved** without missing a search node. -/
theorem finds_solveLive {fresh : List NodeId} {stop : StopCriterion}
    (h : p.history.Tidy setup.analysis fresh index) :
    (solveLive setup index fresh stop).Finds p fun _ q => p.Tidies setup.analysis [] index q := by
  have holder := below_tidying setup index
  refine (finds_forM_createSearchNode holder h).bind fun _ q _ hq => ?_
  refine (finds_ensureInitialized hq.tidy).bind fun _ r _ hr => ?_
  refine finds_generation_bind fun gen hgen => ?_
  refine (finds_solve holder hr.tidy fun i hi => ?_).mono fun _ _ _ hs => (hq.trans hr).trans hs
  obtain ⟨n, hn, -⟩ := (hr.tidy.wellFormed (Nat.le_refl _) hgen).init_parentless hi
  exact ⟨gen, n, hgen, hn⟩

omit [DecidableEq S] in
/-- A covering edge is removed, or kept. -/
theorem finds_loosen (h : p.history.Tidy setup.analysis [] index) :
    (loosen index id).Finds p fun _ q => p.Tidies setup.analysis [] index q := by
  refine finds_generation_bind fun gen hgen => finds_lift_bind Graph.finds_node fun n _ hn => ?_
  have hgen' := h.furnished hgen
  split
  · rename_i coverer hcovering
    refine finds_lift_bind (hgen'.finds_heuristic (hgen'.exists_coverer hn hcovering)) fun _ _ _ =>
      finds_lift_bind (hgen'.finds_heuristic ⟨n, hn⟩) fun _ _ _ =>
        finds_lift_bind Distance.finds_lt fun less _ _ => ?_
    split
    · refine (finds_editGraph fun _ => Graph.finds_uncover).mono fun _ q _ hedited => ?_
      obtain ⟨gen₁, graph, hgen₁, hrun, rfl⟩ := hedited
      have hwf := h.wellFormed (Nat.le_refl _) hgen₁
      obtain ⟨_, -, hrewritten⟩ := Graph.uncover_ok hwf hrun
      refine .put_of_graph h hgen₁ (hwf.uncover hrun) ?_ fun hn =>
        ⟨_, hrewritten.get?_of_get? hn⟩
      exact (h.filed hgen₁).of_graph (hrewritten.ids.trans (List.append_nil _).symm) fun hn =>
        ⟨_, hrewritten.get?_of_get? hn, rfl⟩
    · exact finds_pure (.refl h)
  · exact finds_pure (.refl h)

/-- **The live generation is prepared for the next check** without missing a search node. -/
theorem finds_resumeLive (h : p.history.Tidy setup.analysis [] index) :
    (resumeLive setup index).Finds p fun _ q => p.Tidies setup.analysis [] index q := by
  unfold resumeLive
  split
  · refine finds_generation_bind fun gen hgen => ?_
    refine (finds_forM_ensureHeuristic (below_tidying setup index) h fun i hi => ?_).bind
      fun _ q _ hq => ?_
    · obtain ⟨n, hn⟩ := Graph.mem_ids.1 hi
      exact ⟨gen, n, hgen, hn⟩
    · exact finds_forM (motive := fun _ r => p.Tidies setup.analysis [] index r)
        (fun _ _ _ hr => (finds_loosen hr.tidy).mono fun _ _ _ hs => hr.trans hs) hq
  · exact finds_pure (.refl h)

end

end Exploration

end GuidedReach
