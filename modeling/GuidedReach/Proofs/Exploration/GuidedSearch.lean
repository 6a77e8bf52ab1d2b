import GuidedReach.Proofs.Exploration.GuidedNodes

/-!
# Guided searches

An exhaustive search whose heuristics come from the one before it meets no fault: they drop along no
edge by more than its weight, so that nodes are handed out in the order of their path lengths.

* `Exploration.Hosts.close`, `Exploration.Hosts.follow`, `Exploration.Hosts.ensureExpanded` — the
  parts of a visit.
* `Exploration.Hosts.visit`, `Exploration.Hosts.visitAll` — a visit, and all visits of a search.
-/

namespace GuidedReach

variable {S P K : Type}

/-- Whether a node may cover another one can be told, and a node that may is not covered itself. -/
theorem Graph.exists_mayCover {g : Graph S} (analysis : Analysis S P K) {id c : NodeId} {a b : Node S}
    (ha : g.get? id = some a) (hb : g.get? c = some b) :
    ∃ may, g.mayCover analysis id c = .ok may ∧
      (may = true → id ≠ c ∧ analysis.isLeq a.state b.state = true ∧ b.covering = none) := by
  by_cases heq : id = c
  · exact ⟨false, by simp [mayCover, heq, pure, Except.pure], by simp⟩
  · refine ⟨_, by simp [mayCover, heq, node_eq_ok.2 ha, node_eq_ok.2 hb, bind, Except.bind, pure,
      Except.pure]; rfl, fun hmay => ⟨heq, ?_⟩⟩
    rw [Bool.and_eq_true, List.all_eq_true] at hmay
    obtain ⟨hleq, hpath⟩ := hmay
    have hself : c ∈ g.ancestors c := by
      unfold ancestors ancestorsWithin
      split
      · exact List.mem_singleton.2 rfl
      · split <;> exact List.mem_cons_self
    have hopen := (Bool.and_eq_true _ _ ▸ hpath c hself).2
    simp only [test, hb, Option.any_some, Node.isSubsumed, Bool.not_eq_true', Bool.or_eq_false_iff] at hopen
    exact ⟨hleq, by simpa [Node.isCovered] using hopen.1⟩

/-- While no distance is finite, only targets count as reaching one. -/
theorem Generation.Guided.reachesTarget [DecidableEq K] {analysis : Analysis S P K}
    {allowed : P → Prop} {guide : Option (Generation S P K)} {gen : Generation S P K}
    (h : gen.Guided analysis allowed guide []) {i : NodeId} {n : Node S}
    (hn : gen.graph.get? i = some n) : gen.reachesTarget i = .ok n.isTarget := by
  obtain ⟨k, hk⟩ := h.registered hn List.not_mem_nil
  have hd : gen.distance i = .ok k.distance := distance_eq_ok.2 ⟨k, hk, rfl⟩
  have hopen := h.isFinite_distance hk
  cases htarget : n.isTarget <;>
    simp [Generation.reachesTarget, Graph.node_eq_ok.2 hn, htarget, hd, hopen, bind, Except.bind,
      pure, Except.pure]

namespace Exploration.Hosts

open Explore

variable [DecidableEq S] [DecidableEq K]
variable {setup : Setup S P K} {older : Older S P K} {index : Nat} {allowed : P → Prop} {far : Nat}
variable {guide : Option (Generation S P K)} {p q : Progress S P K} {gen gen' : Generation S P K}
variable {run : SearchRun} {pace depth : Nat} {id next : NodeId} {n : Node S} {k : SearchNode}

section

variable (h : Hosts setup allowed index guide [] p gen)
variable (hguide : ∀ charted, guide = some charted → charted.Charted setup.analysis allowed far)
variable (hlaws : setup.analysis.Lawful)

include h hguide hlaws

/-! ## Covering -/

omit [DecidableEq S] in
theorem coverByOneOf {a : Node S} (ha : gen.graph.get? id = some a) (hfree : a.covering = none)
    (hleaf : a.succs = []) (hopen : a.isExpanded = false) {isTarget : Bool} {above : Distance}
    (habove : gen.heuristic id = .ok above) (hknown : above.isKnown = true)
    {candidates : List NodeId}
    (hcandidates : ∀ c ∈ candidates, ∃ k, gen.searchNodes.get? c = some k) :
    (coverByOneOf setup older index id isTarget above candidates).Ensures p fun result q =>
      ∃ gen', Hosts setup allowed index guide [] q gen' ∧ gen.Keeps gen' ∧
        (result = none → gen'.graph = gen.graph) ∧
        ∀ c, result = some c → SearchRun.Judged gen' c ∧
          ∃ n, gen'.graph.get? id = some n ∧ n.covering = some c := by
  induction candidates generalizing p gen with
  | nil => exact ensures_pure.2 ⟨gen, h, .refl gen, fun _ => rfl, by simp⟩
  | cons c rest ih =>
    obtain ⟨k, hk⟩ := hcandidates c List.mem_cons_self
    have hrest := fun i hi => hcandidates i (List.mem_cons_of_mem c hi)
    obtain ⟨-, b, hb⟩ := h.guided.held hk
    obtain ⟨may, hmay, hcovers⟩ := Graph.exists_mayCover setup.analysis ha hb
    simp only [Exploration.coverByOneOf, ensures_bind, ensures_generation, ensures_lift,
      Graph.node_eq_ok]
    refine ⟨gen, h.held, b, hb, ?_⟩
    split
    · exact ih h ha habove hrest
    · simp only [ensures_bind, ensures_lift]
      refine ⟨may, hmay, ?_⟩
      split
      · exact ih h ha habove hrest
      · rename_i hyes
        obtain ⟨hne, hleq, hfree'⟩ := hcovers (by simpa using hyes)
        simp only [ensures_bind]
        refine (h.ensureHeuristic hguide hk hlaws).mono ?_
        rintro below q - ⟨-, mid, hmid, hgraph, hkeeps, hbelow, hknown'⟩
        have habove' := hkeeps.heuristic habove hknown
        simp only [ensures_lift]
        refine ⟨_, Distance.lt_eq_ok hknown' hknown, ?_⟩
        split
        · have hregistered : ∀ i ∈ rest, ∃ k, mid.searchNodes.get? i = some k := by
            intro i hi
            obtain ⟨k', hk'⟩ := hrest i hi
            obtain ⟨-, m, hm⟩ := h.guided.held hk'
            exact hmid.guided.registered (hgraph ▸ hm) List.not_mem_nil
          refine (ih hmid (hgraph ▸ ha) habove' hregistered).mono ?_
          rintro result q' - ⟨gen', hgen', hkeeps', hsame, hcovered⟩
          exact ⟨gen', hgen', hkeeps.trans hkeeps', fun hnone => (hsame hnone).trans hgraph, hcovered⟩
        · rename_i hle
          rw [← hgraph] at ha hb
          have hwf := hmid.guided.faithful.wellFormed
          obtain ⟨graph, hcover⟩ := Graph.exists_cover hwf ha hb hne hfree hfree'
          have hdrops : (mid.inherited guide id).Drops 0 (mid.inherited guide c) := by
            rw [← hmid.guided.heuristic_eq habove' hknown, ← hmid.guided.heuristic_eq hbelow hknown']
            exact (Distance.drops_zero_iff hknown hknown').2 (by simpa using hle)
          have hguided := hmid.guided.cover hlaws ha hb hleaf hopen hleq hdrops hcover
          have hgrows : mid.Keeps { mid with graph } := .of_grows (Graph.grows_of_cover hcover)
          simp only [ensures_bind, ensures_editGraph, ensures_count, ensures_pure]
          refine ⟨mid, hmid.held, (), graph, hcover, { mid with graph },
            (hmid.put hguided hgrows).congr rfl, hkeeps.trans hgrows, by simp, ?_⟩
          rintro _ ⟨⟩
          obtain ⟨-, a', b', ha', -, hb', -, hrewritten⟩ := Graph.cover_ok hwf hcover
          refine ⟨⟨⟨_, hrewritten.get?_of_get? hb'⟩, below, hbelow, hknown'⟩, _,
            hrewritten.get?_of_get? ha', ?_⟩
          simp [Graph.coverNode]

omit [DecidableEq S] in
/-- **A node can be closed**; either the graph stays as it is or the node is covered now. -/
theorem close (hid : SearchRun.Judged gen id) :
    (close setup older index id).Ensures p fun result q =>
      ∃ gen', Hosts setup allowed index guide [] q gen' ∧ gen.Keeps gen' ∧
        (result = none → gen'.graph = gen.graph) ∧
        ∀ c, result = some c → SearchRun.Judged gen' c ∧
          ∃ n, gen'.graph.get? id = some n ∧ n.covering = some c := by
  obtain ⟨⟨a, ha⟩, d, hd, hknown⟩ := hid
  simp only [Exploration.close, ensures_bind, ensures_generation, ensures_lift, Graph.node_eq_ok]
  refine ⟨gen, h.held, a, ha, ?_⟩
  split
  · exact ensures_pure.2 ⟨gen, h, .refl gen, fun _ => rfl, by simp⟩
  · rename_i hleaf
    simp only [Node.isCovered, Node.isLeaf, Bool.or_eq_true, Bool.not_eq_true', not_or,
      Bool.not_eq_true, Bool.not_eq_false, Option.isSome_eq_false_iff, Option.isNone_iff_eq_none,
      List.isEmpty_iff] at hleaf
    obtain ⟨⟨hfree, hopen⟩, hsuccs⟩ := hleaf
    simp only [ensures_bind, ensures_lift, demand_eq_ok]
    refine ⟨d, hd, (), hknown, gen.buckets.find (setup.analysis.key a.state), ?_,
      h.coverByOneOf hguide hlaws ha hfree hsuccs hopen hd hknown ?_⟩
    · simp only [Generation.coveringCandidates, bind_eq_ok, Graph.node_eq_ok, pure_eq_ok]
      exact ⟨a, ha, rfl⟩
    · exact fun c hc => h.guided.filed _ hc

/-! ## Following edges -/

omit [DecidableEq S] hlaws in
/-- **Known heuristics are consistent** along every edge. -/
theorem checkConsistent (hfar : far ≤ Distance.limit) {w : Nat} (hedge : gen.graph.Edge id next w)
    (hid : SearchRun.Judged gen id) (hnext : SearchRun.Judged gen next) :
    gen.checkConsistent id next = .ok () := by
  obtain ⟨⟨a, ha⟩, above, habove, hknown⟩ := hid
  obtain ⟨-, below, hbelow, hknown'⟩ := hnext
  have hdrops : above.Drops w below := by
    rw [h.guided.heuristic_eq habove hknown, h.guided.heuristic_eq hbelow hknown']
    exact h.guided.drops hedge List.not_mem_nil List.not_mem_nil
  have hweight : (if a.isCovered = true then 0 else 1) = w := by
    cases hedge with
    | tree hc hparent =>
      obtain ⟨m, hm, hsucc⟩ := h.guided.faithful.wellFormed.exists_parent hc hparent
      obtain rfl := Option.some.inj (ha.symm.trans hm)
      cases hcovering : a.covering with
      | none => simp [Node.isCovered, hcovering]
      | some c =>
        rw [(h.guided.faithful.covering ha hcovering).1] at hsucc
        cases hsucc
    | covering hi hcovering =>
      obtain rfl := Option.some.inj (ha.symm.trans hi)
      simp [Node.isCovered, hcovering]
  simp only [Generation.checkConsistent, bind_eq_ok, demand_eq_ok, Bool.and_eq_true]
  refine ⟨above, habove, below, hbelow, (), ⟨hknown, hknown'⟩, ?_⟩
  cases hdrops with
  | infinite =>
    cases above <;> simp [Distance.isInfinite, bind, Except.bind, demand, pure, Except.pure]
  | @finite m n hle =>
    have hm : m ≤ Distance.limit := by
      obtain ⟨k, hk, -⟩ := Generation.heuristic_eq_ok.1 habove
      exact (h.guided.inherited_le hguide hk (h.guided.heuristic_eq habove rfl).symm).trans hfar
    obtain ⟨sum, hsum, hle'⟩ := Distance.Drops.le_add (.finite hle) hm
    simp only [Distance.isInfinite, Bool.false_eq_true, and_self, if_false, Bool.not_false,
      bind_eq_ok, demand_eq_ok, Graph.node_eq_ok]
    exact ⟨(), trivial, a, ha, sum, hweight.symm ▸ hsum, true, hle', rfl⟩

omit [DecidableEq S] in
/-- **An edge can be followed** to a node that is not behind the pace. -/
theorem follow {w : Nat} (hroom : run.finished.length + far ≤ Distance.limit)
    (hrun : run.Paced gen pace) (hedge : gen.graph.Edge id next w) (hid : SearchRun.Judged gen id)
    (hdepth : depth ≤ run.finished.length)
    (hpace : ∀ v, gen.inherited guide next = .finite v → pace ≤ depth + v) :
    (follow setup older index run id next depth).Ensures p fun run' q =>
      ∃ gen', Hosts setup allowed index guide [] q gen' ∧ gen'.graph = gen.graph ∧
        gen.Keeps gen' ∧ run'.Paced gen' pace ∧ run'.finished = run.finished := by
  obtain ⟨-, n, hn⟩ := hedge.exists_nodes h.guided.faithful.wellFormed
  obtain ⟨k, hk⟩ := h.guided.registered hn List.not_mem_nil
  simp only [Exploration.follow, ensures_bind]
  refine (h.ensureHeuristic hguide hk hlaws).mono ?_
  rintro d q - ⟨hd, mid, hmid, hgraph, hkeeps, hd', hknown⟩
  obtain ⟨l, hl, rfl⟩ := Generation.heuristic_eq_ok.1 hd'
  have hnext : SearchRun.Judged mid next := ⟨⟨n, hgraph ▸ hn⟩, _, hd', hknown⟩
  have hopen := hmid.guided.isFinite_distance hl
  have hcheck : mid.checkConsistent id next = .ok () :=
    hmid.checkConsistent hguide (by omega) (hgraph ▸ hedge) (hid.keeps hkeeps) hnext
  have hpace' : ∀ v, l.heuristic = .finite v → pace ≤ depth + v ∧ depth + v ≤ Distance.limit := by
    intro v hv
    have := h.guided.inherited_le hguide hk (hd.symm.trans hv)
    exact ⟨hpace v (hd.symm.trans hv), by omega⟩
  obtain ⟨run', henqueue, hrun', hfinished⟩ := (hrun.keeps hkeeps).exists_enqueue
    (some id) depth ⟨n, hgraph ▸ hn⟩ hl hknown hopen hpace' hdepth
    (by rintro _ ⟨⟩; exact hid.keeps hkeeps)
  simp only [ensures_generation, ensures_lift, ensures_pure]
  exact ⟨mid, hmid.held, (), hcheck, ((), run'), Edit.result_eq_ok.2 henqueue, mid, hmid, hgraph,
    hkeeps, hrun', hfinished⟩

omit [DecidableEq S] in
/-- The edges to the children of a node can be followed, since heuristics drop along them by at most
one. -/
theorem foldlM_follow {succs : List NodeId} {v : Nat}
    (hroom : run.finished.length + far ≤ Distance.limit) (hrun : run.Paced gen (depth + v))
    (hv : gen.heuristic id = .ok (.finite v)) (hdepth : depth < run.finished.length)
    (hsuccs : ∀ c ∈ succs, gen.graph.Edge id c 1) :
    (succs.foldlM (fun run c => Exploration.follow setup older index run id c (depth + 1)) run).Ensures p
      fun run' q => ∃ gen', Hosts setup allowed index guide [] q gen' ∧ gen.Keeps gen' ∧
        run'.Paced gen' (depth + v) ∧ run'.finished = run.finished := by
  refine (ensures_foldlM (motive := fun run' rest q => ∃ gen',
    Hosts setup allowed index guide [] q gen' ∧ gen'.graph = gen.graph ∧ gen.Keeps gen' ∧
      run'.Paced gen' (depth + v) ∧ run'.finished = run.finished ∧
        ∀ c ∈ rest, gen.graph.Edge id c 1) ?_ ⟨gen, h, rfl, .refl gen, hrun, rfl, hsuccs⟩).mono ?_
  · rintro run' c rest q ⟨mid, hmid, hgraph, hkeeps, hrun', hfinished, hrest⟩
    have hedge : mid.graph.Edge id c 1 := hgraph ▸ hrest c List.mem_cons_self
    obtain ⟨hn, -⟩ := hedge.exists_nodes hmid.guided.faithful.wellFormed
    have hv' := hkeeps.heuristic hv rfl
    have hpace : ∀ u, mid.inherited guide c = .finite u → depth + v ≤ depth + 1 + u := by
      intro u hu
      have hdrops := hmid.guided.drops hedge List.not_mem_nil List.not_mem_nil
      rw [← hmid.guided.heuristic_eq hv' rfl, hu] at hdrops
      cases hdrops with
      | finite hle => omega
    refine (hmid.follow hguide hlaws (hfinished ▸ hroom) hrun' hedge ⟨hn, _, hv', rfl⟩
      (hfinished ▸ hdepth) hpace).mono ?_
    rintro run'' q' - ⟨gen', h', hgraph', hkeeps', hrun'', hfinished'⟩
    exact ⟨gen', h', hgraph'.trans hgraph, hkeeps.trans hkeeps', hrun'', hfinished'.trans hfinished,
      fun c hc => hrest c (List.mem_cons_of_mem _ hc)⟩
  · rintro run' q - ⟨gen', h', -, hkeeps, hrun', hfinished, -⟩
    exact ⟨gen', h', hkeeps, hrun', hfinished⟩

/-! ## Visiting nodes -/

omit [DecidableEq S] in
/-- **The node to continue with** is either the visited one or a covered one whose coverer is not
behind the pace. -/
theorem reroute {v : Nat} (hfar : far ≤ Distance.limit) (hrun : run.Paced gen pace)
    (hid : ∃ n, gen.graph.get? id = some n) (hv : gen.heuristic id = .ok (.finite v)) :
    (reroute setup older index run id).Ensures p fun result q =>
      ∃ gen', Hosts setup allowed index guide [] q gen' ∧ gen.Keeps gen' ∧
        result.2.Paced gen' pace ∧ result.2.finished = run.finished ∧
        SearchRun.Judged gen' result.1 ∧
        ∀ n, gen'.graph.get? result.1 = some n →
          (∀ c, n.covering = some c → (Distance.finite v).Drops 0 (gen'.inherited guide c)) ∧
          (n.covering = none → result.1 = id) := by
  have hjudged : SearchRun.Judged gen id := ⟨hid, _, hv, rfl⟩
  simp only [Exploration.reroute, ensures_bind]
  refine (h.close hguide hlaws hjudged).mono ?_
  rintro result q - ⟨mid, hmid, hkeeps, -, hcovered⟩
  have hdrops : ∀ n c, mid.graph.get? id = some n → n.covering = some c →
      (Distance.finite v).Drops 0 (mid.inherited guide c) := by
    intro n c hn hcovering
    have := hmid.guided.drops (.covering hn hcovering) List.not_mem_nil List.not_mem_nil
    rwa [← hmid.guided.heuristic_eq (hkeeps.heuristic hv rfl) rfl] at this
  -- in most cases the search goes on with the visited node
  have hstay : ((pure (id, run) : Explore S P K _)).Ensures q fun result q =>
      ∃ gen', Hosts setup allowed index guide [] q gen' ∧ gen.Keeps gen' ∧
        result.2.Paced gen' pace ∧ result.2.finished = run.finished ∧
        SearchRun.Judged gen' result.1 ∧
        ∀ n, gen'.graph.get? result.1 = some n →
          (∀ c, n.covering = some c → (Distance.finite v).Drops 0 (gen'.inherited guide c)) ∧
          (n.covering = none → result.1 = id) :=
    ensures_pure.2 ⟨mid, hmid, hkeeps, hrun.keeps hkeeps, rfl, hjudged.keeps hkeeps,
      fun n hn => ⟨fun c => hdrops n c hn, fun _ => rfl⟩⟩
  cases result with
  | none => exact hstay
  | some coverer =>
    obtain ⟨hcoverer, n, hn, hcovering⟩ := hcovered coverer rfl
    cases hparent : run.parent? id with
    | none => exact hstay
    | some parent =>
      have habove := (hrun.parents hparent).keeps hkeeps
      obtain ⟨m, hm⟩ := habove.1
      simp only [ensures_bind, ensures_generation, ensures_lift, Graph.node_eq_ok]
      refine ⟨mid, hmid.held, m, hm, ?_⟩
      split
      · rename_i hrerouted
        have hcheck := hmid.checkConsistent hguide hfar (.covering hm hrerouted) habove hcoverer
        simp only [ensures_bind, ensures_lift, ensures_pure]
        refine ⟨(), hcheck, mid, hmid, hkeeps, (hrun.keeps hkeeps).forgetParent id, rfl, habove,
          fun m' hm' => ?_⟩
        obtain rfl := Option.some.inj (hm.symm.trans hm')
        rw [hrerouted]
        refine ⟨?_, by simp⟩
        rintro c ⟨⟩
        exact hdrops n coverer hn hcovering
      · exact hstay

/-- **A node can be expanded**, and its new successors get search nodes. -/
theorem ensureExpanded {v : Nat} (hsearch : setup.search = .full) (hn : gen.graph.get? id = some n)
    (hfree : n.covering = none) (hfeasible : n.isFeasible = true)
    (hv : gen.heuristic id = .ok (.finite v)) :
    (ensureExpanded setup older index id).Ensures p fun _ q =>
      ∃ gen', Hosts setup allowed index guide [] q gen' ∧ gen.Keeps gen' := by
  simp only [Exploration.ensureExpanded, ensures_bind, ensures_node]
  refine ⟨gen, h.held, n, hn, ?_⟩
  split
  · exact ensures_pure.2 ⟨gen, h, .refl gen⟩
  · rename_i hopen
    have hopen : n.isExpanded = false := by simpa using hopen
    have hfaithful := h.guided.faithful
    obtain ⟨new, graph, hexpand⟩ := Graph.exists_expand gen.prec hn hfree
      (h.guided.inDomain hn)
    obtain ⟨hfaithful', hadded, -⟩ :=
      Graph.expand_ok hfaithful h.guided.finest.isAllowed hn hfree hfeasible hopen hexpand
    have hguided : Generation.Guided setup.analysis allowed guide new { gen with graph } := by
      refine h.guided.of_addedLeaves hguide hlaws hadded hfaithful'
        (Graph.expand_new hfaithful hn hfeasible hopen hexpand) (by simp) ?_
      rintro _ ⟨⟩
      exact ⟨n, v, hn, hfeasible, rfl, hv⟩
    have hgrows : gen.Keeps { gen with graph } := .of_grows hadded.grows
    simp only [expand, ensures_bind, ensures_generation, ensures_editGraph, ensures_count, ensures_pure]
    refine ⟨gen, h.held, gen, h.held, new, graph, hexpand, ?_⟩
    refine ensures_forM (motive := fun rest q => ∃ gen',
      Hosts setup allowed index guide rest q gen' ∧ gen.Keeps gen') ?_
      ⟨_, (h.put hguided hgrows).congr rfl, hgrows⟩
    rintro c rest q' ⟨gen', h', hkeeps⟩
    refine (h'.createSearchNode hguide hlaws hsearch).mono ?_
    rintro - q'' - ⟨gen'', h'', -, hkeeps'⟩
    exact ⟨gen'', h'', hkeeps.trans hkeeps'⟩

/-- **A visit meets no fault.** -/
theorem visit {v : Nat} (hsearch : setup.search = .full)
    (hroom : run.finished.length + far ≤ Distance.limit) (hrun : run.Paced gen (depth + v))
    (hid : ∃ n, gen.graph.get? id = some n) (hv : gen.heuristic id = .ok (.finite v))
    (hdepth : depth < run.finished.length) :
    (visit setup older index run id depth).Ensures p fun run' q =>
      ∃ gen', Hosts setup allowed index guide [] q gen' ∧ gen.Keeps gen' ∧
        run'.Paced gen' (depth + v) ∧ run'.finished = run.finished := by
  simp only [Exploration.visit, ensures_bind]
  refine (h.reroute hguide hlaws (by omega) hrun hid hv).mono ?_
  rintro ⟨id', run'⟩ q - ⟨mid, hmid, hkeeps, hrun', hfinished, hjudged, hcontinues⟩
  obtain ⟨m, hm⟩ := hjudged.1
  obtain ⟨hcovered, hstays⟩ := hcontinues m hm
  dsimp only at hrun' hfinished hm hcovered hstays ⊢
  simp only [ensures_node]
  refine ⟨mid, hmid.held, m, hm, ?_⟩
  cases hcovering : m.covering with
  | some coverer =>
    have hpace : ∀ u, mid.inherited guide coverer = .finite u → depth + v ≤ depth + u := by
      intro u hu
      have hdrops := hcovered coverer hcovering
      rw [hu] at hdrops
      cases hdrops with
      | finite hle => omega
    refine (hmid.follow hguide hlaws (hfinished ▸ hroom) hrun' (.covering hm hcovering) hjudged
      (by rw [hfinished]; omega) hpace).mono ?_
    rintro run'' q' - ⟨gen', h', -, hkeeps', hrun'', hfinished'⟩
    exact ⟨gen', h', hkeeps.trans hkeeps', hrun'', hfinished'.trans hfinished⟩
  | none =>
    obtain rfl := hstays hcovering
    dsimp only
    split
    · exact ensures_pure.2 ⟨mid, hmid, hkeeps, hrun', hfinished⟩
    · rename_i hfeasible
      simp only [ensures_bind]
      refine (hmid.ensureExpanded hguide hlaws hsearch hm hcovering (by simpa using hfeasible)
        (hkeeps.heuristic hv rfl)).mono ?_
      rintro - q' - ⟨gen₁, h₁, hkeeps₁⟩
      obtain ⟨n₁, hn₁, -⟩ := hkeeps₁.grows.node hm
      simp only [ensures_node]
      refine ⟨gen₁, h₁.held, n₁, hn₁, ?_⟩
      refine (h₁.foldlM_follow hguide hlaws (hfinished ▸ hroom) (hrun'.keeps hkeeps₁)
        (hkeeps₁.heuristic (hkeeps.heuristic hv rfl) rfl) (hfinished ▸ hdepth) ?_).mono ?_
      · intro c hc
        obtain ⟨b, hb, hparent⟩ := h₁.guided.faithful.wellFormed.succ_link hn₁ hc
        exact .tree hb hparent
      · rintro run'' q'' - ⟨gen', h', hkeeps', hrun'', hfinished'⟩
        exact ⟨gen', h', hkeeps.trans (hkeeps₁.trans hkeeps'), hrun'', hfinished'.trans hfinished⟩

end

/-- **All visits meet no fault**, by induction on the steps that are left. -/
theorem visitAll (h : Hosts setup allowed index guide [] p gen)
    (hguide : ∀ charted, guide = some charted → charted.Charted setup.analysis allowed far)
    (hlaws : setup.analysis.Lawful) (hsearch : setup.search = .full)
    (hfar : setup.fuel + far ≤ Distance.limit) {fuel : Nat}
    (hfuel : run.finished.length + fuel ≤ setup.fuel) (hrun : run.Paced gen pace) :
    (visitAll setup older index fuel run).Ensures p fun run' q =>
      ∃ gen' pace', Hosts setup allowed index guide [] q gen' ∧ gen.Keeps gen' ∧
        run'.Paced gen' pace' ∧ run'.finished.length ≤ setup.fuel := by
  induction fuel generalizing p gen run pace with
  | zero => exact ensures_outOfFuel
  | succ fuel ih =>
    obtain ⟨next, mid, hnext, hcontinues⟩ := SearchRun.exists_next hrun h.guided.reachesTarget
    have hvisits : setup.search.visitsReached = true := by rw [hsearch]; rfl
    simp only [Exploration.visitAll, hvisits, ensures_bind, ensures_generation, ensures_lift]
    refine ⟨gen, h.held, (next, mid), Edit.result_eq_ok.2 hnext, ?_⟩
    dsimp only
    rcases hcontinues with ⟨rfl, hmid, hfinished⟩ |
      ⟨id, depth, v, rfl, hv, hdepth, hfinished, hmid⟩
    · exact ensures_pure.2 ⟨gen, pace, h, .refl gen, hmid, by rw [hfinished]; omega⟩
    · obtain ⟨k, hk, -⟩ := Generation.heuristic_eq_ok.1 hv
      simp only [ensures_bind]
      refine (h.visit hguide hlaws hsearch (by omega) hmid (h.guided.held hk).2 hv hdepth).mono ?_
      rintro run₁ q - ⟨gen₁, h₁, hkeeps, hrun₁, hsame⟩
      refine (ih h₁ (by rw [hsame]; omega) hrun₁).mono ?_
      rintro run' q' - ⟨gen', pace', h', hkeeps', hrun', hlength⟩
      exact ⟨gen', pace', h', hkeeps.trans hkeeps', hrun', hlength⟩

end Exploration.Hosts

end GuidedReach
