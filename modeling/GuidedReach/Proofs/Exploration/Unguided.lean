import GuidedReach.Proofs.Exploration.GuidedSearch
import GuidedReach.Proofs.Generation.Unguided
import GuidedReach.Proofs.Graph.Ancestors
import GuidedReach.Proofs.SearchRun.Survey

/-!
# The search of a first exploration

All heuristics are 0, so nodes are handed out in the order of their depths, whatever the order of the
states may be. No assertion fails on the way, and the search keeps track of the shortest paths of the
graph that it leaves behind.

* `Exploration.Unfolds` — a history holds a generation that explores for the first time.
* `Exploration.Unfolds.close`, `Exploration.Unfolds.follow`, `Exploration.Unfolds.ensureExpanded` — the
  parts of a visit.
* `Exploration.Unfolds.visit`, `Exploration.Unfolds.visitAll` — a visit, and all visits of a search.
-/

namespace GuidedReach.Exploration

open Explore

variable {S P K : Type} [DecidableEq K]

/-- The generation with an index explores for the first time. -/
structure Unfolds (setup : Setup S P K) (leq : S → S → Bool) (prec : P) (index : Nat)
    (pending : List NodeId) (p : Progress S P K) (gen : Generation S P K) : Prop where
  held : p.history.get? index = some gen
  length : p.history.length = index + 1
  unguided : gen.Unguided setup.analysis leq prec pending

/-- The search may go on for some more visits: no more nodes are expanded than distances can count. -/
def Room (analysis : Analysis S P K) (leq : S → S → Bool) (prec : P) (visits : Nat)
    (gen : Generation S P K) : Prop :=
  gen.graph.expandedIds.length + visits ≤ Distance.limit ∨
    ∀ gen' : Generation S P K, gen'.Unguided analysis leq prec [] →
      gen'.graph.expandedIds.length ≤ Distance.limit

namespace Unfolds

variable {setup : Setup S P K} {older : Older S P K} {leq : S → S → Bool} {prec : P} {index : Nat}
variable {pending pending' new : List NodeId} {p q : Progress S P K} {gen gen' : Generation S P K}
variable {run : SearchRun} {pace depth fuel : Nat} {id next : NodeId} {n : Node S} {k : SearchNode}
variable {visits : Bool}

theorem put (h : Unfolds setup leq prec index pending p gen)
    (hunguided : gen'.Unguided setup.analysis leq prec pending') :
    Unfolds setup leq prec index pending' (p.put index gen') gen' where
  held := Progress.get?_put_self h.held
  length := Progress.length_put.trans h.length
  unguided := hunguided

/-- Only the history matters. -/
theorem congr (h : Unfolds setup leq prec index pending p gen) (hsame : q.history = p.history) :
    Unfolds setup leq prec index pending q gen where
  held := hsame ▸ h.held
  length := hsame ▸ h.length
  unguided := h.unguided

/-! ## Search nodes -/

/-- **The heuristic of a node is 0**, and can be made known. -/
theorem ensureHeuristic (h : Unfolds setup leq prec index pending p gen)
    (hk : gen.searchNodes.get? id = some k) :
    (ensureHeuristic setup older index id).Ensures p fun d q => d = .zero ∧
      ∃ gen', Unfolds setup leq prec index pending q gen' ∧ gen'.graph = gen.graph ∧
        gen.Keeps gen' ∧ gen'.heuristic id = .ok .zero := by
  obtain ⟨-, n, hn⟩ := h.unguided.held hk
  simp only [Exploration.ensureHeuristic, ensures_bind, ensures_generation, ensures_lift,
    Generation.searchNode_eq_ok]
  refine ⟨gen, h.held, k, hk, ?_⟩
  rcases h.unguided.heuristic hk with hopen | hzero
  · have hcompute : (computeHeuristic setup older index id).run p = .ok (.zero, p) := by
      have hinherited : (inheritedDistance index id : Explore S P K Distance).run p = .ok (.unknown, p) := by
        simp only [inheritedDistance, run_bind_ok, run_generation_ok, run_lift_ok,
          Generation.searchNode_eq_ok]
        refine ⟨gen, p, ⟨h.held, rfl⟩, k, p, ⟨hk, rfl⟩, ?_⟩
        rw [h.unguided.provider]
        exact run_pure_ok.2 ⟨rfl, rfl⟩
      simp only [computeHeuristic, run_bind_ok, run_generation_ok, run_lift_ok, Graph.node_eq_ok]
      refine ⟨gen, p, ⟨h.held, rfl⟩, .unknown, p, hinherited, n, p, ⟨hn, rfl⟩, ?_⟩
      cases n.isTarget with
      | true =>
        rw [if_pos rfl, run_bind_ok]
        exact ⟨(), p, run_lift_ok.2 ⟨rfl, rfl⟩, rfl⟩
      | false => simp [h.unguided.provider]
    obtain ⟨gen', hset, hunguided, hgraph, hkeeps, hvalue⟩ := h.unguided.setHeuristic hk
    rw [hopen, if_neg (by simp [Distance.isKnown]), ensures_bind, ensures_of_ok hcompute]
    simp only [ensures_bind, ensures_setHeuristic, ensures_pure]
    exact ⟨gen, h.held, gen', hset, trivial, gen', h.put hunguided, hgraph, hkeeps, hvalue⟩
  · rw [hzero, if_pos (show Distance.zero.isKnown = true from rfl)]
    exact ensures_pure.2 ⟨rfl, gen, h, rfl, .refl gen, Generation.heuristic_eq_ok.2 ⟨k, hk, hzero⟩⟩

/-- **A new node gets a search node**, without a provider. -/
theorem createSearchNode (h : Unfolds setup leq prec index (id :: pending) p gen) :
    (createSearchNode setup older index id).Ensures p fun _ q =>
      ∃ gen', Unfolds setup leq prec index pending q gen' ∧ gen'.graph = gen.graph ∧
        gen.Keeps gen' := by
  obtain ⟨gen', hregister, hunguided, hgraph, hkeeps⟩ := h.unguided.register
  simp only [Exploration.createSearchNode, ensures_bind, ensures_generation]
  refine ⟨gen, h.held, ?_⟩
  rw [h.unguided.provider]
  simp only [ensures_bind, ensures_pure, ensures_generation, ensures_lift, ensures_putGeneration]
  exact ⟨gen, h.held, gen', hregister, gen', h.put hunguided, hgraph, hkeeps⟩

theorem forM_createSearchNode (h : Unfolds setup leq prec index new p gen) :
    (new.forM (Exploration.createSearchNode setup older index)).Ensures p fun _ q =>
      ∃ gen', Unfolds setup leq prec index [] q gen' ∧ gen'.graph = gen.graph ∧ gen.Keeps gen' := by
  refine ensures_forM (motive := fun rest q => ∃ gen', Unfolds setup leq prec index rest q gen' ∧
    gen'.graph = gen.graph ∧ gen.Keeps gen') ?_ ⟨gen, h, rfl, .refl gen⟩
  rintro c rest q ⟨mid, hmid, hgraph, hkeeps⟩
  refine hmid.createSearchNode.mono ?_
  rintro - q' - ⟨gen', h', hgraph', hkeeps'⟩
  exact ⟨gen', h', hgraph'.trans hgraph, hkeeps.trans hkeeps'⟩

section

variable (h : Unfolds setup leq prec index [] p gen)

include h

/-! ## Covering -/

/-- What comes of an attempt to cover a node: nothing, if none of some nodes may cover it; or the node
is covered by another one, whose heuristic is known. -/
def Closes (analysis : Analysis S P K) (id : NodeId) (may : NodeId → Node S → Prop)
    (gen gen' : Generation S P K) : Option NodeId → Prop
  | none => gen'.graph = gen.graph ∧ ∀ {c b}, gen.graph.get? c = some b → may c b →
      gen.graph.mayCover analysis id c ≠ .ok true
  | some c => gen'.heuristic c = .ok .zero ∧ (∃ b, gen'.graph.get? c = some b) ∧
      ∃ moved, Graph.Rewritten (Graph.coverNode id c moved) gen.graph gen'.graph

theorem coverByOneOf (hleq : setup.analysis.Refines leq) (hn : gen.graph.get? id = some n)
    (hfree : n.covering = none) (hleaf : n.succs = []) (hopen : n.isExpanded = false)
    {candidates : List NodeId} (hcandidates : ∀ c ∈ candidates, ∃ k, gen.searchNodes.get? c = some k) :
    (coverByOneOf setup older index id n.isTarget .zero candidates).Ensures p fun result q =>
      ∃ gen', Unfolds setup leq prec index [] q gen' ∧ gen.Keeps gen' ∧
        Closes setup.analysis id (fun c b => c ∈ candidates ∧ b.isTarget = n.isTarget) gen gen'
          result := by
  induction candidates generalizing p gen with
  | nil => exact ensures_pure.2 ⟨gen, h, .refl gen, rfl, by simp⟩
  | cons c rest ih =>
    obtain ⟨k, hk⟩ := hcandidates c List.mem_cons_self
    have hrest := fun i hi => hcandidates i (List.mem_cons_of_mem c hi)
    obtain ⟨-, b, hb⟩ := h.unguided.held hk
    obtain ⟨may, hmay, hcovers⟩ := Graph.exists_mayCover setup.analysis hn hb
    -- the candidate is passed over
    have hskip : (b.isTarget = n.isTarget → may = false) →
        (coverByOneOf setup older index id n.isTarget .zero rest).Ensures p fun result q =>
          ∃ gen', Unfolds setup leq prec index [] q gen' ∧ gen.Keeps gen' ∧
            Closes setup.analysis id (fun c' b => c' ∈ c :: rest ∧ b.isTarget = n.isTarget) gen gen'
              result := by
      intro hpass
      refine (ih h hn hrest).mono ?_
      rintro result q - ⟨gen', h', hkeeps, hcloses⟩
      refine ⟨gen', h', hkeeps, ?_⟩
      cases result with
      | some c => exact hcloses
      | none =>
        refine ⟨hcloses.1, fun {i m} hm hi => ?_⟩
        rcases List.mem_cons.1 hi.1 with rfl | hmem
        · obtain rfl := Option.some.inj (hb.symm.trans hm)
          rw [hmay, hpass hi.2]
          simp
        · exact hcloses.2 hm ⟨hmem, hi.2⟩
    simp only [Exploration.coverByOneOf, ensures_bind, ensures_generation, ensures_lift,
      Graph.node_eq_ok]
    refine ⟨gen, h.held, b, hb, ?_⟩
    split
    · rename_i htarget
      refine hskip fun hsame => ?_
      simp [hsame] at htarget
    · rename_i hstands
      simp only [ensures_bind, ensures_lift]
      refine ⟨may, hmay, ?_⟩
      split
      · rename_i hno
        exact hskip fun _ => by simpa using hno
      · rename_i hyes
        obtain ⟨hne, hle, hfree'⟩ := hcovers (by simpa using hyes)
        simp only [ensures_bind]
        refine (h.ensureHeuristic hk).mono ?_
        rintro _ q - ⟨rfl, mid, hmid, hgraph, hkeeps, hzero⟩
        simp only [ensures_lift]
        refine ⟨false, rfl, ?_⟩
        rw [← hgraph] at hn hb
        have hwf := hmid.unguided.faithful.wellFormed
        have htarget : n.isTarget = true → b.isTarget = true := by simpa using hstands
        obtain ⟨graph, hcover⟩ := Graph.exists_cover hwf hn hb hne hfree hfree'
        obtain ⟨-, a, _, -, -, hb', -, hrewritten⟩ := Graph.cover_ok hwf hcover
        have hgrows : mid.Keeps { mid with graph } := .of_grows (Graph.grows_of_cover hcover)
        rw [if_neg (by simp)]
        simp only [ensures_bind, ensures_editGraph, ensures_count, ensures_pure]
        exact ⟨mid, hmid.held, (), graph, hcover, { mid with graph },
          (hmid.put (hmid.unguided.cover hleq hn hb hleaf hopen hle htarget hcover)).congr rfl,
          hkeeps.trans hgrows, hzero, ⟨_, hrewritten.get?_of_get? hb'⟩, a.covered,
          hgraph ▸ hrewritten⟩

/-- **An open leaf can be closed.** If it stays open, then no expanded node is like it. -/
theorem close (hleq : setup.analysis.Refines leq) (hn : gen.graph.get? id = some n)
    (hfree : n.covering = none) (hleaf : n.succs = []) (hopen : n.isExpanded = false)
    (hzero : gen.heuristic id = .ok .zero) :
    (close setup older index id).Ensures p fun result q =>
      ∃ gen', Unfolds setup leq prec index [] q gen' ∧ gen.Keeps gen' ∧
        Closes setup.analysis id (fun _ b => n.Alike setup.analysis b ∧ b.isExpanded = true) gen gen'
          result := by
  simp only [Exploration.close, ensures_bind, ensures_generation, ensures_lift, Graph.node_eq_ok]
  refine ⟨gen, h.held, n, hn, ?_⟩
  rw [if_neg (by simp [Node.isCovered, Node.isLeaf, hfree, hleaf, hopen])]
  simp only [ensures_bind, ensures_lift, demand_eq_ok]
  refine ⟨.zero, hzero, (), rfl, gen.buckets.find (setup.analysis.key n.state), ?_, ?_⟩
  · simp only [Generation.coveringCandidates, bind_eq_ok, Graph.node_eq_ok, pure_eq_ok]
    exact ⟨n, hn, rfl⟩
  · refine (h.coverByOneOf hleq hn hfree hleaf hopen fun c hc => h.unguided.filed _ hc).mono ?_
    rintro result q - ⟨gen', h', hkeeps, hcloses⟩
    refine ⟨gen', h', hkeeps, ?_⟩
    cases result with
    | some c => exact hcloses
    | none =>
      refine ⟨hcloses.1, fun hb halike => hcloses.2 hb ⟨?_, halike.1.isTarget.symm⟩⟩
      rw [halike.1.key]
      exact h.unguided.listed hb List.not_mem_nil

/-! ## Following edges -/

omit [DecidableEq K] h in
/-- Heuristics of 0 are consistent. -/
theorem checkConsistent (hid : ∃ n, gen.graph.get? id = some n) (hzero : gen.heuristic id = .ok .zero)
    (hzero' : gen.heuristic next = .ok .zero) : gen.checkConsistent id next = .ok () := by
  obtain ⟨n, hn⟩ := hid
  simp only [Generation.checkConsistent, bind_eq_ok, demand_eq_ok]
  refine ⟨.zero, hzero, .zero, hzero', (), rfl, ?_⟩
  simp only [Distance.isInfinite, Distance.zero, Bool.and_self, Bool.false_eq_true, if_false,
    Bool.not_false, bind_eq_ok, demand_eq_ok, Graph.node_eq_ok]
  refine ⟨(), trivial, n, hn, _, rfl, true, ?_, rfl⟩
  rw [Distance.le_eq_ok rfl rfl]
  simp [Distance.notAbove]

/-- **An edge can be followed** from a node that is not above the pace. -/
theorem follow (hrun : run.Levelled pace) (hid : ∃ n, gen.graph.get? id = some n)
    (hzero : gen.heuristic id = .ok .zero) (hnext : gen.graph.get? next = some n)
    (hpace : pace ≤ depth) (hlimit : depth ≤ Distance.limit) :
    (follow setup older index run id next depth).Ensures p fun run' q =>
      ∃ gen', Unfolds setup leq prec index [] q gen' ∧ gen'.graph = gen.graph ∧ gen.Keeps gen' ∧
        gen'.heuristic next = .ok .zero ∧ run'.Levelled pace ∧
        SearchRun.Notes (some id) depth [next] run run' := by
  obtain ⟨k, hk⟩ := h.unguided.registered hnext List.not_mem_nil
  simp only [Exploration.follow, ensures_bind]
  refine (h.ensureHeuristic hk).mono ?_
  rintro _ q - ⟨rfl, mid, hmid, hgraph, hkeeps, hzero'⟩
  obtain ⟨l, hl, hvalue⟩ := Generation.heuristic_eq_ok.1 hzero'
  have hcheck : mid.checkConsistent id next = .ok () :=
    checkConsistent (hgraph ▸ hid) (hkeeps.heuristic hzero rfl) hzero'
  obtain ⟨run', henqueue, hrun', hnotes⟩ := hrun.exists_enqueue (some id) (hgraph ▸ hnext) hl hvalue
    (hmid.unguided.distance hl) hpace hlimit
  simp only [ensures_generation, ensures_lift, ensures_pure]
  exact ⟨mid, hmid.held, (), hcheck, ((), run'), Edit.result_eq_ok.2 henqueue, mid, hmid, hgraph,
    hkeeps, hzero', hrun', hnotes⟩

/-- The edges to the children of a node can be followed, by induction on the list of children. -/
theorem foldlM_follow {succs : List NodeId} (hrun : run.Levelled pace)
    (hid : ∃ n, gen.graph.get? id = some n) (hzero : gen.heuristic id = .ok .zero)
    (hsuccs : ∀ c ∈ succs, ∃ n, gen.graph.get? c = some n) (hpace : pace ≤ depth)
    (hlimit : depth ≤ Distance.limit) :
    (succs.foldlM (fun run c => Exploration.follow setup older index run id c depth) run).Ensures p
      fun run' q => ∃ gen', Unfolds setup leq prec index [] q gen' ∧ gen'.graph = gen.graph ∧
        gen.Keeps gen' ∧ (∀ c ∈ succs, gen'.heuristic c = .ok .zero) ∧ run'.Levelled pace ∧
        SearchRun.Notes (some id) depth succs run run' := by
  induction succs generalizing p gen run with
  | nil => exact ensures_pure.2 ⟨gen, h, rfl, .refl gen, by simp, hrun, .refl (some id) depth run⟩
  | cons c succs ih =>
    obtain ⟨m, hm⟩ := hsuccs c List.mem_cons_self
    rw [List.foldlM_cons, ensures_bind]
    refine (h.follow hrun hid hzero hm hpace hlimit).mono ?_
    rintro mid q - ⟨gen₁, h₁, hgraph, hkeeps, hzero₁, hmid, hnotes⟩
    refine (ih h₁ hmid (hgraph ▸ hid) (hkeeps.heuristic hzero rfl)
      (fun i hi => hgraph ▸ hsuccs i (List.mem_cons_of_mem _ hi))).mono ?_
    rintro run' q' - ⟨gen', h', hgraph', hkeeps', hzeros, hrun', hnotes'⟩
    refine ⟨gen', h', hgraph'.trans hgraph, hkeeps.trans hkeeps', ?_, hrun', hnotes.cons hnotes'⟩
    exact List.forall_mem_cons.2 ⟨hkeeps'.heuristic hzero₁ rfl, hzeros⟩

/-! ## Visiting nodes -/

variable [DecidableEq S] {inside : S → Prop}

/-- **An open leaf can be expanded** that no expanded node is like, and its children get search
nodes. -/
theorem ensureExpanded (hinside : setup.analysis.Encloses prec inside)
    (hn : gen.graph.get? id = some n) (hfree : n.covering = none) (hleaf : n.succs = [])
    (hopen : n.isExpanded = false) (hfeasible : n.isFeasible = true)
    (hapart : ∀ {j m}, gen.graph.get? j = some m → m.isExpanded = true →
      ¬ n.Alike setup.analysis m) :
    (ensureExpanded setup older index id).Ensures p fun _ q =>
      ∃ gen' new, Unfolds setup leq prec index [] q gen' ∧ gen.Keeps gen' ∧
        Graph.AddedLeaves (some id) new gen.graph gen'.graph ∧
        ∃ n', gen'.graph.get? id = some n' ∧ n'.isExpanded = true ∧ n'.succs = new := by
  have hfaithful := h.unguided.faithful
  have hinside' : (setup.analysis.under leq).Encloses prec inside :=
    ⟨hinside.init, hinside.succ, hinside.inDomain⟩
  have hdomain : setup.analysis.inDomain n.state = true :=
    hinside.inDomain ⟨h.unguided.grown.enclosed hfaithful hinside' hn,
      by simpa [hfaithful.isFeasible hn, Analysis.under] using hfeasible⟩
  obtain ⟨new, graph, hexpand⟩ := Graph.exists_expand gen.prec hn hfree hdomain
  have hexpand' : (Graph.expand (setup.analysis.under leq) id prec).run gen.graph = .ok new graph :=
    by rw [Graph.expand_under, ← h.unguided.prec_eq]; exact hexpand
  obtain ⟨hfaithful', hadded, n', hn', hexpanded⟩ :=
    Graph.expand_ok hfaithful rfl hn hfree hfeasible hopen hexpand'
  obtain ⟨-, ⟨n'', hn'', hsuccs⟩, -⟩ := Graph.expand_succs hn hexpand'
  obtain rfl := Option.some.inj (hn'.symm.trans hn'')
  have hunguided : Generation.Unguided setup.analysis leq prec new { gen with graph } := by
    refine h.unguided.of_addedLeaves hadded
      (Graph.expand_new hfaithful hn hfeasible hopen hexpand').1 hfaithful'
      (h.unguided.grown.expand hfaithful rfl hn hfree hfeasible hopen hexpand') ?_
    rintro _ a ⟨⟩ ha j m hm hexp halike
    obtain rfl := Option.some.inj (hn.symm.trans ha)
    exact absurd halike (hapart hm hexp)
  have hgrows : gen.Keeps { gen with graph } := .of_grows hadded.grows
  simp only [Exploration.ensureExpanded, ensures_bind, ensures_node]
  refine ⟨gen, h.held, n, hn, ?_⟩
  rw [if_neg (by simp [hopen])]
  simp only [expand, ensures_bind, ensures_generation, ensures_editGraph, ensures_count, ensures_pure]
  refine ⟨gen, h.held, gen, h.held, new, graph, hexpand, ?_⟩
  refine Ensures.mono (forM_createSearchNode ((h.put hunguided).congr ?_)) ?_
  · rfl
  · rintro - q - ⟨gen', h', hgraph, hkeeps⟩
    exact ⟨gen', new, h', hgrows.trans hkeeps, hgraph ▸ hadded, n', hgraph ▸ hn', hexpanded,
      by rw [hsuccs, hleaf, List.nil_append]⟩

/-- The search goes on from a node, with a run, to a coverer that some node has got: from that node
itself or, if its search parent was covered by it, from there. -/
structure Rerouted (gen gen' : Generation S P K) (run : SearchRun) (id : NodeId) (depth : Nat)
    (coverer source : NodeId) (mid : SearchRun) : Prop where
  heuristic : gen'.heuristic coverer = .ok .zero
  held : ∃ b, gen'.graph.get? coverer = some b
  rewritten : ∃ moved, Graph.Rewritten (Graph.coverNode id coverer moved) gen.graph gen'.graph
  levelled : mid.Levelled depth
  same : mid.start = run.start ∧ mid.finished = run.finished ∧ mid.reached = run.reached ∧
    mid.depths = run.depths ∧ mid.stop = run.stop
  parents : ∀ i ≠ id, mid.parent? i = run.parent? i
  self : ∀ p, mid.parent? id = some p → run.parent? id = some p ∧ ¬ gen.graph.Edge p id 0
  finished : source ∈ run.finished
  rooted : mid.Rooted source
  depth_eq : run.depth? source = some depth
  covering : ∃ m, gen'.graph.get? source = some m ∧ m.covering = some coverer

/-- What a visit leaves behind. -/
def Visits (visits : Bool) (setup : Setup S P K) (leq : S → S → Bool) (prec : P) (index pace : Nat)
    (gen : Generation S P K) (run run' : SearchRun) (q : Progress S P K) : Prop :=
  ∃ gen', Unfolds setup leq prec index [] q gen' ∧ gen.Keeps gen' ∧ run'.Levelled pace ∧
    run'.Survey visits none gen' ∧ run'.start = run.start ∧ run'.stop = run.stop ∧
    gen'.graph.expandedIds.length ≤ gen.graph.expandedIds.length + 1

section

variable (hrun : run.Levelled depth) (hsurvey : run.Survey visits (some id) gen)
variable (hn : gen.graph.get? id = some n) (hfinished : id ∈ run.finished)
variable (hvisits : visits = true ∨ n.isTarget = false) (hdepth : run.depth? id = some depth)

include hrun hsurvey hn hfinished hvisits hdepth

section

variable {coverer parent : NodeId} {moved : List NodeId} {m : Node S}
variable (hzero : gen'.heuristic coverer = .ok .zero)
variable (hcoverer : ∃ b, gen'.graph.get? coverer = some b)
variable (hrewritten : Graph.Rewritten (Graph.coverNode id coverer moved) gen.graph gen'.graph)

include hzero hcoverer hrewritten

omit [DecidableEq K] [DecidableEq S] h hvisits in
/-- The search goes on from the visited node, unless that covered its search parent. -/
theorem rerouted_self (hedge : ∀ p, run.parent? id = some p → ¬ gen.graph.Edge p id 0) :
    Rerouted gen gen' run id depth coverer id run := by
  obtain ⟨-, hfree, -⟩ := hsurvey.fresh hn fun hvisited => hvisited.2.1 rfl
  exact
    { heuristic := hzero, held := hcoverer, rewritten := ⟨moved, hrewritten⟩, levelled := hrun
      same := ⟨rfl, rfl, rfl, rfl, rfl⟩, parents := fun _ _ => rfl
      self := fun p hp => ⟨hp, hedge p hp⟩, finished := hfinished
      rooted := (hsurvey.origin hdepth hn).resolve_right (by simp [Node.isCovered, hfree])
      depth_eq := hdepth
      covering := ⟨_, hrewritten.get?_of_get? hn, by simp [Graph.coverNode]⟩ }

omit [DecidableEq S] hfinished hvisits in
/-- If the visited node covered its search parent, then the search goes on from there. -/
theorem rerouted_parent (hparent : run.parent? id = some parent)
    (hm : gen.graph.get? parent = some m)
    (hcovered : (Graph.coverNode id coverer moved parent m).covering = some coverer) :
    Rerouted gen gen' run id depth coverer parent (run.forgetParent id) := by
  have hwf := h.unguided.faithful.wellFormed
  obtain ⟨hleaf, hfree, -⟩ := hsurvey.fresh hn fun hvisited => hvisited.2.1 rfl
  obtain ⟨hfin, hroot, w, d, hedge, hd, hid⟩ := hsurvey.parent hparent
  have hne : parent ≠ id := by
    rintro rfl
    exact Graph.not_edge_of_leaf hwf hn hfree hleaf hedge
  -- the parent is a leaf, since it is covered
  have hflat : w = 0 := by
    cases hedge with
    | covering _ _ => rfl
    | tree hc hp =>
      obtain ⟨a, ha, hmem⟩ := hwf.exists_parent hc hp
      obtain rfl := Option.some.inj (hm.symm.trans ha)
      cases hcov : m.covering with
      | none => simp [Graph.coverNode, hne, hcov] at hcovered
      | some c => simp [(h.unguided.faithful.covering hm hcov).1] at hmem
  have hforget : ∀ i ≠ id, (run.forgetParent id).parent? i = run.parent? i := by
    intro i hi
    simp [SearchRun.parent?, SearchRun.forgetParent, NodeMap.get?_erase, hi]
  exact
    { heuristic := hzero, held := hcoverer, rewritten := ⟨moved, hrewritten⟩
      levelled := hrun.forgetParent id, same := ⟨rfl, rfl, rfl, rfl, rfl⟩, parents := hforget
      self := fun p hp => by
        simp [SearchRun.parent?, SearchRun.forgetParent, NodeMap.get?_erase] at hp
      finished := hfin
      rooted := by
        rw [SearchRun.Rooted, hforget parent hne]
        exact hroot
      depth_eq := by rw [hd, ← hdepth, hid, hflat, Nat.add_zero]
      covering := ⟨_, hrewritten.get?_of_get? hm, hcovered⟩ }

end

omit [DecidableEq S] hvisits in
/-- **The node to continue with** is the visited one, or a covered one that is not deeper. -/
theorem reroute (hleq : setup.analysis.Refines leq) :
    (reroute setup older index run id).Ensures p fun result q =>
      ∃ gen', Unfolds setup leq prec index [] q gen' ∧ gen.Keeps gen' ∧
        (result = (id, run) ∧ gen'.graph = gen.graph ∧
            (∀ {j m}, gen.graph.get? j = some m → m.isExpanded = true →
              ¬ n.Alike setup.analysis m) ∨
          ∃ coverer, Rerouted gen gen' run id depth coverer result.1 result.2) := by
  obtain ⟨hleaf, hfree, hopen⟩ := hsurvey.fresh hn fun hvisited => hvisited.2.1 rfl
  simp only [Exploration.reroute, ensures_bind]
  refine (h.close hleq hn hfree hleaf hopen (hsurvey.judged hdepth).2).mono ?_
  rintro result q - ⟨gen', h', hkeeps, hcloses⟩
  cases result with
  | none =>
    refine ensures_pure.2 ⟨gen', h', hkeeps, .inl ⟨rfl, hcloses.1, fun hm hexpanded halike => ?_⟩⟩
    exact hcloses.2 hm ⟨halike, hexpanded⟩
      (h.unguided.faithful.mayCover_of_isExpanded hm hexpanded hn hopen hleaf halike.le)
  | some coverer =>
    obtain ⟨hzero, hcoverer, moved, hrewritten⟩ := hcloses
    have hstay := rerouted_self hrun hsurvey hn hfinished hdepth hzero hcoverer hrewritten
    cases hparent : run.parent? id with
    | none =>
      exact ensures_pure.2 ⟨gen', h', hkeeps, .inr ⟨coverer, hstay (by simp [hparent])⟩⟩
    | some parent =>
      obtain ⟨-, -, -, d, -, hd, -⟩ := hsurvey.parent hparent
      obtain ⟨⟨m, hm⟩, hzero'⟩ := hsurvey.judged hd
      have hm' := hrewritten.get?_of_get? hm
      simp only [ensures_bind, ensures_generation, ensures_lift, Graph.node_eq_ok]
      refine ⟨gen', h'.held, _, hm', ?_⟩
      split
      · rename_i hcovered
        have hcheck := checkConsistent ⟨_, hm'⟩ (hkeeps.heuristic hzero' rfl) hzero
        simp only [ensures_bind, ensures_lift, ensures_pure]
        exact ⟨(), hcheck, gen', h', hkeeps, .inr ⟨coverer, h.rerouted_parent hrun hsurvey hn hdepth
          hzero hcoverer hrewritten hparent hm hcovered⟩⟩
      · rename_i hfar
        refine ensures_pure.2 ⟨gen', h', hkeeps, .inr ⟨coverer, hstay fun p hp hcovers => hfar ?_⟩⟩
        obtain rfl := Option.some.inj (hparent.symm.trans hp)
        cases hcovers with
        | covering ha hcov =>
          obtain rfl := Option.some.inj (hm.symm.trans ha)
          simp [Graph.coverNode, hcov]

omit [DecidableEq S] in
/-- **After a node was covered**, its coverer is found. -/
theorem follow_coverer {coverer source : NodeId} {mid : SearchRun} {gen₁ : Generation S P K}
    (h₁ : Unfolds setup leq prec index [] q gen₁) (hkeeps : gen.Keeps gen₁)
    (hrerouted : Rerouted gen gen₁ run id depth coverer source mid) (hlimit : depth ≤ Distance.limit) :
    (Exploration.follow setup older index mid source coverer depth).Ensures q fun run' q' =>
      Visits visits setup leq prec index depth gen run run' q' := by
  obtain ⟨hstart, hfin, hreached, hdepths, hstop⟩ := hrerouted.same
  obtain ⟨moved, hrewritten⟩ := hrerouted.rewritten
  obtain ⟨a, ha, hcovering⟩ := hrerouted.covering
  obtain ⟨b, hb⟩ := hrerouted.held
  have hzero := hkeeps.heuristic (hsurvey.judged hrerouted.depth_eq).2 rfl
  refine (h₁.follow hrerouted.levelled ⟨a, ha⟩ hzero hb (Nat.le_refl depth) hlimit).mono ?_
  rintro run' q' - ⟨gen', h', hgraph, hkeeps', hzero', hrun', hnotes⟩
  have hcovered : run'.Survey visits none gen' :=
    hsurvey.covered h.unguided.faithful.wellFormed hn hfinished hvisits hdepth
      (hkeeps.trans hkeeps') (hgraph ▸ hrewritten) hrun ⟨b, hgraph ▸ hb⟩ hzero'
      ⟨hstart, hfin, hreached, hdepths⟩ hrerouted.parents hrerouted.self
      ⟨hrerouted.finished, hrerouted.rooted, hrerouted.depth_eq, hgraph ▸ .covering ha hcovering⟩ hnotes
  have hcount := hrewritten.length_expandedIds fun _ _ => rfl
  exact ⟨gen', h', hkeeps.trans hkeeps', hrun', hcovered, hnotes.start.trans hstart,
    hnotes.stop.trans hstop, by rw [hgraph]; omega⟩

omit [DecidableEq S] in
/-- **After a node was expanded**, its children are found. -/
theorem follow_children {n₁ : Node S} {gen₁ : Generation S P K}
    (h₁ : Unfolds setup leq prec index [] q gen₁) (hkeeps : gen.Keeps gen₁)
    (hadded : Graph.AddedLeaves (some id) new gen.graph gen₁.graph)
    (hn₁ : gen₁.graph.get? id = some n₁) (hexpanded : n₁.isExpanded = true)
    (hlimit : depth + 1 ≤ Distance.limit) :
    (new.foldlM (fun run c => Exploration.follow setup older index run id c (depth + 1)) run).Ensures q
      fun run' q' => Visits visits setup leq prec index depth gen run run' q' := by
  have hchildren : ∀ c ∈ new, ∃ m, gen₁.graph.get? c = some m := by
    intro c hc
    obtain ⟨-, m, hm, -⟩ := hadded.new hc
    exact ⟨m, hm⟩
  have hzero := hkeeps.heuristic (hsurvey.judged hdepth).2 rfl
  refine (h₁.foldlM_follow hrun ⟨n₁, hn₁⟩ hzero hchildren (Nat.le_succ depth) hlimit).mono ?_
  rintro run' q' - ⟨gen', h', hgraph, hkeeps', hzeros, hrun', hnotes⟩
  have hsurvey' : run'.Survey visits none gen' :=
    hsurvey.expanded h.unguided.faithful.wellFormed hn hfinished hvisits hdepth
      (hkeeps.trans hkeeps') (hgraph ▸ hadded) hrun ⟨n₁, hgraph ▸ hn₁, hexpanded⟩ hzeros hnotes
  exact ⟨gen', h', hkeeps.trans hkeeps', hrun', hsurvey', hnotes.start, hnotes.stop,
    by rw [hgraph]; exact hadded.length_expandedIds⟩

omit [DecidableEq S] hrun hn hfinished hvisits in
/-- No node is found deeper than distances can count. -/
theorem depth_le_limit (hroom : Room setup.analysis leq prec (fuel + 1) gen) :
    depth ≤ Distance.limit := by
  have hcount := hsurvey.depth_le hdepth
  rcases hroom with hroom | hroom
  · omega
  · exact hcount.trans (hroom gen h.unguided)

omit [DecidableEq S] h hrun hn hfinished hvisits in
/-- Once a node is expanded, its children are not found deeper than distances can count. -/
theorem succ_le_limit {n₁ : Node S} {gen₁ : Generation S P K}
    (hroom : Room setup.analysis leq prec (fuel + 1) gen)
    (h₁ : Unfolds setup leq prec index [] q gen₁) (hkeeps : gen.Keeps gen₁)
    (hn₁ : gen₁.graph.get? id = some n₁) (hexpanded : n₁.isExpanded = true) :
    depth + 1 ≤ Distance.limit := by
  have hcount := hsurvey.depth_le hdepth
  rcases hroom with hroom | hroom
  · omega
  · have hlevels : ∀ l < depth + 1, ∃ j ∈ gen₁.graph.expandedIds, run.depth? j = some l := by
      intro l hl
      rcases Nat.lt_succ_iff_lt_or_eq.1 hl with hl | rfl
      · obtain ⟨j, m, hj, hm, hexp⟩ := hsurvey.levels hdepth l hl
        obtain ⟨m', hm', hgrows⟩ := hkeeps.grows.node hm
        exact ⟨j, Graph.mem_expandedIds.2 ⟨m', hm', (hgrows.isExpanded hexp).1⟩, hj⟩
      · exact ⟨id, Graph.mem_expandedIds.2 ⟨n₁, hn₁, hexpanded⟩, hdepth⟩
    exact (SearchRun.le_length_of_levels hlevels).trans (hroom gen₁ h₁.unguided)

/-- **A visit meets no fault**, and the search knows about what it has found. -/
theorem visit (hleq : setup.analysis.Refines leq) (hinside : setup.analysis.Encloses prec inside)
    (hroom : Room setup.analysis leq prec (fuel + 1) gen) :
    (visit setup older index run id depth).Ensures p fun run' q =>
      Visits visits setup leq prec index depth gen run run' q := by
  obtain ⟨hleaf, hfree, hopen⟩ := hsurvey.fresh hn fun hvisited => hvisited.2.1 rfl
  simp only [Exploration.visit, ensures_bind]
  refine (h.reroute hrun hsurvey hn hfinished hdepth hleq).mono ?_
  rintro ⟨source, mid⟩ q - ⟨gen₁, h₁, hkeeps, ⟨heq, hgraph, hapart⟩ | ⟨coverer, hrerouted⟩⟩
  · cases heq
    have hn₁ : gen₁.graph.get? id = some n := hgraph ▸ hn
    simp only [ensures_node]
    refine ⟨gen₁, h₁.held, n, hn₁, ?_⟩
    rw [hfree]
    dsimp only
    split
    · rename_i hempty
      have hsurvey₁ : run.Survey visits none gen₁ :=
        (hsurvey.keeps hkeeps hgraph).visited fun m hm => by
          obtain rfl := Option.some.inj (hn₁.symm.trans hm)
          exact .inr (.inr (by simpa using hempty))
      exact ensures_pure.2 ⟨gen₁, h₁, hkeeps, hrun, hsurvey₁, rfl, rfl, by rw [hgraph]; omega⟩
    · rename_i hholds
      have hfeasible : n.isFeasible = true := by simpa using hholds
      simp only [ensures_bind]
      refine (h₁.ensureExpanded hinside hn₁ hfree hleaf hopen hfeasible (hgraph ▸ hapart)).mono ?_
      rintro - q' - ⟨gen₂, new, h₂, hkeeps₂, hadded, n₂, hn₂, hexpanded, rfl⟩
      have hkeeps' := hkeeps.trans hkeeps₂
      simp only [ensures_node]
      exact ⟨gen₂, h₂.held, n₂, hn₂, h.follow_children hrun hsurvey hn hfinished hvisits hdepth h₂
        hkeeps' (hgraph ▸ hadded) hn₂ hexpanded
        (succ_le_limit hsurvey hdepth hroom h₂ hkeeps' hn₂ hexpanded)⟩
  · obtain ⟨a, ha, hcovering⟩ := hrerouted.covering
    simp only [ensures_node]
    refine ⟨gen₁, h₁.held, a, ha, ?_⟩
    rw [hcovering]
    exact h.follow_coverer hrun hsurvey hn hfinished hvisits hdepth h₁ hkeeps hrerouted
      (h.depth_le_limit hsurvey hdepth hroom)

end

end

/-- **All visits meet no fault**, by induction on the steps that are left. -/
theorem visitAll [DecidableEq S] {inside : S → Prop} (h : Unfolds setup leq prec index [] p gen)
    (hleq : setup.analysis.Refines leq) (hinside : setup.analysis.Encloses prec inside)
    (hroom : Room setup.analysis leq prec fuel gen) (hrun : run.Levelled pace)
    (hsurvey : run.Survey setup.search.visitsReached none gen) :
    (visitAll setup older index fuel run).Ensures p fun run' q =>
      ∃ gen', Unfolds setup leq prec index [] q gen' ∧ gen.Keeps gen' ∧
        SearchRun.Proceeds setup.search.visitsReached gen' run' none ∧ run'.start = run.start ∧
        run'.stop = run.stop ∧ Room setup.analysis leq prec 0 gen' := by
  induction fuel generalizing p gen run pace with
  | zero => exact ensures_outOfFuel
  | succ fuel ih =>
    obtain ⟨next, mid, hnext, hstart, hstop, hproceeds⟩ :=
      hsurvey.exists_next hrun h.unguided.reachesTarget
    simp only [Exploration.visitAll, ensures_bind, ensures_generation, ensures_lift]
    refine ⟨gen, h.held, (next, mid), Edit.result_eq_ok.2 hnext, ?_⟩
    dsimp only
    cases next with
    | none =>
      exact ensures_pure.2 ⟨gen, h, .refl gen, hproceeds, hstart, hstop, hroom.imp_left (by omega)⟩
    | some entry =>
      obtain ⟨id, depth⟩ := entry
      obtain ⟨hmid, hsurvey', hdepth, hfinished, n, hn, hvisits⟩ := hproceeds
      simp only [ensures_bind]
      refine (h.visit hmid hsurvey' hn hfinished hvisits hdepth hleq hinside hroom).mono ?_
      rintro run₁ q - ⟨gen₁, h₁, hkeeps, hrun₁, hsurvey₁, hstart₁, hstop₁, hcount⟩
      refine (ih h₁ (hroom.imp_left (by omega)) hrun₁ hsurvey₁).mono ?_
      rintro run' q' - ⟨gen', h', hkeeps', hover, hstart', hstop', hroom'⟩
      exact ⟨gen', h', hkeeps.trans hkeeps', hover, hstart'.trans (hstart₁.trans hstart),
        hstop'.trans (hstop₁.trans hstop), hroom'⟩

end Unfolds

end GuidedReach.Exploration
