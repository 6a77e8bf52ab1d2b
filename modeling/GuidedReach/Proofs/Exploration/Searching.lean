import GuidedReach.Proofs.Exploration.Nodes
import GuidedReach.Proofs.SearchRun.Waitlist

/-!
# Searches in a generation

A search only expands and covers nodes that may reach a target. An exhaustive one leaves nothing
out: whatever is below a node that was visited was seen as well, or is hopeless.

* `Graph.Handled` — what is below a node was reached.
* `Graph.Faithful.visited_or` — if all visited nodes are handled, all nodes were visited or are ruled
  out.
* `Exploration.visit_ok` — a visit handles its node, and leaves those handled before as they are.
* `Exploration.visitAll_ok` — a search that hands out all it sees handles all it sees.
* `Exploration.Exhausted` — what is left of an exhaustive search.
-/

namespace GuidedReach

variable {S P K : Type}

/-- What is right below a node was reached: its coverer or, if nothing covers it, all there is. -/
def Graph.Handled (reached : NodeId → Prop) (g : Graph S) (id : NodeId) : Prop :=
  ∃ n, g.get? id = some n ∧ ((∃ c, n.covering = some c ∧ reached c) ∨
    n.covering = none ∧ (n.isFeasible = false ∨ n.isExpanded = true ∧ ∀ c ∈ n.succs, reached c))

theorem Graph.Handled.mono {reached reached' : NodeId → Prop} {g : Graph S} {id : NodeId}
    (h : g.Handled reached id) (hle : ∀ c, reached c → reached' c) : g.Handled reached' id := by
  obtain ⟨n, hn, ⟨c, hc, hreached⟩ | ⟨hfree, hrest⟩⟩ := h
  · exact ⟨n, hn, .inl ⟨c, hc, hle c hreached⟩⟩
  · exact ⟨n, hn, .inr ⟨hfree, hrest.imp_right fun ⟨hexp, hall⟩ => ⟨hexp, fun c hc => hle c (hall c hc)⟩⟩⟩

/-- Every node was visited or is ruled out, if that is so for the init nodes, for what is below nodes
that were visited, and below nodes that are ruled out. The induction is on the number of a node. -/
theorem Graph.Faithful.visited_or {analysis : Analysis S P K} {allowed : P → Prop} {g : Graph S}
    (hg : g.Faithful analysis allowed) (visited out : NodeId → Prop)
    (hstart : ∀ i ∈ g.initNodes, visited i ∨ out i)
    (hhandled : ∀ i, visited i → g.Handled (fun c => visited c ∨ out c) i)
    (hchild : ∀ {i n parent}, g.get? i = some n → n.parent = some parent → out parent → out i)
    {i : NodeId} {n : Node S} (hn : g.get? i = some n) : visited i ∨ out i := by
  have hwf := hg.wellFormed
  induction i using Nat.strongRecOn generalizing n with
  | ind i ih =>
    cases hparent : n.parent with
    | none => exact hstart i ((hwf.mem_initNodes_iff hn).2 hparent)
    | some parent =>
      obtain ⟨hlt, -⟩ := hwf.parent_link hn hparent
      obtain ⟨m, hm, hsucc⟩ := hwf.exists_parent hn hparent
      rcases ih parent hlt hm with hvisited | hout
      · obtain ⟨m', hm', hrest⟩ := hhandled parent hvisited
        obtain rfl := Option.some.inj (hm.symm.trans hm')
        rcases hrest with ⟨c, hc, -⟩ | ⟨-, hempty | ⟨-, hall⟩⟩
        · -- nothing is below a covered node
          rw [(hg.covering hm hc).1] at hsucc
          cases hsucc
        · rw [(hg.infeasible_leaf hm hempty).1] at hsucc
          cases hsucc
        · exact hall i hsucc
      · exact .inr (hchild hn hparent hout)

/-- The search has seen a node, or does not need to. -/
def SearchRun.Reached (run : SearchRun) (gen : Generation S P K) (id : NodeId) : Prop :=
  run.Sees id ∨ gen.Hopeless id

theorem Generation.Hopeless.keeps {gen gen' : Generation S P K} {id : NodeId}
    (h : gen.Hopeless id) (hkeeps : gen.Keeps gen') : gen'.Hopeless id :=
  h.imp (fun h => hkeeps.heuristic h rfl) fun h => hkeeps.distance h rfl

theorem SearchRun.Reached.keeps {gen gen' : Generation S P K} {run run' : SearchRun} {id : NodeId}
    (h : run.Reached gen id) (hkeeps : gen.Keeps gen') (hextends : run.Extends run') :
    run'.Reached gen' id :=
  h.imp hextends.sees fun h => h.keeps hkeeps

namespace Exploration

open Explore

variable [DecidableEq S] [DecidableEq K]
variable {setup : Setup S P K} {older : Older S P K} {index : Nat} {allowed : P → Prop}
variable {p q : Progress S P K} {gen gen' : Generation S P K} {run run' : SearchRun} {id : NodeId}

/-! ## While a search goes on -/

section

variable (hlaws : setup.analysis.Lawful) (hp : p.history.Faithful setup.analysis allowed)
variable (hgen : p.history.get? index = some gen)

include hlaws hp hgen

/-- The generation after some steps: known values are kept, and there are no new distances. -/
theorem Quiet.generation (h : Quiet setup index p q) :
    q.history.Faithful setup.analysis allowed ∧ ∃ gen', q.history.get? index = some gen' ∧
      gen.Keeps gen' ∧
      ∀ id d, gen'.distance id = .ok d → d.isKnown = true → gen.distance id = .ok d := by
  obtain ⟨hq, hkeeps⟩ := h.keeps hlaws hp
  obtain ⟨gen', hgen', hkept⟩ := hkeeps index gen hgen
  obtain ⟨old, hold, hdistance⟩ := h.noNewDistances gen' hgen'
  obtain rfl := Option.some.inj (hgen.symm.trans hold)
  exact ⟨hq, gen', hgen', hkept, hdistance⟩

theorem Quiet.searchable (h : Quiet setup index p q) (hgen' : q.history.get? index = some gen')
    (hid : gen.Searchable id) : gen'.Searchable id := by
  obtain ⟨-, gen'', hgen'', hkept, hdistance⟩ := h.generation hlaws hp hgen
  obtain rfl := Option.some.inj (hgen'.symm.trans hgen'')
  obtain ⟨d, hd, hknown, hfinite, hopen⟩ := hid
  exact ⟨d, hkept.heuristic hd hknown, hknown, hfinite, fun hd => hopen (hdistance id _ hd rfl)⟩

theorem Quiet.orderly (h : Quiet setup index p q) (hgen' : q.history.get? index = some gen')
    (hrun : run.Orderly gen) : run.Orderly gen' :=
  ⟨fun e he => h.searchable hlaws hp hgen hgen' (hrun.searchable e he), hrun.found⟩

variable (holder : older.Lawful setup allowed index)

include holder

theorem follow_ok {next : NodeId} {depth : Nat} (hrun : run.Orderly gen)
    (h : (follow setup older index run id next depth).run p = .ok (run', q)) :
    Quiet setup index p q ∧ ∃ gen', q.history.get? index = some gen' ∧ gen'.graph = gen.graph ∧
      run'.Orderly gen' ∧ run.Extends run' ∧ run'.Reached gen' next := by
  simp only [follow, run_bind_ok, run_generation_ok, run_lift_ok, run_pure_ok, Prod.exists] at h
  obtain ⟨d, r, hensure, gen₁, _, ⟨hgen₁, rfl⟩, _, _, ⟨-, rfl⟩, _, mid, _, ⟨henqueue, rfl⟩, rfl,
    rfl⟩ := h
  obtain ⟨hquiet, -, gen', hr, hgraph, -, -⟩ := ensureHeuristic_ok holder hp hgen hensure
  obtain rfl := Option.some.inj (hr.symm.trans hgen₁)
  obtain ⟨hrun', hextends, hnext⟩ := SearchRun.enqueue_ok (hquiet.orderly hlaws hp hgen hr hrun)
    (Edit.result_eq_ok.1 henqueue)
  exact ⟨hquiet, gen', hr, hgraph, hrun', hextends, hnext⟩

theorem forM_createSearchNode_ok {ids : List NodeId}
    (hparent : ∀ i ∈ ids, ∀ n parent, gen.graph.get? i = some n → n.parent = some parent →
      ∃ d, gen.heuristic parent = .ok d ∧ d.isKnown = true) {u : Unit}
    (h : (ids.forM (createSearchNode setup older index)).run p = .ok (u, q)) :
    Quiet setup index p q ∧ ∃ gen', q.history.get? index = some gen' ∧ gen'.graph = gen.graph := by
  refine run_forM_induct (motive := fun r => Quiet setup index p r ∧
    ∃ gen', r.history.get? index = some gen' ∧ gen'.graph = gen.graph) ?_ ⟨.refl p, gen, hgen, rfl⟩ h
  rintro i r r' hi ⟨hquiet, gen₁, hr, hgraph⟩ hcreate
  obtain ⟨hr', gen₂, hgen₂, hkept, -⟩ := hquiet.generation hlaws hp hgen
  obtain rfl := Option.some.inj (hr.symm.trans hgen₂)
  obtain ⟨hquiet', gen', hgen', hgraph'⟩ := createSearchNode_ok holder hr' hlaws hr
    (fun n parent hn hp => by
      obtain ⟨d, hd, hknown⟩ := hparent i hi n parent (hgraph ▸ hn) hp
      exact ⟨d, hkept.heuristic hd hknown, hknown⟩) hcreate
  exact ⟨hquiet.trans hquiet', gen', hgen', hgraph'.trans hgraph⟩

/-! ## Visiting a node -/

omit holder in
/-- An open node was expanded: the tree parent of its new successors has a known heuristic, so that
they can get search nodes. -/
theorem expand_added {n : Node S} (hn : gen.graph.get? id = some n) (hfree : n.covering = none)
    (hopen : n.isExpanded = false) (hpossible : n.isTarget = true ∨ n.isFeasible = true)
    {d : Distance} (hd : gen.heuristic id = .ok d) (hknown : d.isKnown = true)
    (hsearched : n.isTarget = true ∨ d ≠ .infinite ∧ gen.distance id ≠ .ok .infinite)
    (hclosed : gen.Uncoverable setup.analysis id) {new : List NodeId}
    (h : (expand setup index id).run p = .ok (new, q)) :
    Quiet setup index p q ∧ ∃ gen' n', q.history.get? index = some gen' ∧
      Graph.AddedLeaves (some id) new gen.graph gen'.graph ∧ gen'.graph.get? id = some n' ∧
      n'.isExpanded = true ∧
      ∀ i ∈ new, ∀ m parent, gen'.graph.get? i = some m → m.parent = some parent →
        ∃ d, gen'.heuristic parent = .ok d ∧ d.isKnown = true := by
  obtain ⟨hquiet, graph, hq, hrun⟩ :=
    expand_ok hgen hn hfree hopen hpossible hd hknown hsearched hclosed h
  obtain ⟨hfaithful, hprec⟩ := hp index gen hgen
  have hfeasible : n.isFeasible = true :=
    hpossible.elim (hfaithful.isFeasible_of_isTarget hlaws hn) fun h => h
  obtain ⟨-, hadded, n', hn', hexpanded⟩ :=
    Graph.expand_ok hfaithful hprec hn hfree hfeasible hopen hrun
  refine ⟨hquiet, { gen with graph }, n', hq, hadded, hn', hexpanded, fun i hi m parent hm hparent => ?_⟩
  obtain rfl := Option.some.inj (hparent.symm.trans (hadded.parent_eq hi hm))
  exact ⟨d, hd, hknown⟩

/-- Either nothing is new, or the node was expanded; then it was open before. -/
theorem ensureExpanded_ok {n : Node S} (hn : gen.graph.get? id = some n) (hfree : n.covering = none)
    (hfeasible : n.isFeasible = true) (hid : gen.Searchable id)
    (hclosed : gen.Uncoverable setup.analysis id) {u : Unit}
    (h : (ensureExpanded setup older index id).run p = .ok (u, q)) :
    Quiet setup index p q ∧ ∃ gen' n', q.history.get? index = some gen' ∧
      gen'.graph.get? id = some n' ∧ n'.covering = none ∧ n'.isExpanded = true ∧
      ∀ {i reached}, i ≠ id → gen.graph.Handled reached i → gen'.graph.Handled reached i := by
  simp only [ensureExpanded, run_bind_ok, run_node_ok, Graph.node_eq_ok] at h
  obtain ⟨n', _, ⟨_, hgen', hn', rfl⟩, h⟩ := h
  obtain rfl := Option.some.inj (hgen.symm.trans hgen')
  obtain rfl := Option.some.inj (hn.symm.trans hn')
  split at h
  · rename_i hexpanded
    obtain ⟨-, rfl⟩ := run_pure_ok.1 h
    exact ⟨.refl p, gen, n, hgen, hn, hfree, hexpanded, fun _ h => h⟩
  · rename_i hopen
    obtain ⟨new, r, hexpand, hcreate⟩ := run_bind_ok.1 h
    obtain ⟨d, hd, hknown, hfinite, hdistance⟩ := hid
    obtain ⟨hquiet, gen₁, n', hr, hadded, hn', hexpanded, hparent⟩ := expand_added hlaws hp hgen hn
      hfree (by simpa using hopen) (.inr hfeasible) hd hknown (.inr ⟨hfinite, hdistance⟩) hclosed
      hexpand
    obtain ⟨hquiet', gen', hgen', hgraph⟩ :=
      forM_createSearchNode_ok hlaws (hquiet.keeps hlaws hp).1 hr holder hparent hcreate
    have hold : ∀ {i m'}, (∃ m, gen.graph.get? i = some m) → gen₁.graph.get? i = some m' →
        ∃ m, gen.graph.get? i = some m ∧ m'.covering = m.covering ∧
          m'.isFeasible = m.isFeasible ∧ (i ≠ id → m'.succs = m.succs ∧ m'.isExpanded = m.isExpanded) := by
      rintro i m' ⟨m, hm⟩ hm'
      obtain ⟨m₁, hm₁, hgrows, hcov, hlinks⟩ := hadded.exists_old (hadded.notMem hm) hm'
      exact ⟨m₁, hm₁, hcov, hgrows.isFeasible, fun hne => hlinks fun heq => hne (Option.some.inj heq)⟩
    refine ⟨hquiet.trans hquiet', gen', n', hgen', hgraph ▸ hn', ?_, hexpanded, ?_⟩
    · obtain ⟨m, hm, hcov, -⟩ := hold ⟨n, hn⟩ hn'
      obtain rfl := Option.some.inj (hn.symm.trans hm)
      exact hcov.trans hfree
    · rintro i reached hne ⟨m, hm, hhandled⟩
      obtain ⟨m', hm', -⟩ := hadded.grows.node hm
      obtain ⟨m₁, hm₁, hcov, hfeas, hlinks⟩ := hold ⟨m, hm⟩ hm'
      obtain rfl := Option.some.inj (hm.symm.trans hm₁)
      obtain ⟨hsuccs, hexp⟩ := hlinks hne
      exact ⟨m', hgraph ▸ hm', by rwa [hcov, hfeas, hsuccs, hexp]⟩

/-- The node to continue with is covered by the new coverer, if there is one. -/
theorem reroute_ok (hrun : run.Orderly gen) (hid : gen.Searchable id) {id' : NodeId}
    (h : (reroute setup older index run id).run p = .ok ((id', run'), q)) :
    Quiet setup index p q ∧ ∃ gen' result, q.history.get? index = some gen' ∧
      CoveredBy id result gen.graph gen'.graph ∧ run'.Orderly gen' ∧ run.Extends run' ∧
      (result = none → id' = id ∧ gen'.Uncoverable setup.analysis id) ∧
      ∀ c, result = some c → ∃ n, gen'.graph.get? id' = some n ∧ n.covering = some c := by
  obtain ⟨-, -, -, -, hdistance⟩ := hid
  obtain ⟨result, r, hclose, h⟩ := run_bind_ok.1 h
  obtain ⟨hquiet, gen', hr, hcovered, hclosed⟩ :=
    close_ok holder hp hlaws hgen (fun _ _ => .inr hdistance) hclose
  have hrun' := hquiet.orderly hlaws hp hgen hr hrun
  cases result with
  | none =>
    obtain ⟨heq, rfl⟩ := run_pure_ok.1 h
    obtain ⟨rfl, rfl⟩ := Prod.mk.inj heq
    exact ⟨hquiet, gen', none, hr, hcovered, hrun', .refl run, fun _ => ⟨rfl, hclosed rfl⟩, by simp⟩
  | some coverer =>
    have hself : ∃ n, gen'.graph.get? id = some n ∧ n.covering = some coverer := by
      obtain ⟨a, ha, hrewritten⟩ := hcovered
      exact ⟨_, hrewritten.get?_of_get? ha, by simp [Graph.coverNode]⟩
    -- the search parent was covered by the node, so it is covered by the new coverer
    have hend : r = q ∧ run.Extends run' ∧ run'.waitlist = run.waitlist ∧
        run'.depths = run.depths ∧ ∃ n, gen'.graph.get? id' = some n ∧ n.covering = some coverer := by
      dsimp only at h
      split at h
      · simp only [run_bind_ok, run_generation_ok, run_lift_ok, Graph.node_eq_ok] at h
        obtain ⟨_, _, ⟨hgen₁, rfl⟩, n, _, ⟨hn, rfl⟩, h⟩ := h
        obtain rfl := Option.some.inj (hr.symm.trans hgen₁)
        split at h
        · rename_i hcovering
          simp only [run_bind_ok, run_lift_ok, run_pure_ok, Prod.mk.injEq] at h
          obtain ⟨_, _, ⟨-, rfl⟩, ⟨rfl, rfl⟩, rfl⟩ := h
          exact ⟨rfl, ⟨rfl, rfl, rfl, fun _ he => he⟩, rfl, rfl, n, hn, hcovering⟩
        · obtain ⟨heq, rfl⟩ := run_pure_ok.1 h
          obtain ⟨rfl, rfl⟩ := Prod.mk.inj heq
          exact ⟨rfl, .refl run, rfl, rfl, hself⟩
      · obtain ⟨heq, rfl⟩ := run_pure_ok.1 h
        obtain ⟨rfl, rfl⟩ := Prod.mk.inj heq
        exact ⟨rfl, .refl run, rfl, rfl, hself⟩
    obtain ⟨rfl, hextends, hwaitlist, hdepths, hid'⟩ := hend
    refine ⟨hquiet, gen', some coverer, hr, hcovered, ⟨fun e he => ?_, fun {i depth} hi => ?_⟩,
      hextends, by simp, fun c hc => Option.some.inj hc ▸ hid'⟩
    · exact hrun'.searchable e (hwaitlist ▸ he)
    · exact hextends.sees (hrun'.found (by rwa [SearchRun.depth?, ← hdepths]))

omit hlaws hp hgen holder [DecidableEq S] [DecidableEq K] in
theorem CoveredBy.handled {g g' : Graph S} {coverer i : NodeId} {reached : NodeId → Prop}
    (h : CoveredBy id (some coverer) g g') (hcoverer : reached coverer)
    (hi : i = id ∨ g.Handled reached i) : g'.Handled reached i := by
  obtain ⟨a, ha, hrewritten⟩ := h
  obtain ⟨n, hn, hhandled⟩ : ∃ n, g.get? i = some n ∧ (i = id ∨ _) :=
    hi.elim (fun heq => ⟨a, heq ▸ ha, .inl heq⟩) fun ⟨n, hn, hrest⟩ => ⟨n, hn, .inr hrest⟩
  refine ⟨_, hrewritten.get?_of_get? hn, ?_⟩
  by_cases hmoved : i = id ∨ n.covering = some id
  · exact .inl ⟨coverer, if_pos hmoved, hcoverer⟩
  · rw [Graph.coverNode, if_neg hmoved]
    exact hhandled.resolve_left fun heq => hmoved (.inl heq)

theorem foldlM_follow_ok {succs : List NodeId} {depth : Nat} (hrun : run.Orderly gen)
    (h : (succs.foldlM (fun run succ => follow setup older index run id succ depth) run).run p =
      .ok (run', q)) :
    Quiet setup index p q ∧ ∃ gen', q.history.get? index = some gen' ∧ gen'.graph = gen.graph ∧
      run'.Orderly gen' ∧ run.Extends run' ∧ ∀ succ ∈ succs, run'.Reached gen' succ := by
  induction succs generalizing run p gen with
  | nil =>
    obtain ⟨rfl, rfl⟩ := run_pure_ok.1 h
    exact ⟨.refl p, gen, hgen, rfl, hrun, .refl run, by simp⟩
  | cons succ succs ih =>
    rw [List.foldlM_cons] at h
    obtain ⟨mid, r, hfollow, h⟩ := run_bind_ok.1 h
    obtain ⟨hquiet, gen₁, hr, hgraph, hmid, hextends, hreached⟩ :=
      follow_ok hlaws hp hgen holder hrun hfollow
    obtain ⟨hr', -⟩ := hquiet.keeps hlaws hp
    obtain ⟨hquiet', gen', hq, hgraph', hrun', hextends', hall⟩ := ih hr' hr hmid h
    obtain ⟨-, gen₂, hgen₂, hkept, -⟩ := hquiet'.generation hlaws hr' hr
    obtain rfl := Option.some.inj (hq.symm.trans hgen₂)
    exact ⟨hquiet.trans hquiet', gen', hq, hgraph'.trans hgraph, hrun', hextends.trans hextends',
      List.forall_mem_cons.2 ⟨hreached.keeps hkept hextends', hall⟩⟩

/-- **A visit handles its node**: what is right below it was reached afterwards, and so was what is
below the nodes that were handled before. -/
theorem visit_ok {depth : Nat} (hrun : run.Orderly gen) (hid : gen.Searchable id)
    (h : (visit setup older index run id depth).run p = .ok (run', q)) :
    Quiet setup index p q ∧ ∃ gen', q.history.get? index = some gen' ∧ run'.Orderly gen' ∧
      run.Extends run' ∧ ∀ i, i = id ∨ gen.graph.Handled (run.Reached gen) i →
        gen'.graph.Handled (run'.Reached gen') i := by
  simp only [visit, run_bind_ok, run_node_ok, Graph.node_eq_ok, Prod.exists] at h
  obtain ⟨id', mid, r, hreroute, n, _, ⟨gen₀, hr, hn, rfl⟩, h⟩ := h
  obtain ⟨hquiet, gen₁, result, hgen₁, hcovered, hmid, hextends, hstay, hmoved⟩ :=
    reroute_ok hlaws hp hgen holder hrun hid hreroute
  obtain rfl := Option.some.inj (hr.symm.trans hgen₁)
  obtain ⟨hr', gen₂, hgen₂, hkept, -⟩ := hquiet.generation hlaws hp hgen
  obtain rfl := Option.some.inj (hr.symm.trans hgen₂)
  have hfree : n.covering = none → result = none := fun hfree => by
    cases result with
    | none => rfl
    | some c =>
      obtain ⟨n', hn', hcov⟩ := hmoved c rfl
      obtain rfl := Option.some.inj (hn.symm.trans hn')
      simp [hfree] at hcov
  split at h
  · rename_i coverer hcovering
    obtain ⟨hquiet', gen', hq, hgraph, hrun', hextends', hcoverer⟩ :=
      follow_ok hlaws hr' hr holder hmid h
    obtain ⟨-, gen₃, hgen₃, hkept', -⟩ := hquiet'.generation hlaws hr' hr
    obtain rfl := Option.some.inj (hq.symm.trans hgen₃)
    refine ⟨hquiet.trans hquiet', gen', hq, hrun', hextends.trans hextends', fun i hi => ?_⟩
    have hi : i = id ∨ gen.graph.Handled (run'.Reached gen') i := hi.imp_right fun h =>
      h.mono fun c hc => hc.keeps (hkept.trans hkept') (hextends.trans hextends')
    rw [hgraph]
    cases result with
    | some c =>
      obtain ⟨n', hn', hcov⟩ := hmoved c rfl
      obtain rfl := Option.some.inj (hn.symm.trans hn')
      obtain rfl := Option.some.inj (hcovering.symm.trans hcov)
      exact hcovered.handled hcoverer hi
    | none =>
      obtain ⟨rfl, -⟩ := hstay rfl
      rw [show _ = gen.graph from hcovered] at hn ⊢
      obtain rfl | hi := hi
      · exact ⟨n, hn, .inl ⟨coverer, hcovering, hcoverer⟩⟩
      · exact hi
  · rename_i hcovering
    obtain rfl := hfree hcovering
    obtain ⟨rfl, hclosed⟩ := hstay rfl
    have hgraph : gen₀.graph = gen.graph := hcovered
    split at h
    · rename_i hempty
      obtain ⟨rfl, rfl⟩ := run_pure_ok.1 h
      refine ⟨hquiet, gen₀, hr, hmid, hextends, fun i hi => ?_⟩
      obtain rfl | hi := hi
      · exact ⟨n, hn, .inr ⟨hcovering, .inl (by simpa using hempty)⟩⟩
      · exact hgraph ▸ hi.mono fun c hc => hc.keeps hkept hextends
    · rename_i hfeasible
      simp only [run_bind_ok, run_node_ok, Graph.node_eq_ok] at h
      obtain ⟨_, s, hensure, n₁, _, ⟨gen₁, hs, hn₁, rfl⟩, h⟩ := h
      obtain ⟨hquiet', gen₂, n₂, hgen₂, hn₂, hfree', hexpanded, hhandled⟩ :=
        ensureExpanded_ok hlaws hr' hr holder hn hcovering (by simpa using hfeasible)
          (hquiet.searchable hlaws hp hgen hr hid) hclosed hensure
      obtain rfl := Option.some.inj (hs.symm.trans hgen₂)
      obtain rfl := Option.some.inj (hn₁.symm.trans hn₂)
      obtain ⟨hs', gen₂, hgen₂, hkept', -⟩ := hquiet'.generation hlaws hr' hr
      obtain rfl := Option.some.inj (hs.symm.trans hgen₂)
      obtain ⟨hquiet'', gen', hq, hgraph', hrun', hextends', hall⟩ := foldlM_follow_ok hlaws hs' hs
        holder (hquiet'.orderly hlaws hr' hr hs hmid) h
      obtain ⟨-, gen₃, hgen₃, hkept'', -⟩ := hquiet''.generation hlaws hs' hs
      obtain rfl := Option.some.inj (hq.symm.trans hgen₃)
      refine ⟨hquiet.trans (hquiet'.trans hquiet''), gen', hq, hrun', hextends.trans hextends',
        fun i hi => hgraph' ▸ ?_⟩
      rcases eq_or_ne i id' with rfl | hne
      · exact ⟨n₁, hn₁, .inr ⟨hfree', .inr ⟨hexpanded, hall⟩⟩⟩
      · refine hhandled hne (hgraph ▸ (hi.resolve_left hne).mono fun c hc => ?_)
        exact hc.keeps (hkept.trans (hkept'.trans hkept'')) (hextends.trans hextends')

/-! ## Visiting all nodes -/

/-- **A search loses nothing** that it has reached. If it visits all nodes that it hands out and
never stops early, then nothing is left waiting, and all it has visited is handled. -/
theorem visitAll_ok {fuel : Nat} (hrun : run.Orderly gen)
    (h : (visitAll setup older index fuel run).run p = .ok (run', q)) :
    Quiet setup index p q ∧ ∃ gen', q.history.get? index = some gen' ∧
      (∀ i, run.Reached gen i → run'.Reached gen' i) ∧
      (setup.search.visitsReached = true → run.stop = .fullExploration →
        (∀ i ∈ run.finished, gen.graph.Handled (run.Reached gen) i) →
        run'.waitlist = [] ∧ ∀ i ∈ run'.finished, gen'.graph.Handled (run'.Reached gen') i) := by
  induction fuel generalizing p gen run with
  | zero => exact (run_throw_ok.1 h).elim
  | succ fuel ih =>
    simp only [visitAll, run_bind_ok, run_generation_ok, run_lift_ok, Prod.exists,
      Edit.result_eq_ok] at h
    obtain ⟨_, _, ⟨hgen', rfl⟩, next, mid, _, ⟨hnext, rfl⟩, h⟩ := h
    obtain rfl := Option.some.inj (hgen.symm.trans hgen')
    have hout := SearchRun.next_ok hnext
    have hmid := hout.orderly hrun
    have hreached : ∀ i, run.Reached gen i → mid.Reached gen i := fun i hi =>
      hi.imp_left hout.sees
    cases next with
    | none =>
      obtain ⟨rfl, rfl⟩ := run_pure_ok.1 h
      refine ⟨.refl p, gen, hgen, hreached, fun hvisits hfull hhandled =>
        ⟨hout.exhausted hfull rfl, fun i hi => ?_⟩⟩
      obtain hi | ⟨_, hi⟩ := hout.finished hvisits hi
      · exact (hhandled i hi).mono hreached
      · simp at hi
    | some entry =>
      obtain ⟨id, depth⟩ := entry
      obtain ⟨run₁, r, hvisit, hrest⟩ := run_bind_ok.1 h
      obtain ⟨e, he, rfl⟩ := hout.waited rfl
      obtain ⟨hquiet, gen₁, hr, hrun₁, hextends, hhandled₁⟩ :=
        visit_ok hlaws hp hgen holder hmid (hrun.searchable e he) hvisit
      obtain ⟨hr', gen₂, hgen₂, hkept, -⟩ := hquiet.generation hlaws hp hgen
      obtain rfl := Option.some.inj (hr.symm.trans hgen₂)
      obtain ⟨hquiet', gen', hq, hreached', hend⟩ := ih hr' hr hrun₁ hrest
      refine ⟨hquiet.trans hquiet', gen', hq,
        fun i hi => hreached' i ((hreached i hi).keeps hkept hextends),
        fun hvisits hfull hhandled => hend hvisits (hextends.stop.trans (hout.stop.trans hfull)) ?_⟩
      intro i hi
      rw [hextends.finished] at hi
      refine hhandled₁ i ?_
      obtain hi | ⟨_, hi⟩ := hout.finished hvisits hi
      · exact .inr ((hhandled i hi).mono hreached)
      · cases hi
        exact .inl rfl

/-! ## Starting and settling -/

omit hlaws holder in
/-- What may not be searched from is infinitely far away. -/
theorem searchableStart_ok {start searched : List NodeId}
    (h : (searchableStart index start).run p = .ok (searched, q)) :
    Upto setup index p q ∧ ∃ gen', q.history.get? index = some gen' ∧ gen.Keeps gen' ∧
      (∀ id d, gen'.distance id = .ok (.finite d) → gen.distance id = .ok (.finite d)) ∧
      ∀ i ∈ start, i ∈ searched ∨ gen'.distance i = .ok .infinite := by
  induction start generalizing p gen searched with
  | nil =>
    obtain ⟨rfl, rfl⟩ := run_pure_ok.1 h
    exact ⟨.refl p, gen, hgen, .refl gen, fun _ _ h => h, by simp⟩
  | cons id start ih =>
    simp only [searchableStart, run_bind_ok, run_generation_ok, run_lift_ok] at h
    obtain ⟨_, _, ⟨hgen', rfl⟩, d, _, ⟨hd, rfl⟩, h⟩ := h
    obtain rfl := Option.some.inj (hgen.symm.trans hgen')
    split at h
    · rename_i hrefuted
      obtain rfl := Distance.isInfinite_iff.1 hrefuted
      simp only [run_bind_ok, run_setDistance_ok] at h
      obtain ⟨_, _, ⟨_, gen₁, hgen', hset, rfl⟩, h⟩ := h
      obtain rfl := Option.some.inj (hgen.symm.trans hgen')
      have hsettle : Settle setup index p (p.put index gen₁) := .start hgen hd hset
      have hkept : gen.Keeps gen₁ := .of_distanceWrites (.of_setDistance hset)
      obtain ⟨hupto, gen', hq, hkept', hfinite, hall⟩ :=
        ih (hsettle.keeps hp).1 (Progress.get?_put_self hgen) h
      refine ⟨hsettle.upto.trans hupto, gen', hq, hkept.trans hkept', fun i e hi => ?_,
        List.forall_mem_cons.2 ⟨.inr (hkept'.distance ?_ rfl), hall⟩⟩
      · obtain ⟨-, he⟩ | hi := Generation.distance_of_setDistance hset (hfinite i e hi)
        · simp at he
        · exact hi
      · exact (Generation.distance_self_of_setDistance hset).1
    · simp only [run_bind_ok, run_lift_ok] at h
      obtain ⟨e, _, ⟨he, rfl⟩, h⟩ := h
      split at h
      · rename_i hsettled
        obtain rfl := Distance.isInfinite_iff.1 hsettled
        obtain ⟨hupto, gen', hq, hkept, hfinite, hall⟩ := ih hp hgen h
        exact ⟨hupto, gen', hq, hkept, hfinite,
          List.forall_mem_cons.2 ⟨.inr (hkept.distance he rfl), hall⟩⟩
      · simp only [run_bind_ok, run_pure_ok] at h
        obtain ⟨rest, _, hrest, rfl, rfl⟩ := h
        obtain ⟨hupto, gen', hq, hkept, hfinite, hall⟩ := ih hp hgen hrest
        exact ⟨hupto, gen', hq, hkept, hfinite, List.forall_mem_cons.2
          ⟨.inl List.mem_cons_self, fun i hi => (hall i hi).imp_left (List.mem_cons_of_mem _)⟩⟩

theorem forM_ensureHeuristic_ok {ids : List NodeId} {u : Unit}
    (h : (ids.forM fun id => do let _ ← ensureHeuristic setup older index id).run p = .ok (u, q)) :
    Quiet setup index p q := by
  refine run_forM_induct (motive := Quiet setup index p) (fun id r r' _ hquiet hrun => ?_)
    (.refl p) h
  obtain ⟨hr, gen', hgen', -, -⟩ := hquiet.generation hlaws hp hgen
  obtain ⟨_, s, hensure, hpure⟩ := run_bind_ok.1 hrun
  obtain ⟨-, rfl⟩ := run_pure_ok.1 hpure
  exact hquiet.trans (ensureHeuristic_ok holder hr hgen' hensure).1

end

end Exploration

end GuidedReach
