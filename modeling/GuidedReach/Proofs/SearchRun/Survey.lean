import GuidedReach.Proofs.Ensures
import GuidedReach.Proofs.Exploration.Keeps
import GuidedReach.Proofs.Graph.Paths
import GuidedReach.Proofs.SearchRun.Levelled

/-!
# What a search without heuristics finds out

Such a search finds every node at the length of a shortest path to it: what can be reached along edges
was found, no deeper than the edges allow, and each search parent leads to its node by an edge. The
parents stay right while nodes are covered: what was found through a node that is covered now is found
through its new coverer, and the node itself is forgotten.

* `SearchRun.Survey` — what the search knows about its graph, save for the node that it visits.
* `SearchRun.Survey.finish`, `SearchRun.Survey.exists_next` — handing out nodes keeps it true.
* `SearchRun.Survey.visited`, `SearchRun.Survey.expanded`, `SearchRun.Survey.covered` — so do the ways
  in which a visit can end.
-/

namespace GuidedReach.SearchRun

variable {S P K : Type} {gen gen' : Generation S P K} {run mid run' : SearchRun} {pace depth : Nat}
variable {visits : Bool} {current : Option NodeId} {id : NodeId} {n : Node S}

/-- The search started at a node, or knows from where it was found. -/
def Rooted (run : SearchRun) (id : NodeId) : Prop :=
  id ∈ run.start ∨ ∃ parent, run.parent? id = some parent

/-- A node was visited. Unless the search visits them, targets are only finished; and the visit of the
current node is not over yet. -/
def Visited (visits : Bool) (current : Option NodeId) (run : SearchRun) (id : NodeId) (n : Node S) :
    Prop :=
  id ∈ run.finished ∧ current ≠ some id ∧ (visits = true ∨ n.isTarget = false)

/-- It depends on what is finished only. -/
theorem visited_congr {i : NodeId} (hfinished : run'.finished = run.finished) :
    run'.Visited visits current i n ↔ run.Visited visits current i n := by
  simp only [Visited, hfinished]

/-- News about nodes do not uproot others. -/
theorem Rooted.of_notes {source : NodeId} {ids : List NodeId} {i : NodeId} (h : run.Rooted i)
    (hnotes : Notes (some source) depth ids run run') : run'.Rooted i := by
  rcases h with hstart | ⟨p, hp⟩
  · exact .inl (hnotes.start ▸ hstart)
  · rcases hnotes.cases i with ⟨-, hsame⟩ | ⟨-, -, -, -, hparent⟩
    · exact .inr ⟨p, hsame.trans hp⟩
    · exact .inr ⟨source, hparent⟩

/-- Nodes were found no deeper than the edges to them allow, the nodes that were visited are explored,
and nothing else is. Each search parent has an edge to its node; only covered nodes may have lost
theirs. -/
structure Survey (visits : Bool) (current : Option NodeId) (gen : Generation S P K)
    (run : SearchRun) : Prop where
  judged : ∀ {i d}, run.depth? i = some d →
    (∃ n, gen.graph.get? i = some n) ∧ gen.heuristic i = .ok .zero
  start : ∀ i ∈ run.start, run.depth? i = some 0
  parent : ∀ {i p}, run.parent? i = some p → p ∈ run.finished ∧ run.Rooted p ∧
    ∃ w d, gen.graph.Edge p i w ∧ run.depth? p = some d ∧ run.depth? i = some (d + w)
  origin : ∀ {i d n}, run.depth? i = some d → gen.graph.get? i = some n →
    run.Rooted i ∨ n.isCovered = true
  edge : ∀ {i j w d}, gen.graph.Edge i j w → run.depth? i = some d →
    ∃ e ≤ d + w, run.depth? j = some e
  fresh : ∀ {i n}, gen.graph.get? i = some n → ¬ run.Visited visits current i n →
    n.succs = [] ∧ n.covering = none ∧ n.isExpanded = false
  handled : ∀ {i n}, gen.graph.get? i = some n → run.Visited visits current i n →
    n.isCovered = true ∨ n.isExpanded = true ∨ n.isFeasible = false
  reached : run.reached = run.finished.filter (gen.graph.test (·.isTarget))
  /-- At each level above a node, one was expanded. -/
  levels : ∀ {i d}, run.depth? i = some d → ∀ l < d, ∃ j n, run.depth? j = some l ∧
    gen.graph.get? j = some n ∧ n.isExpanded = true

/-- If there are found nodes at every depth above some depth, a list that holds them is at least that
long. -/
theorem le_length_of_levels {ids : List NodeId}
    (hlevels : ∀ l < depth, ∃ j ∈ ids, run.depth? j = some l) : depth ≤ ids.length := by
  have hsub : List.range depth ⊆ ids.filterMap run.depth? := by
    intro l hl
    obtain ⟨j, hj, hd⟩ := hlevels l (List.mem_range.1 hl)
    exact List.mem_filterMap.2 ⟨j, hj, hd⟩
  have hlength := (List.nodup_range.subperm hsub).length_le
  rw [List.length_range] at hlength
  exact hlength.trans (List.length_filterMap_le _ _)

namespace Survey

/-! ## Where edges start -/

section

variable (h : run.Survey visits current gen)

include h

/-- Edges start at nodes that were visited. -/
theorem visited_of_edge (hwf : gen.graph.WellFormed) {i j w : Nat} (hedge : gen.graph.Edge i j w) :
    ∃ n, gen.graph.get? i = some n ∧ run.Visited visits current i n := by
  obtain ⟨n, hn⟩ := (hedge.exists_nodes hwf).1
  refine ⟨n, hn, by_contra fun hnot => ?_⟩
  obtain ⟨hleaf, hfree, -⟩ := h.fresh hn hnot
  exact Graph.not_edge_of_leaf hwf hn hfree hleaf hedge

/-- Nothing was found deeper than there are expanded nodes. -/
theorem depth_le {i : NodeId} {d : Nat} (hd : run.depth? i = some d) :
    d ≤ gen.graph.expandedIds.length :=
  le_length_of_levels fun l hl => by
    obtain ⟨j, n, hj, hn, hexpanded⟩ := h.levels hd l hl
    exact ⟨j, Graph.mem_expandedIds.2 ⟨n, hn, hexpanded⟩, hj⟩

/-- Only what was visited is expanded. -/
theorem finished_of_isExpanded {i : NodeId} {n : Node S} (hn : gen.graph.get? i = some n)
    (hexpanded : n.isExpanded = true) : i ∈ run.finished := by
  by_contra hnot
  obtain ⟨-, -, hopen⟩ := h.fresh hn fun hvisited => hnot hvisited.1
  simp [hexpanded] at hopen

/-- More heuristics may become known. -/
theorem keeps (hkeeps : gen.Keeps gen') (hgraph : gen'.graph = gen.graph) :
    run.Survey visits current gen' where
  judged hd := by
    rw [hgraph]
    exact ⟨(h.judged hd).1, hkeeps.heuristic (h.judged hd).2 rfl⟩
  start := h.start
  parent := by
    rw [hgraph]
    exact h.parent
  origin := by
    rw [hgraph]
    exact h.origin
  edge := by
    rw [hgraph]
    exact h.edge
  fresh := by
    rw [hgraph]
    exact h.fresh
  handled := by
    rw [hgraph]
    exact h.handled
  reached := by
    rw [hgraph]
    exact h.reached
  levels := by
    rw [hgraph]
    exact h.levels

/-- What waits does not matter. -/
theorem skip (waitlist : List Entry) : Survey visits current gen { run with waitlist } :=
  ⟨h.judged, h.start, h.parent, h.origin, h.edge, h.fresh, h.handled, h.reached, h.levels⟩

end

/-! ## The beginning -/

/-- A search begins with its start nodes, in a graph where nothing was explored. -/
theorem begin {start : List NodeId} {stop : StopCriterion}
    (hnotes : Notes none 0 start { start, stop } run)
    (hfresh : ∀ {i n}, gen.graph.get? i = some n →
      n.succs = [] ∧ n.covering = none ∧ n.isExpanded = false)
    (hjudged : ∀ i ∈ start, (∃ n, gen.graph.get? i = some n) ∧ gen.heuristic i = .ok .zero)
    (hwf : gen.graph.WellFormed) : run.Survey visits none gen := by
  have hnoEdge : ∀ {i j w}, ¬ gen.graph.Edge i j w := by
    intro i j w hedge
    obtain ⟨n, hn⟩ := (hedge.exists_nodes hwf).1
    exact Graph.not_edge_of_leaf hwf hn (hfresh hn).2.1 (hfresh hn).1 hedge
  have hcases : ∀ i, run.depth? i = none ∧ run.parent? i = none ∨
      i ∈ start ∧ run.depth? i = some 0 ∧ run.parent? i = none := by
    intro i
    rcases hnotes.cases i with ⟨hdepth, hparent⟩ | ⟨hmem, -, -, hdepth, hparent⟩
    · exact .inl ⟨by simpa [depth?, NodeMap.get?_empty] using hdepth,
        by simpa [parent?, NodeMap.get?_empty] using hparent⟩
    · exact .inr ⟨hmem, hdepth, hparent⟩
  have hfound : ∀ {i d}, run.depth? i = some d → i ∈ start ∧ d = 0 := by
    intro i d hd
    rcases hcases i with ⟨hnone, -⟩ | ⟨hmem, hzero, -⟩
    · simp [hnone] at hd
    · exact ⟨hmem, by simpa [hd] using hzero⟩
  have hparentless : ∀ i, run.parent? i = none := by
    intro i
    rcases hcases i with ⟨-, hnone⟩ | ⟨-, -, hnone⟩ <;> exact hnone
  have hstart : run.start = start := hnotes.start
  constructor
  · intro i d hd
    exact hjudged i (hfound hd).1
  · intro i hi
    obtain ⟨d, hle, hd⟩ := hnotes.found i (hstart ▸ hi)
    rwa [Nat.le_zero.1 hle] at hd
  · intro i p hp
    simp [hparentless] at hp
  · intro i d n hd _
    exact .inl (.inl (hstart ▸ (hfound hd).1))
  · intro i j w d hedge _
    exact absurd hedge hnoEdge
  · exact fun hn _ => hfresh hn
  · intro i n _ hvisited
    have hfinished := hvisited.1
    rw [hnotes.finished] at hfinished
    cases hfinished
  · rw [hnotes.reached, hnotes.finished]
    rfl
  · intro i d hd l hl
    rw [(hfound hd).2] at hl
    exact absurd hl (Nat.not_lt_zero l)

/-! ## Handing out nodes -/

/-- A node is finished, and is visited next unless it is a target that the search passes over. -/
theorem finish (h : run.Survey visits none gen) (hn : gen.graph.get? id = some n)
    (hopen : id ∉ run.finished)
    (hcurrent : current = some id ∨ current = none ∧ visits = false ∧ n.isTarget = true)
    (waitlist : List Entry) :
    Survey visits current gen { run with
      waitlist
      finished := run.finished ++ [id]
      reached := if n.isTarget then run.reached ++ [id] else run.reached } := by
  have hvisited : ∀ {i m}, gen.graph.get? i = some m →
      (Visited visits current { run with
        waitlist
        finished := run.finished ++ [id]
        reached := if n.isTarget then run.reached ++ [id] else run.reached } i m ↔
      run.Visited visits none i m) := by
    intro i m hm
    by_cases hi : i = id
    · subst hi
      obtain rfl := Option.some.inj (hn.symm.trans hm)
      refine iff_of_false ?_ fun hvisited => hopen hvisited.1
      rintro ⟨-, hne, hvisits⟩
      rcases hcurrent with rfl | ⟨-, hfalse, htarget⟩
      · exact hne rfl
      · simp [hfalse, htarget] at hvisits
    · have hne : current ≠ some i := by
        rcases hcurrent with rfl | ⟨rfl, -⟩
        · exact fun heq => hi (Option.some.inj heq).symm
        · simp
      simp [Visited, hi, hne]
  constructor
  · exact h.judged
  · exact h.start
  · intro i p hp
    obtain ⟨hfinished, hrest⟩ := h.parent hp
    exact ⟨List.mem_append_left _ hfinished, hrest⟩
  · exact h.origin
  · exact h.edge
  · intro i m hm hnot
    exact h.fresh hm fun hold => hnot ((hvisited hm).2 hold)
  · intro i m hm hold
    exact h.handled hm ((hvisited hm).1 hold)
  · have htest : gen.graph.test (·.isTarget) id = n.isTarget := by simp [Graph.test, hn]
    rw [List.filter_append, ← h.reached]
    cases htarget : n.isTarget <;> simp [htest, htarget]
  · exact h.levels

/-! ## The end of a visit -/

/-- A node was visited without finding anything. -/
theorem visited (h : run.Survey visits (some id) gen)
    (hn : ∀ n, gen.graph.get? id = some n →
      n.isCovered = true ∨ n.isExpanded = true ∨ n.isFeasible = false) :
    run.Survey visits none gen where
  judged := h.judged
  start := h.start
  parent := h.parent
  origin := h.origin
  edge := h.edge
  fresh := fun hm hnot => h.fresh hm fun hvisited => hnot ⟨hvisited.1, by simp, hvisited.2.2⟩
  handled := by
    intro i m hm hvisited
    by_cases hi : i = id
    · exact hn m (hi ▸ hm)
    · exact h.handled hm ⟨hvisited.1, fun heq => hi (Option.some.inj heq).symm, hvisited.2.2⟩
  reached := h.reached
  levels := h.levels

section

variable (h : run.Survey visits (some id) gen) (hwf : gen.graph.WellFormed)
variable (hn : gen.graph.get? id = some n) (hfinished : id ∈ run.finished)
variable (hvisits : visits = true ∨ n.isTarget = false) (hdepth : run.depth? id = some depth)
variable (hkeeps : gen.Keeps gen')

section

include h hkeeps

/-- The targets that were reached are the same in a later state of the generation. -/
theorem reached_of_keeps (hrun : run.Levelled depth) :
    run.reached = run.finished.filter (gen'.graph.test (·.isTarget)) := by
  rw [h.reached]
  refine List.filter_congr fun i hi => ?_
  obtain ⟨d, -, hd⟩ := hrun.finished i hi
  obtain ⟨⟨m, hm⟩, -⟩ := h.judged hd
  obtain ⟨m', hm', hgrows⟩ := hkeeps.grows.node hm
  simp [Graph.test, hm, hm', hgrows.isTarget]

/-- What was found is judged in a later state of the generation as well. -/
theorem judged_of_keeps {i : NodeId} {d : Nat} (hd : run.depth? i = some d) :
    (∃ n, gen'.graph.get? i = some n) ∧ gen'.heuristic i = .ok .zero := by
  obtain ⟨⟨m, hm⟩, hzero⟩ := h.judged hd
  obtain ⟨m', hm', -⟩ := hkeeps.grows.node hm
  exact ⟨⟨m', hm'⟩, hkeeps.heuristic hzero rfl⟩

/-- The nodes that are expanded above what was found are still so in a later state of the generation. -/
theorem levels_of_keeps (hold : ∀ {i}, i ∈ run.finished → run'.depth? i = run.depth? i)
    {i : NodeId} {d : Nat} (hd : run.depth? i = some d) : ∀ l < d, ∃ j m, run'.depth? j = some l ∧
      gen'.graph.get? j = some m ∧ m.isExpanded = true := by
  intro l hl
  obtain ⟨j, m, hj, hm, hexpanded⟩ := h.levels hd l hl
  obtain ⟨m', hm', hgrows⟩ := hkeeps.grows.node hm
  exact ⟨j, m', (hold (h.finished_of_isExpanded hm hexpanded)).trans hj, hm',
    (hgrows.isExpanded hexpanded).1⟩

end

/-! ### A node was expanded -/

section

variable {new : List NodeId} (hadded : Graph.AddedLeaves (some id) new gen.graph gen'.graph)

include h hadded

include hn hfinished hvisits in
/-- Only nodes that were visited are explored once the visit is over. -/
theorem fresh_of_addedLeaves {i : NodeId} {m : Node S} (hm : gen'.graph.get? i = some m)
    (hnot : ¬ run.Visited visits none i m) :
    m.succs = [] ∧ m.covering = none ∧ m.isExpanded = false := by
  by_cases hmem : i ∈ new
  · exact hadded.isOpen_of_mem hmem hm
  · obtain ⟨m₀, hm₀, hgrows, hcovering, hsame⟩ := hadded.exists_old hmem hm
    have hne : i ≠ id := by
      rintro rfl
      obtain rfl := Option.some.inj (hn.symm.trans hm₀)
      exact hnot ⟨hfinished, by simp, hgrows.isTarget ▸ hvisits⟩
    obtain ⟨hsuccs, hexpanded⟩ := hsame fun heq => hne (Option.some.inj heq)
    obtain ⟨hleaf, hfree, hopen⟩ := h.fresh hm₀ fun hvisited =>
      hnot ⟨hvisited.1, by simp, hgrows.isTarget ▸ hvisited.2.2⟩
    exact ⟨hsuccs.trans hleaf, hcovering.trans hfree, hexpanded.trans hopen⟩

/-- The nodes that were visited are explored, and so is the one that was expanded. -/
theorem handled_of_addedLeaves (hnew : ∀ {i}, i ∈ new → i ∉ run.finished)
    (hexpanded : ∃ n', gen'.graph.get? id = some n' ∧ n'.isExpanded = true) {i : NodeId} {m : Node S}
    (hm : gen'.graph.get? i = some m) (hvisited : run.Visited visits none i m) :
    m.isCovered = true ∨ m.isExpanded = true ∨ m.isFeasible = false := by
  by_cases hi : i = id
  · obtain ⟨n', hn', hexp⟩ := hexpanded
    obtain rfl := Option.some.inj ((hi ▸ hm).symm.trans hn')
    exact .inr (.inl hexp)
  · obtain ⟨m₀, hm₀, hgrows, -⟩ := hadded.exists_old (fun hmem => hnew hmem hvisited.1) hm
    rcases h.handled hm₀ ⟨hvisited.1, fun heq => hi (Option.some.inj heq).symm,
      hgrows.isTarget ▸ hvisited.2.2⟩ with hcovered | hexp | hempty
    · exact .inl (hgrows.isCovered hcovered)
    · exact .inr (.inl (hgrows.isExpanded hexp).1)
    · exact .inr (.inr (hgrows.isFeasible.trans hempty))

include hwf hn hfinished hvisits hdepth hkeeps

/-- **A node was expanded**, and all its children were found. -/
theorem expanded (hrun : run.Levelled depth)
    (hexpanded : ∃ n', gen'.graph.get? id = some n' ∧ n'.isExpanded = true)
    (hjudged : ∀ i ∈ new, gen'.heuristic i = .ok .zero)
    (hnotes : Notes (some id) (depth + 1) new run run') : run'.Survey visits none gen' := by
  obtain ⟨-, hfree, -⟩ := h.fresh hn fun hvisited => hvisited.2.1 rfl
  have hnew : ∀ {i}, i ∈ new → i ∉ run.finished := by
    intro i hi hfin
    obtain ⟨d, -, hd⟩ := hrun.finished i hfin
    obtain ⟨⟨m, hm⟩, -⟩ := h.judged hd
    exact hadded.notMem hm hi
  have hself : run'.depth? id = some depth := (hnotes.of_finished hfinished).1.trans hdepth
  have hidRooted : run'.Rooted id := by
    refine Rooted.of_notes ((h.origin hdepth hn).resolve_right ?_) hnotes
    simp [Node.isCovered, hfree]
  constructor
  · -- judged
    intro i d hd
    rcases hnotes.cases i with ⟨hsame, -⟩ | ⟨hmem, -⟩
    · exact h.judged_of_keeps hkeeps (hsame.symm.trans hd)
    · obtain ⟨-, m, hm, -⟩ := hadded.new hmem
      exact ⟨⟨m, hm⟩, hjudged i hmem⟩
  · -- start
    intro i hi
    obtain ⟨e, hle, he⟩ := hnotes.exists_depth (h.start i (hnotes.start ▸ hi))
    rwa [Nat.le_zero.1 hle] at he
  · -- parent
    intro i p hp
    rw [hnotes.finished]
    rcases hnotes.cases i with ⟨hsame, hsame'⟩ | ⟨hmem, -, -, hnewDepth, hnewParent⟩
    · obtain ⟨hfin, hroot, w, d, hedge, hd, hi⟩ := h.parent (hsame'.symm.trans hp)
      exact ⟨hfin, hroot.of_notes hnotes, w, d, hedge.of_addedLeaves hadded,
        (hnotes.of_finished hfin).1.trans hd, hsame.trans hi⟩
    · rw [hnewParent] at hp
      cases hp
      obtain ⟨-, m, hm, hparent, -⟩ := hadded.new hmem
      exact ⟨hfinished, hidRooted, 1, depth, .tree hm hparent, hself, hnewDepth⟩
  · -- origin
    intro i d m hd hm
    rcases hnotes.cases i with ⟨hsame, -⟩ | ⟨-, -, -, -, hnewParent⟩
    · obtain ⟨⟨m₀, hm₀⟩, -⟩ := h.judged (hsame.symm.trans hd)
      obtain ⟨m', hm', hgrows⟩ := hkeeps.grows.node hm₀
      obtain rfl := Option.some.inj (hm.symm.trans hm')
      exact (h.origin (hsame.symm.trans hd) hm₀).imp (·.of_notes hnotes) hgrows.isCovered
    · exact .inl (.inr ⟨id, hnewParent⟩)
  · -- edge
    intro i j w d hedge hd
    rcases Graph.edge_of_addedLeaves hedge hadded with hold | ⟨hmem, rfl, hparent⟩
    · obtain ⟨m, hm, hfin, -⟩ := h.visited_of_edge hwf hold
      rw [(hnotes.of_finished hfin).1] at hd
      obtain ⟨e, hle, he⟩ := h.edge hold hd
      obtain ⟨e', hle', he'⟩ := hnotes.exists_depth he
      exact ⟨e', hle'.trans hle, he'⟩
    · cases hparent
      rw [hself] at hd
      cases hd
      exact hnotes.found j hmem
  · -- fresh
    intro i m hm hnot
    rw [visited_congr hnotes.finished] at hnot
    exact h.fresh_of_addedLeaves hn hfinished hvisits hadded hm hnot
  · -- handled
    intro i m hm hvisited
    rw [visited_congr hnotes.finished] at hvisited
    exact h.handled_of_addedLeaves hadded hnew hexpanded hm hvisited
  · -- reached
    rw [hnotes.reached, hnotes.finished]
    exact h.reached_of_keeps hkeeps hrun
  · -- levels
    intro i d hd l hl
    have hold : ∀ {i}, i ∈ run.finished → run'.depth? i = run.depth? i :=
      fun hi => (hnotes.of_finished hi).1
    rcases hnotes.cases i with ⟨hsame, -⟩ | ⟨-, -, -, hnewDepth, -⟩
    · exact h.levels_of_keeps hkeeps hold (hsame.symm.trans hd) l hl
    · rw [hnewDepth] at hd
      cases hd
      by_cases heq : l = depth
      · obtain ⟨n', hn', hexp⟩ := hexpanded
        exact ⟨id, n', heq ▸ hself, hn', hexp⟩
      · exact h.levels_of_keeps hkeeps hold hdepth l (by omega)

end

/-! ### A node was covered -/

section

variable {coverer source : NodeId} {moved : List NodeId}
variable (hrewritten : Graph.Rewritten (Graph.coverNode id coverer moved) gen.graph gen'.graph)

include h hrewritten

include hn hfinished hvisits in
/-- Only nodes that were visited are explored once the visit is over. -/
theorem fresh_of_cover {i : NodeId} {m : Node S} (hm : gen'.graph.get? i = some m)
    (hnot : ¬ run.Visited visits none i m) :
    m.succs = [] ∧ m.covering = none ∧ m.isExpanded = false := by
  obtain ⟨m₀, hm₀, rfl⟩ := hrewritten.exists_of_get? hm
  have hi : i ≠ id := by
    rintro rfl
    obtain rfl := Option.some.inj (hn.symm.trans hm₀)
    exact hnot ⟨hfinished, by simp, hvisits⟩
  obtain ⟨hleaf, hfree, hopen⟩ :=
    h.fresh hm₀ fun hvisited => hnot ⟨hvisited.1, by simp, hvisited.2.2⟩
  refine ⟨hleaf, ?_, hopen⟩
  simp [Graph.coverNode, hi, hfree]

/-- The nodes that were visited are explored, and the one that was covered needs not be. -/
theorem handled_of_cover {i : NodeId} {m : Node S} (hm : gen'.graph.get? i = some m)
    (hvisited : run.Visited visits none i m) :
    m.isCovered = true ∨ m.isExpanded = true ∨ m.isFeasible = false := by
  obtain ⟨m₀, hm₀, rfl⟩ := hrewritten.exists_of_get? hm
  by_cases hi : i = id
  · exact .inl (by simp [Node.isCovered, Graph.coverNode, hi])
  · exact (h.handled hm₀ ⟨hvisited.1, fun heq => hi (Option.some.inj heq).symm,
      hvisited.2.2⟩).imp_left Graph.isCovered_coverNode

include hwf hn hfinished hdepth in
/-- Edges to the coverer are those of the node that was covered, or were there before. -/
theorem edge_of_cover (hcoverer : ∃ e ≤ depth, run'.depth? coverer = some e)
    (hold : ∀ {i}, i ∈ run.finished → run'.depth? i = run.depth? i)
    (hfound : ∀ {i d}, run.depth? i = some d → ∃ e ≤ d, run'.depth? i = some e)
    {i j w d : Nat} (hedge : gen'.graph.Edge i j w) (hd : run'.depth? i = some d) :
    ∃ e ≤ d + w, run'.depth? j = some e := by
  rcases Graph.edge_of_cover hrewritten hedge with hedge₀ | ⟨rfl, rfl, hfrom⟩
  · obtain ⟨m, hm, hi, -⟩ := h.visited_of_edge hwf hedge₀
    rw [hold hi] at hd
    obtain ⟨e, hle, he⟩ := h.edge hedge₀ hd
    obtain ⟨e', hle', he'⟩ := hfound he
    exact ⟨e', hle'.trans hle, he'⟩
  · obtain ⟨e, hle, he⟩ := hcoverer
    refine ⟨e, ?_, he⟩
    rcases hfrom with rfl | hedge₀
    · rw [hold hfinished, hdepth] at hd
      cases hd
      exact hle
    · obtain ⟨m, hm, hi, -⟩ := h.visited_of_edge hwf hedge₀
      rw [hold hi] at hd
      obtain ⟨e', hle', he'⟩ := h.edge hedge₀ hd
      rw [hdepth] at he'
      cases he'
      omega

include hwf hn hfinished hvisits hdepth hkeeps

/-- **A node was covered**, and its coverer was found at the depth of the node: either from the node
itself, or from its search parent, if that was covered by the node; then the node may be forgotten. -/
theorem covered (hrun : run.Levelled depth)
    (hcoverer : ∃ b, gen'.graph.get? coverer = some b)
    (hjudged : gen'.heuristic coverer = .ok .zero)
    (hsame : mid.start = run.start ∧ mid.finished = run.finished ∧ mid.reached = run.reached ∧
      mid.depths = run.depths)
    (hparents : ∀ i ≠ id, mid.parent? i = run.parent? i)
    (hself : ∀ p, mid.parent? id = some p → run.parent? id = some p ∧ ¬ gen.graph.Edge p id 0)
    (hsource : source ∈ run.finished ∧ mid.Rooted source ∧ run.depth? source = some depth ∧
      gen'.graph.Edge source coverer 0)
    (hnotes : Notes (some source) depth [coverer] mid run') : run'.Survey visits none gen' := by
  obtain ⟨hstart, hfin, hreached, hdepths⟩ := hsame
  obtain ⟨hsourceFinished, hsourceRooted, hsourceDepth, hsourceEdge⟩ := hsource
  obtain ⟨hleaf, hfree, -⟩ := h.fresh hn fun hvisited => hvisited.2.1 rfl
  have hdepth? : ∀ i, mid.depth? i = run.depth? i := fun i => by simp only [depth?, hdepths]
  have hfinished' : run'.finished = run.finished := hnotes.finished.trans hfin
  have hold : ∀ {i}, i ∈ run.finished → run'.depth? i = run.depth? i := fun {i} hi =>
    (hnotes.of_finished (hfin ▸ hi)).1.trans (hdepth? i)
  have hnearer : ∀ {i d}, run.depth? i = some d → ∃ e ≤ d, run'.depth? i = some e := fun {i d} hd =>
    hnotes.exists_depth ((hdepth? i).trans hd)
  have hrooted : ∀ {i}, i ≠ id → run.Rooted i → run'.Rooted i := by
    intro i hi hroot
    have hmid : mid.Rooted i := by
      rcases hroot with hroot | ⟨p, hp⟩
      · exact .inl (hstart ▸ hroot)
      · exact .inr ⟨p, (hparents i hi).trans hp⟩
    exact hmid.of_notes hnotes
  constructor
  · -- judged
    intro i d hd
    rcases hnotes.cases i with ⟨hsame, -⟩ | ⟨hmem, -⟩
    · exact h.judged_of_keeps hkeeps ((hdepth? i).symm.trans (hsame.symm.trans hd))
    · rw [List.mem_singleton.1 hmem]
      exact ⟨hcoverer, hjudged⟩
  · -- start
    intro i hi
    obtain ⟨e, hle, he⟩ := hnearer (h.start i ((hnotes.start.trans hstart) ▸ hi))
    rwa [Nat.le_zero.1 hle] at he
  · -- parent
    intro i p hp
    rw [hfinished']
    rcases hnotes.cases i with ⟨hsame, hsame'⟩ | ⟨hmem, -, -, hnewDepth, hnewParent⟩
    · rw [hsame'] at hp
      have hrun : run.parent? i = some p ∧ (i = id → ¬ gen.graph.Edge p id 0) := by
        by_cases hi : i = id
        · subst hi
          exact ⟨(hself p hp).1, fun _ => (hself p hp).2⟩
        · exact ⟨(hparents i hi).symm.trans hp, fun heq => absurd heq hi⟩
      obtain ⟨hpFinished, hpRooted, w, d, hedge, hd, hi⟩ := h.parent hrun.1
      -- no edge leaves the node that was visited
      have hpne : p ≠ id := by
        rintro rfl
        exact Graph.not_edge_of_leaf hwf hn hfree hleaf hedge
      refine ⟨hpFinished, hrooted hpne hpRooted, w, d, ?_, (hold hpFinished).trans hd,
        hsame.trans ((hdepth? i).trans hi)⟩
      rcases hedge.of_cover hn hrewritten hfree with hedge' | ⟨rfl, rfl, -⟩
      · exact hedge'
      · exact absurd hedge (hrun.2 rfl)
    · rw [hnewParent] at hp
      cases hp
      obtain rfl := List.mem_singleton.1 hmem
      exact ⟨hsourceFinished, hsourceRooted.of_notes hnotes, 0, depth, hsourceEdge,
        (hold hsourceFinished).trans hsourceDepth, hnewDepth⟩
  · -- origin
    intro i d m hd hm
    rcases hnotes.cases i with ⟨hsame, -⟩ | ⟨-, -, -, -, hnewParent⟩
    · obtain ⟨m₀, hm₀, rfl⟩ := hrewritten.exists_of_get? hm
      by_cases hi : i = id
      · exact .inr (by simp [Node.isCovered, Graph.coverNode, hi])
      · exact (h.origin ((hdepth? i).symm.trans (hsame.symm.trans hd)) hm₀).imp (hrooted hi)
          Graph.isCovered_coverNode
    · exact .inl (.inr ⟨source, hnewParent⟩)
  · -- edge
    intro i j w d hedge hd
    exact h.edge_of_cover hwf hn hfinished hdepth hrewritten
      (hnotes.found coverer List.mem_cons_self) hold hnearer hedge hd
  · -- fresh
    intro i m hm hnot
    rw [visited_congr hfinished'] at hnot
    exact h.fresh_of_cover hn hfinished hvisits hrewritten hm hnot
  · -- handled
    intro i m hm hvisited
    rw [visited_congr hfinished'] at hvisited
    exact h.handled_of_cover hrewritten hm hvisited
  · -- reached
    rw [hnotes.reached, hreached, hfinished']
    exact h.reached_of_keeps hkeeps hrun
  · -- levels
    intro i d hd l hl
    rcases hnotes.cases i with ⟨hsame, -⟩ | ⟨-, -, -, hnewDepth, -⟩
    · exact h.levels_of_keeps hkeeps hold ((hdepth? i).symm.trans (hsame.symm.trans hd)) l hl
    · rw [hnewDepth] at hd
      cases hd
      exact h.levels_of_keeps hkeeps hold hdepth l hl

end

end

end Survey

/-! ## The next node -/

/-- Whether a search may stop can be told; it may only do so early and once something was reached. -/
theorem exists_canStop {g : Graph S} (stop : StopCriterion) {reached : List NodeId}
    (hreached : ∀ i ∈ reached, ∃ n, g.get? i = some n) :
    ∃ stops, stop.canStop g reached = .ok stops ∧
      (stops = true → reached ≠ [] ∧ stop ≠ .fullExploration) := by
  cases stop with
  | fullExploration => exact ⟨false, rfl, by simp⟩
  | distanceKnowable =>
    refine ⟨!reached.isEmpty, rfl, fun hstops => ⟨?_, by simp⟩⟩
    simpa using hstops
  | firstCounterexample =>
    have hall : ∀ i ∈ reached, (do
        let node ← g.node i
        return node.isTarget && !g.isExcluded i : Except Fault Bool) =
        .ok (g.test (·.isTarget) i && !g.isExcluded i) := by
      intro i hi
      obtain ⟨n, hn⟩ := hreached i hi
      simp [Graph.node_eq_ok.2 hn, Graph.test, hn, bind, Except.bind, pure, Except.pure]
    refine ⟨_, anyM_of_forall hall, fun hstops => ⟨?_, by simp⟩⟩
    rintro rfl
    simp at hstops

/-- What a search continues with: it is over, since nothing waits or it may stop early; or a node is
visited next, at its depth. -/
def Proceeds (visits : Bool) (gen : Generation S P K) (run : SearchRun) :
    Option (NodeId × Nat) → Prop
  | none => (∃ pace, run.Levelled pace) ∧ run.Survey visits none gen ∧
      (run.waitlist = [] ∨ run.reached ≠ [] ∧ run.stop ≠ .fullExploration)
  | some (id, depth) => run.Levelled depth ∧ run.Survey visits (some id) gen ∧
      run.depth? id = some depth ∧ id ∈ run.finished ∧
      ∃ n, gen.graph.get? id = some n ∧ (visits = true ∨ n.isTarget = false)

theorem Survey.exists_nextOf {entries : List Entry} (h : run.Survey visits none gen)
    (hlevels : run.Levelled pace) (hwaitlist : run.waitlist = entries)
    (hreaches : ∀ {i n}, gen.graph.get? i = some n → gen.reachesTarget i = .ok n.isTarget) :
    ∃ next run', (nextOf gen visits entries).run run = .ok next run' ∧ run'.start = run.start ∧
      run'.stop = run.stop ∧ Proceeds visits gen run' next := by
  induction entries generalizing run pace with
  | nil => exact ⟨none, run, rfl, rfl, rfl, ⟨pace, hlevels⟩, h, .inl hwaitlist⟩
  | cons entry rest ih =>
    obtain ⟨-, -, d, -, hd⟩ := hlevels.waiting entry (hwaitlist ▸ List.mem_cons_self)
    obtain ⟨⟨n, hn⟩, -⟩ := h.judged hd
    have hreached : ∀ i ∈ run.reached, ∃ n, gen.graph.get? i = some n := by
      intro i hi
      rw [h.reached] at hi
      obtain ⟨e, -, he⟩ := hlevels.finished i (List.mem_filter.1 hi).1
      exact (h.judged he).1
    obtain ⟨stops, hcan, hearly⟩ := exists_canStop run.stop hreached
    have hstops : run.stopsBefore gen entry = .ok (stops && !n.isTarget) := by
      cases stops <;>
        simp [stopsBefore, hcan, hreaches hn, bind, Except.bind, pure, Except.pure]
    simp only [nextOf, Edit.run_bind_ok, Edit.run_get_ok, Edit.run_lift_ok]
    by_cases hover : (stops && !n.isTarget) = true
    · refine ⟨none, run, ⟨run, run, ⟨rfl, rfl⟩, true, run, ⟨hover ▸ hstops, rfl⟩, by simp⟩, rfl, rfl,
        ⟨pace, hlevels⟩, h, .inr (hearly ?_)⟩
      exact (Bool.and_eq_true_iff.1 hover).1
    rw [Bool.not_eq_true] at hover
    rw [hover] at hstops
    by_cases hfinished : entry.node ∈ run.finished
    · obtain ⟨next, run', hrun, hstart, hstop, hnext⟩ :=
        ih (h.skip rest) (hlevels.skip hwaitlist hfinished) rfl
      refine ⟨next, run', ⟨run, run, ⟨rfl, rfl⟩, false, run, ⟨hstops, rfl⟩, ?_⟩, hstart, hstop, hnext⟩
      simp only [Bool.false_eq_true, if_false, Edit.run_bind_ok, Edit.run_modify_ok, Edit.run_get_ok]
      refine ⟨(), _, rfl, _, _, ⟨rfl, rfl⟩, ?_⟩
      rw [if_pos (by simpa using hfinished)]
      exact hrun
    · have hdepth := hlevels.depth_first hwaitlist hfinished
      let mid : SearchRun := { run with
        waitlist := rest
        finished := run.finished ++ [entry.node]
        reached := if n.isTarget then run.reached ++ [entry.node] else run.reached }
      have hmid : mid.Levelled entry.depth := hlevels.finish hwaitlist hfinished _
      by_cases hpasses : visits = false ∧ n.isTarget = true
      · -- the target is recorded, and the search goes on behind it
        obtain ⟨rfl, htarget⟩ := hpasses
        obtain ⟨next, run', hrun, hstart, hstop, hnext⟩ :=
          ih (h.finish hn hfinished (.inr ⟨rfl, rfl, htarget⟩) rest) hmid rfl
        refine ⟨next, run', ⟨run, run, ⟨rfl, rfl⟩, false, run, ⟨hstops, rfl⟩, ?_⟩, hstart, hstop, hnext⟩
        simp only [Bool.false_eq_true, if_false, Edit.run_bind_ok, Edit.run_modify_ok, Edit.run_get_ok]
        refine ⟨(), _, rfl, _, _, ⟨rfl, rfl⟩, ?_⟩
        rw [if_neg (by simpa using hfinished)]
        simp only [Edit.run_bind_ok, Edit.run_modify_ok, Edit.run_lift_ok]
        refine ⟨(), _, rfl, n.isTarget, _, ⟨hreaches hn, rfl⟩, ?_⟩
        simpa [mid, htarget] using hrun
      · have hvisits : visits = true ∨ n.isTarget = false := by
          cases visits <;> simp_all
        refine ⟨some (entry.node, entry.depth), mid,
          ⟨run, run, ⟨rfl, rfl⟩, false, run, ⟨hstops, rfl⟩, ?_⟩, rfl, rfl, hmid,
          h.finish hn hfinished (.inl rfl) rest, hdepth,
          List.mem_append_right _ (List.mem_singleton_self _), n, hn, hvisits⟩
        simp only [Bool.false_eq_true, if_false, Edit.run_bind_ok, Edit.run_modify_ok, Edit.run_get_ok]
        refine ⟨(), _, rfl, _, _, ⟨rfl, rfl⟩, ?_⟩
        rw [if_neg (by simpa using hfinished)]
        simp only [Edit.run_bind_ok, Edit.run_modify_ok, Edit.run_lift_ok]
        refine ⟨(), _, rfl, n.isTarget, _, ⟨hreaches hn, rfl⟩, ?_⟩
        rcases hvisits with rfl | hplain
        · cases htarget : n.isTarget <;> simp [mid, htarget]
        · simp [mid, hplain]

/-- **Handing out a node meets no fault.** -/
theorem Survey.exists_next (h : run.Survey visits none gen) (hlevels : run.Levelled pace)
    (hreaches : ∀ {i n}, gen.graph.get? i = some n → gen.reachesTarget i = .ok n.isTarget) :
    ∃ next run', (SearchRun.next gen visits).run run = .ok next run' ∧ run'.start = run.start ∧
      run'.stop = run.stop ∧ Proceeds visits gen run' next := by
  obtain ⟨next, run', hrun, hrest⟩ := h.exists_nextOf hlevels rfl hreaches
  exact ⟨next, run', Edit.run_bind_ok.2 ⟨run, run, rfl, hrun⟩, hrest⟩

end GuidedReach.SearchRun
