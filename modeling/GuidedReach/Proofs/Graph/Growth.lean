import GuidedReach.Proofs.Graph.Prune

/-!
# Graphs grown by an analysis

What an exploration does to a graph keeps it *faithful* to the analysis: flags are those of the
states, coverers subsume what they cover, and an expanded node has a child for each successor of its
state under some precision that was allowed.

* `Graph.Grows` — the nodes of the first graph are still there, with the same states.
* `Analysis.Lawful` — subsumption is a preorder under which targets stay targets.
* `Graph.Faithful` — the graph agrees with the analysis.
* `Graph.Faithful.cover`, `Graph.Faithful.uncover`, `Graph.Faithful.pruned` — and keeps doing so.
* `Graph.AddedLeaves` — new leaves below a node, or new init nodes.
* `Graph.seed_ok`, `Graph.expand_ok` — adding what is missing presents all states there are.
* `Graph.expandedIds` — the expanded nodes, of which new leaves add at most one.
-/

namespace GuidedReach

variable {S P K : Type}

/-! ## Growth -/

/-- A node after some growth of its graph. An expanded node gets no further children, and a covered
node stays covered, though not always by the same node. -/
structure Node.Grows (n n' : Node S) : Prop where
  state : n'.state = n.state
  isTarget : n'.isTarget = n.isTarget
  isFeasible : n'.isFeasible = n.isFeasible
  depth : n'.depth = n.depth
  parent : n'.parent = n.parent
  succs : n.succs <+: n'.succs
  isExpanded : n.isExpanded = true → n'.isExpanded = true ∧ n'.succs = n.succs
  isCovered : n.isCovered = true → n'.isCovered = true

theorem Node.Grows.refl (n : Node S) : n.Grows n :=
  ⟨rfl, rfl, rfl, rfl, rfl, List.prefix_refl _, fun h => ⟨h, rfl⟩, id⟩

theorem Node.Grows.trans {a b c : Node S} (hab : a.Grows b) (hbc : b.Grows c) : a.Grows c where
  state := hbc.state.trans hab.state
  isTarget := hbc.isTarget.trans hab.isTarget
  isFeasible := hbc.isFeasible.trans hab.isFeasible
  depth := hbc.depth.trans hab.depth
  parent := hbc.parent.trans hab.parent
  succs := hab.succs.trans hbc.succs
  isExpanded := fun h => by
    obtain ⟨hb, hsuccs⟩ := hab.isExpanded h
    obtain ⟨hc, hsuccs'⟩ := hbc.isExpanded hb
    exact ⟨hc, hsuccs'.trans hsuccs⟩
  isCovered := fun h => hbc.isCovered (hab.isCovered h)

namespace Graph

variable {g g' g'' : Graph S}

/-- The second graph has grown out of the first. Once a graph is initialized, it gets no further init
nodes. -/
structure Grows (g g' : Graph S) : Prop where
  node : ∀ {i n}, g.get? i = some n → ∃ n', g'.get? i = some n' ∧ n.Grows n'
  initNodes : g.initNodes <+: g'.initNodes
  isInitialized : g.isInitialized = true → g'.isInitialized = true ∧ g'.initNodes = g.initNodes

namespace Grows

theorem refl (g : Graph S) : g.Grows g :=
  ⟨fun h => ⟨_, h, .refl _⟩, List.prefix_refl _, fun h => ⟨h, rfl⟩⟩

theorem trans (h : g.Grows g') (h' : g'.Grows g'') : g.Grows g'' where
  node := fun hi => by
    obtain ⟨n', hn', hgrows⟩ := h.node hi
    obtain ⟨n'', hn'', hgrows'⟩ := h'.node hn'
    exact ⟨n'', hn'', hgrows.trans hgrows'⟩
  initNodes := h.initNodes.trans h'.initNodes
  isInitialized := fun hi => by
    obtain ⟨hi', hinit⟩ := h.isInitialized hi
    exact (h'.isInitialized hi').imp_right (·.trans hinit)

theorem of_rewritten {f : NodeId → Node S → Node S} (h : Rewritten f g g')
    (hf : ∀ i n, g.get? i = some n → n.Grows (f i n)) : g.Grows g' where
  node := fun hi => ⟨_, h.get?_of_get? hi, hf _ _ hi⟩
  initNodes := h.initNodes ▸ List.prefix_refl _
  isInitialized := fun hi => ⟨h.isInitialized.trans hi, h.initNodes⟩

end Grows

/-! ## States of lists of nodes -/

theorem mem_statesOf {ids : List NodeId} {s : S} :
    s ∈ g.statesOf ids ↔ ∃ i n, i ∈ ids ∧ g.get? i = some n ∧ n.state = s := by
  simp only [statesOf, List.mem_filterMap, Option.map_eq_some_iff]
  constructor
  · rintro ⟨i, hi, n, hn, hs⟩
    exact ⟨i, n, hi, hn, hs⟩
  · rintro ⟨i, n, hi, hn, hs⟩
    exact ⟨i, hi, n, hn, hs⟩

theorem statesOf_cons {rest : List NodeId} {id : NodeId} {n : Node S} (hn : g.get? id = some n) :
    g.statesOf (id :: rest) = n.state :: g.statesOf rest := by
  simp [statesOf, hn]

theorem length_statesOf {ids : List NodeId} (hids : ∀ i ∈ ids, ∃ n, g.get? i = some n) :
    (g.statesOf ids).length = ids.length := by
  induction ids with
  | nil => rfl
  | cons id rest ih =>
    obtain ⟨n, hn⟩ := hids id List.mem_cons_self
    rw [statesOf_cons hn, List.length_cons, List.length_cons,
      ih fun i hi => hids i (List.mem_cons_of_mem id hi)]

/-- Nodes that keep their states keep presenting them. -/
theorem statesOf_mono {ids ids' : List NodeId} {s : S} (hs : s ∈ g.statesOf ids)
    (hids : ∀ i ∈ ids, i ∈ ids')
    (hstate : ∀ i ∈ ids, ∀ n, g.get? i = some n → ∃ n', g'.get? i = some n' ∧ n'.state = n.state) :
    s ∈ g'.statesOf ids' := by
  obtain ⟨i, n, hi, hn, rfl⟩ := mem_statesOf.1 hs
  obtain ⟨n', hn', hstate⟩ := hstate i hi n hn
  exact mem_statesOf.2 ⟨i, n', hids i hi, hn', hstate⟩

end Graph

/-! ## Graphs that agree with an analysis -/

/-- Subsumption is a preorder, a state that subsumes a target is a target, a target holds something,
and so does a state that subsumes one that does. -/
structure Analysis.Lawful (analysis : Analysis S P K) : Prop where
  isLeq_refl : ∀ a, analysis.isLeq a a = true
  isLeq_trans : ∀ {a b c}, analysis.isLeq a b = true → analysis.isLeq b c = true →
    analysis.isLeq a c = true
  isTarget_mono : ∀ {a b}, analysis.isLeq a b = true → analysis.isTarget a = true →
    analysis.isTarget b = true
  not_isBottom : ∀ {a}, analysis.isTarget a = true → analysis.isBottom a = false
  isBottom_mono : ∀ {a b}, analysis.isLeq a b = true → analysis.isBottom b = true →
    analysis.isBottom a = true

namespace Graph

/-- The graph agrees with the analysis, as seen under precisions that are `allowed`. -/
structure Faithful (analysis : Analysis S P K) (allowed : P → Prop) (g : Graph S) : Prop where
  wellFormed : g.WellFormed
  isTarget : ∀ {i n}, g.get? i = some n → n.isTarget = analysis.isTarget n.state
  isFeasible : ∀ {i n}, g.get? i = some n → n.isFeasible = !analysis.isBottom n.state
  /-- A covered node is a leaf that was not expanded, and its coverer subsumes it. -/
  covering : ∀ {i n c}, g.get? i = some n → n.covering = some c →
    n.succs = [] ∧ n.isExpanded = false ∧
      ∃ m, g.get? c = some m ∧ analysis.isLeq n.state m.state = true
  infeasible_leaf : ∀ {i n}, g.get? i = some n → n.isFeasible = false →
    n.succs = [] ∧ n.isExpanded = false
  expanded : ∀ {i n}, g.get? i = some n → n.isExpanded = true →
    ∃ prec, allowed prec ∧ ∀ s ∈ analysis.succStates n.state prec, s ∈ g.statesOf n.succs
  initialized : g.isInitialized = true →
    ∃ prec, allowed prec ∧ ∀ s ∈ analysis.initStates prec, s ∈ g.statesOf g.initNodes

namespace Faithful

variable {analysis : Analysis S P K} {allowed : P → Prop} {g g' : Graph S}

theorem empty : Faithful analysis allowed ({} : Graph S) where
  wellFormed := .empty
  isTarget := by simp [Graph.get?, NodeMap.get?_empty]
  isFeasible := by simp [Graph.get?, NodeMap.get?_empty]
  covering := by simp [Graph.get?, NodeMap.get?_empty]
  infeasible_leaf := by simp [Graph.get?, NodeMap.get?_empty]
  expanded := by simp [Graph.get?, NodeMap.get?_empty]
  initialized := by simp

/-- What is covered or infeasible has no children. -/
theorem not_isSubsumed (hg : g.Faithful analysis allowed) {i : NodeId} {n : Node S}
    (hn : g.get? i = some n) (hsuccs : n.succs ≠ []) : n.isSubsumed = false := by
  have hfree : n.isCovered = false := by
    cases hcovering : n.covering with
    | none => simp [Node.isCovered, hcovering]
    | some coverer => exact absurd (hg.covering hn hcovering).1 hsuccs
  have hfeasible : n.isFeasible = true := by
    by_contra hempty
    exact hsuccs (hg.infeasible_leaf hn (by simpa using hempty)).1
  simp [Node.isSubsumed, hfree, hfeasible]

/-- The parent of a node is not empty. -/
theorem not_isBottom_of_parent (hg : g.Faithful analysis allowed) {i p : NodeId} {n m : Node S}
    (hn : g.get? i = some n) (hparent : n.parent = some p) (hm : g.get? p = some m) :
    analysis.isBottom m.state = false := by
  obtain ⟨m', hm', hchild⟩ := hg.wellFormed.exists_parent hn hparent
  obtain rfl := Option.some.inj (hm.symm.trans hm')
  have hfeasible : m.isFeasible = true := by
    by_contra hempty
    rw [(hg.infeasible_leaf hm (by simpa using hempty)).1] at hchild
    cases hchild
  simpa [hg.isFeasible hm] using hfeasible

/-- A target holds something. -/
theorem isFeasible_of_isTarget (hg : g.Faithful analysis allowed) (hlaws : analysis.Lawful)
    {i : NodeId} {n : Node S} (hn : g.get? i = some n) (htarget : n.isTarget = true) :
    n.isFeasible = true := by
  rw [hg.isFeasible hn, hlaws.not_isBottom (hg.isTarget hn ▸ htarget)]
  rfl

/-- A change of covering edges and of what counts as expanded. -/
theorem of_rewritten {f : NodeId → Node S → Node S} (hg : g.Faithful analysis allowed)
    (h : Rewritten f g g') (hwf : g'.WellFormed)
    (hsame : ∀ i n, (f i n).state = n.state ∧ (f i n).isTarget = n.isTarget ∧
      (f i n).isFeasible = n.isFeasible ∧ (f i n).succs = n.succs)
    (hcovering : ∀ {i n c}, g.get? i = some n → (f i n).covering = some c →
      n.succs = [] ∧ (f i n).isExpanded = false ∧
        ∃ m, g.get? c = some m ∧ analysis.isLeq n.state m.state = true)
    (hinfeasible : ∀ {i n}, g.get? i = some n → n.isFeasible = false → (f i n).isExpanded = false)
    (hexpanded : ∀ {i n}, g.get? i = some n → (f i n).isExpanded = true →
      ∃ prec, allowed prec ∧ ∀ s ∈ analysis.succStates n.state prec, s ∈ g.statesOf n.succs) :
    g'.Faithful analysis allowed := by
  have hstates : ∀ {ids s}, s ∈ g.statesOf ids → s ∈ g'.statesOf ids := fun hs =>
    statesOf_mono hs (fun _ => id) fun i _ n hn => ⟨_, h.get?_of_get? hn, (hsame i n).1⟩
  refine ⟨hwf, ?_, ?_, ?_, ?_, ?_, ?_⟩
  · intro i n hi
    obtain ⟨n, hn, rfl⟩ := h.exists_of_get? hi
    rw [(hsame i n).1, (hsame i n).2.1, hg.isTarget hn]
  · intro i n hi
    obtain ⟨n, hn, rfl⟩ := h.exists_of_get? hi
    rw [(hsame i n).1, (hsame i n).2.2.1, hg.isFeasible hn]
  · intro i n c hi hcov
    obtain ⟨n, hn, rfl⟩ := h.exists_of_get? hi
    obtain ⟨hstate, -, -, hsuccs⟩ := hsame i n
    obtain ⟨hleaf, hopen, m, hm, hleq⟩ := hcovering hn hcov
    exact ⟨hsuccs.trans hleaf, hopen, _, h.get?_of_get? hm, by rwa [hstate, (hsame c m).1]⟩
  · intro i n hi hfeas
    obtain ⟨n, hn, rfl⟩ := h.exists_of_get? hi
    obtain ⟨-, -, hfeasible, hsuccs⟩ := hsame i n
    rw [hfeasible] at hfeas
    exact ⟨hsuccs.trans (hg.infeasible_leaf hn hfeas).1, hinfeasible hn hfeas⟩
  · intro i n hi hexp
    obtain ⟨n, hn, rfl⟩ := h.exists_of_get? hi
    obtain ⟨hstate, -, -, hsuccs⟩ := hsame i n
    obtain ⟨prec, hprec, hall⟩ := hexpanded hn hexp
    rw [hstate, hsuccs]
    exact ⟨prec, hprec, fun s hs => hstates (hall s hs)⟩
  · intro hinit
    rw [h.isInitialized] at hinit
    obtain ⟨prec, hprec, hall⟩ := hg.initialized hinit
    rw [h.initNodes]
    exact ⟨prec, hprec, fun s hs => hstates (hall s hs)⟩

/-- Covering edges may move on to the new coverer, since subsumption is transitive. -/
theorem cover_of_trans (hg : g.Faithful analysis allowed)
    (htrans : ∀ {a b c}, analysis.isLeq a b = true → analysis.isLeq b c = true →
      analysis.isLeq a c = true) {id coverer : NodeId}
    {a b : Node S} (ha : g.get? id = some a) (hb : g.get? coverer = some b)
    (hleaf : a.succs = []) (hopen : a.isExpanded = false)
    (hleq : analysis.isLeq a.state b.state = true) {u : Unit}
    (h : (Graph.cover id coverer).run g = .ok u g') : g'.Faithful analysis allowed := by
  obtain ⟨-, a', b', ha', -, hb', -, hrewritten⟩ := cover_ok hg.wellFormed h
  obtain rfl := Option.some.inj (ha.symm.trans ha')
  obtain rfl := Option.some.inj (hb.symm.trans hb')
  refine hg.of_rewritten hrewritten (hg.wellFormed.cover h) (fun i n => ⟨rfl, rfl, rfl, rfl⟩) ?_
    (fun hi hfeas => (hg.infeasible_leaf hi hfeas).2) (fun hi hexp => hg.expanded hi hexp)
  intro i n c hi hcov
  simp only [coverNode] at hcov
  split at hcov
  · rename_i hmoved
    obtain rfl := Option.some.inj hcov
    obtain rfl | hmoved := hmoved
    · obtain rfl := Option.some.inj (ha.symm.trans hi)
      exact ⟨hleaf, hopen, b, hb, hleq⟩
    · -- the node was covered by `id`, which the new coverer subsumes
      obtain ⟨hleaf', hopen', m, hm, hleq'⟩ := hg.covering hi hmoved
      obtain rfl := Option.some.inj (ha.symm.trans hm)
      exact ⟨hleaf', hopen', b, hb, htrans hleq' hleq⟩
  · exact hg.covering hi hcov

theorem cover (hg : g.Faithful analysis allowed) (hlaws : analysis.Lawful) {id coverer : NodeId}
    {a b : Node S} (ha : g.get? id = some a) (hb : g.get? coverer = some b)
    (hleaf : a.succs = []) (hopen : a.isExpanded = false)
    (hleq : analysis.isLeq a.state b.state = true) {u : Unit}
    (h : (Graph.cover id coverer).run g = .ok u g') : g'.Faithful analysis allowed :=
  hg.cover_of_trans hlaws.isLeq_trans ha hb hleaf hopen hleq h

theorem uncover (hg : g.Faithful analysis allowed) {id : NodeId} {u : Unit}
    (h : (Graph.uncover id).run g = .ok u g') : g'.Faithful analysis allowed := by
  obtain ⟨-, -, hrewritten⟩ := uncover_ok hg.wellFormed h
  refine hg.of_rewritten hrewritten (hg.wellFormed.uncover h)
    (fun i n => ⟨rfl, rfl, rfl, rfl⟩) ?_
    (fun hi hfeas => (hg.infeasible_leaf hi hfeas).2) (fun hi hexp => hg.expanded hi hexp)
  intro i n c hi hcov
  simp only [uncoverNode] at hcov
  split at hcov
  · simp at hcov
  · exact hg.covering hi hcov

theorem pruned (hg : g.Faithful analysis allowed) {root : NodeId} {cut : List NodeId}
    (h : Pruned root cut g g') : g'.Faithful analysis allowed := by
  refine ⟨h.wellFormed hg.wellFormed, ?_, ?_, ?_, ?_, ?_, ?_⟩
  · intro i n hi
    obtain ⟨-, n, hn, rfl⟩ := h.exists_of_get? hi
    exact (hg.isTarget hn :)
  · intro i n hi
    obtain ⟨-, n, hn, rfl⟩ := h.exists_of_get? hi
    exact (hg.isFeasible hn :)
  · intro i n c hi hcov
    obtain ⟨hcut, n, hn, rfl⟩ := h.exists_of_get? hi
    obtain ⟨hcov, hccut⟩ := (Pruned.covering_eq_some hcut).1 hcov
    obtain ⟨hleaf, hopen, m, hm, hleq⟩ := hg.covering hn hcov
    exact ⟨by simp [prunedNode, hleaf], by simp [prunedNode, hopen], _,
      h.get?_of_get? hccut hm, hleq⟩
  · intro i n hi hinfeasible
    obtain ⟨-, n, hn, rfl⟩ := h.exists_of_get? hi
    obtain ⟨hleaf, hopen⟩ := hg.infeasible_leaf hn hinfeasible
    exact ⟨by simp [prunedNode, hleaf], by simp [prunedNode, hopen]⟩
  · intro i n hi hexp
    obtain ⟨hcut, n, hn, rfl⟩ := h.exists_of_get? hi
    obtain ⟨hexp, hroot⟩ : n.isExpanded = true ∧ root ∉ n.succs := by
      simpa [prunedNode] using hexp
    obtain ⟨prec, hprec, hall⟩ := hg.expanded hn hexp
    have hne : ∀ c ∈ n.succs, c ≠ root := by
      rintro c hc rfl
      exact hroot hc
    refine ⟨prec, hprec, fun s hs => statesOf_mono (hall s hs) (fun c hc => ?_) fun c hc m hm => ?_⟩
    · exact List.mem_filter.2 ⟨hc, by simpa using hne c hc⟩
    · exact ⟨_, h.get?_of_get? (h.notMem_of_parent hg.wellFormed hn hc hcut (hne c hc)) hm, rfl⟩
  · intro hinit
    obtain ⟨hinit, hroot⟩ : g.isInitialized = true ∧ root ∉ g.initNodes := by
      simpa [h.isInitialized] using hinit
    obtain ⟨prec, hprec, hall⟩ := hg.initialized hinit
    have hne : ∀ i ∈ g.initNodes, i ≠ root := by
      rintro i hi rfl
      exact hroot hi
    refine ⟨prec, hprec, fun s hs => statesOf_mono (hall s hs) (fun i hi => ?_) fun i hi m hm => ?_⟩
    · rw [h.initNodes]
      exact List.mem_filter.2 ⟨hi, by simpa using hne i hi⟩
    · exact ⟨_, h.get?_of_get? (h.notMem_of_init hg.wellFormed hi (hne i hi)) hm, rfl⟩

/-- A new node, which some old one may list as its successor. -/
theorem of_created {f : NodeId → Node S → Node S} {id : NodeId} {node : Node S}
    (hg : g.Faithful analysis allowed) (h : Created f id node g g') (hwf : g'.WellFormed)
    (hsame : ∀ i n, (f i n).state = n.state ∧ (f i n).isTarget = n.isTarget ∧
      (f i n).isFeasible = n.isFeasible ∧ (f i n).covering = n.covering ∧
      (f i n).isExpanded = n.isExpanded ∧ n.succs <+: (f i n).succs)
    (hsuccs : ∀ {i n}, g.get? i = some n →
      (f i n).succs = n.succs ∨ n.covering = none ∧ n.isFeasible = true)
    (htarget : node.isTarget = analysis.isTarget node.state)
    (hfeasible : node.isFeasible = !analysis.isBottom node.state)
    (hnew : node.succs = [] ∧ node.covering = none ∧ node.isExpanded = false)
    (hinit : g.initNodes <+: g'.initNodes) (hinitialized : g'.isInitialized = g.isInitialized) :
    g'.Faithful analysis allowed := by
  obtain ⟨hnil, hnone, hopen⟩ := hnew
  have hstates : ∀ {ids ids' s}, (∀ i ∈ ids, i ∈ ids') → s ∈ g.statesOf ids → s ∈ g'.statesOf ids' :=
    fun hids hs => statesOf_mono hs hids fun i _ n hn => ⟨_, h.get?_of_get? hn, (hsame i n).1⟩
  refine ⟨hwf, ?_, ?_, ?_, ?_, ?_, ?_⟩
  · intro i n hi
    obtain ⟨rfl, rfl⟩ | ⟨n, hn, rfl⟩ := h.cases_of_get? hi
    · exact htarget
    · rw [(hsame i n).1, (hsame i n).2.1, hg.isTarget hn]
  · intro i n hi
    obtain ⟨rfl, rfl⟩ | ⟨n, hn, rfl⟩ := h.cases_of_get? hi
    · exact hfeasible
    · rw [(hsame i n).1, (hsame i n).2.2.1, hg.isFeasible hn]
  · intro i n c hi hcov
    obtain ⟨rfl, rfl⟩ | ⟨n, hn, rfl⟩ := h.cases_of_get? hi
    · simp [hnone] at hcov
    · obtain ⟨hstate, -, -, hcovering, hexpanded, -⟩ := hsame i n
      rw [hcovering] at hcov
      obtain ⟨hleaf, hopen', m, hm, hleq⟩ := hg.covering hn hcov
      obtain hkept | ⟨hfree, -⟩ := hsuccs hn
      · exact ⟨hkept.trans hleaf, hexpanded.trans hopen', _, h.get?_of_get? hm, by
          rwa [hstate, (hsame c m).1]⟩
      · simp [hfree] at hcov
  · intro i n hi hinfeasible
    obtain ⟨rfl, rfl⟩ | ⟨n, hn, rfl⟩ := h.cases_of_get? hi
    · exact ⟨hnil, hopen⟩
    · obtain ⟨-, -, hfeas, -, hexpanded, -⟩ := hsame i n
      rw [hfeas] at hinfeasible
      obtain ⟨hleaf, hopen'⟩ := hg.infeasible_leaf hn hinfeasible
      obtain hkept | ⟨-, hfeas'⟩ := hsuccs hn
      · exact ⟨hkept.trans hleaf, hexpanded.trans hopen'⟩
      · simp [hfeas'] at hinfeasible
  · intro i n hi hexp
    obtain ⟨rfl, rfl⟩ | ⟨n, hn, rfl⟩ := h.cases_of_get? hi
    · simp [hopen] at hexp
    · obtain ⟨hstate, -, -, -, hexpanded, hprefix⟩ := hsame i n
      rw [hexpanded] at hexp
      obtain ⟨prec, hprec, hall⟩ := hg.expanded hn hexp
      rw [hstate]
      exact ⟨prec, hprec, fun s hs => hstates (fun c hc => hprefix.subset hc) (hall s hs)⟩
  · intro hi
    rw [hinitialized] at hi
    obtain ⟨prec, hprec, hall⟩ := hg.initialized hi
    exact ⟨prec, hprec, fun s hs => hstates (fun c hc => hinit.subset hc) (hall s hs)⟩

theorem setInitialized (hg : g.Faithful analysis allowed) {prec : P} (hprec : allowed prec)
    (hall : ∀ s ∈ analysis.initStates prec, s ∈ g.statesOf g.initNodes) {u : Unit}
    (h : (Graph.setInitialized true).run g = .ok u g') : g'.Faithful analysis allowed := by
  obtain rfl := Edit.run_modify_ok.1 h
  exact
    { wellFormed :=
        ⟨hg.wellFormed.parent_link, hg.wellFormed.succ_link, hg.wellFormed.init_link,
          hg.wellFormed.init_parentless, hg.wellFormed.covering_link, hg.wellFormed.covered_link⟩
      isTarget := hg.isTarget
      isFeasible := hg.isFeasible
      covering := hg.covering
      infeasible_leaf := hg.infeasible_leaf
      expanded := hg.expanded
      initialized := fun _ => ⟨prec, hprec, hall⟩ }

theorem setExpanded (hg : g.Faithful analysis allowed) {id : NodeId} {n : Node S} {prec : P}
    (hn : g.get? id = some n) (huncovered : n.covering = none) (hfeasible : n.isFeasible = true)
    (hprec : allowed prec)
    (hall : ∀ s ∈ analysis.succStates n.state prec, s ∈ g.statesOf n.succs) {u : Unit}
    (h : (Graph.setExpanded id true).run g = .ok u g') : g'.Faithful analysis allowed := by
  obtain ⟨-, hrewritten⟩ := rewritten_of_setExpanded h
  refine hg.of_rewritten hrewritten (hg.wellFormed.setExpanded h)
    (fun i m => by split <;> simp) ?_ ?_ ?_
  · intro i m c hi hcov
    have hcov : m.covering = some c := by split at hcov <;> exact hcov
    obtain ⟨hleaf, hopen, hcoverer⟩ := hg.covering hi hcov
    refine ⟨hleaf, ?_, hcoverer⟩
    rw [if_neg, hopen]
    rintro rfl
    obtain rfl := Option.some.inj (hn.symm.trans hi)
    simp [huncovered] at hcov
  · intro i m hi hfeas
    rw [if_neg, (hg.infeasible_leaf hi hfeas).2]
    rintro rfl
    obtain rfl := Option.some.inj (hn.symm.trans hi)
    simp [hfeasible] at hfeas
  · intro i m hi hexp
    rcases eq_or_ne i id with rfl | hne
    · obtain rfl := Option.some.inj (hn.symm.trans hi)
      exact ⟨prec, hprec, hall⟩
    · rw [if_neg hne] at hexp
      exact hg.expanded hi hexp

theorem createInit (hg : g.Faithful analysis allowed) {state : S} {id : NodeId}
    (h : (Graph.createInit state (analysis.isTarget state) (!analysis.isBottom state)).run g =
      .ok id g') : g'.Faithful analysis allowed := by
  obtain ⟨hnew, hinit, hinitialized⟩ := createInit_ok h
  exact hg.of_created hnew (hg.wellFormed.createInit h)
    (fun i n => ⟨rfl, rfl, rfl, rfl, rfl, List.prefix_refl _⟩) (fun _ => .inl rfl) rfl rfl
    ⟨rfl, rfl, rfl⟩ (hinit ▸ List.prefix_append _ _) hinitialized

theorem createSucc (hg : g.Faithful analysis allowed) {state : S} {parent id : NodeId}
    {above : Node S} (habove : g.get? parent = some above) (hfeasible : above.isFeasible = true)
    (h : (Graph.createSucc parent state (analysis.isTarget state)
      (!analysis.isBottom state)).run g = .ok id g') : g'.Faithful analysis allowed := by
  obtain ⟨above', habove', hfree, hnew, hinit, hinitialized⟩ := createSucc_ok h
  obtain rfl := Option.some.inj (habove.symm.trans habove')
  refine hg.of_created hnew (hg.wellFormed.createSucc h) (fun i n => ?_) (fun {i n} hi => ?_) rfl
    rfl ⟨rfl, rfl, rfl⟩ (hinit ▸ List.prefix_refl _) hinitialized
  · unfold addChild
    split <;> simp
  · unfold addChild
    split
    · rename_i hip
      obtain rfl := Option.some.inj (habove.symm.trans (hip ▸ hi))
      exact .inr ⟨hfree, hfeasible⟩
    · exact .inl rfl

end Faithful

/-! ## Adding what is missing -/

/-- New leaves below `parent`, or new init nodes: all else keeps its links, save that the parent may
count as expanded now. -/
structure AddedLeaves (parent : Option NodeId) (new : List NodeId) (g g' : Graph S) : Prop where
  grows : g.Grows g'
  old : ∀ {i n'}, i ∉ new → g'.get? i = some n' → ∃ n, g.get? i = some n ∧
    n'.covering = n.covering ∧ (some i ≠ parent → n'.succs = n.succs ∧ n'.isExpanded = n.isExpanded)
  new : ∀ {i}, i ∈ new → g.get? i = none ∧ ∃ n, g'.get? i = some n ∧ n.parent = parent ∧
    n.succs = [] ∧ n.covering = none ∧ n.isExpanded = false

namespace AddedLeaves

variable {parent : Option NodeId} {new later : List NodeId} {g g' g'' : Graph S}

theorem refl (parent : Option NodeId) (g : Graph S) : AddedLeaves parent [] g g :=
  ⟨.refl g, fun _ hi => ⟨_, hi, rfl, fun _ => ⟨rfl, rfl⟩⟩, by simp⟩

theorem parent_eq (h : AddedLeaves parent new g g') {i : NodeId} {n : Node S} (hi : i ∈ new)
    (hn : g'.get? i = some n) : n.parent = parent := by
  obtain ⟨-, n', hn', hparent, -⟩ := h.new hi
  exact Option.some.inj (hn.symm.trans hn') ▸ hparent

/-- What was there before is not new. -/
theorem notMem (h : AddedLeaves parent new g g') {i : NodeId} {n : Node S} (hn : g.get? i = some n) :
    i ∉ new := by
  intro hi
  simp [(h.new hi).1] at hn

/-- What is not new was there before, and has grown. -/
theorem exists_old (h : AddedLeaves parent new g g') {i : NodeId} {n' : Node S} (hi : i ∉ new)
    (hn' : g'.get? i = some n') : ∃ n, g.get? i = some n ∧ n.Grows n' ∧ n'.covering = n.covering ∧
      (some i ≠ parent → n'.succs = n.succs ∧ n'.isExpanded = n.isExpanded) := by
  obtain ⟨n, hn, hcovering, hlinks⟩ := h.old hi hn'
  obtain ⟨m, hm, hgrows⟩ := h.grows.node hn
  obtain rfl := Option.some.inj (hn'.symm.trans hm)
  exact ⟨n, hn, hgrows, hcovering, hlinks⟩

/-- What is new is an open leaf. -/
theorem isOpen_of_mem (h : AddedLeaves parent new g g') {i : NodeId} {n : Node S} (hi : i ∈ new)
    (hn : g'.get? i = some n) : n.succs = [] ∧ n.covering = none ∧ n.isExpanded = false := by
  obtain ⟨-, m, hm, -, hopen⟩ := h.new hi
  exact Option.some.inj (hn.symm.trans hm) ▸ hopen

theorem trans (hparent : ∀ p, parent = some p → ∃ n, g.get? p = some n)
    (h : AddedLeaves parent new g g') (h' : AddedLeaves parent later g' g'') :
    AddedLeaves parent (new ++ later) g g'' := by
  refine ⟨h.grows.trans h'.grows, ?_, ?_⟩
  · intro i n hi hn
    rw [List.mem_append, not_or] at hi
    obtain ⟨n', hn', hcov, hlinks⟩ := h'.old hi.2 hn
    obtain ⟨n'', hn'', hcov', hlinks'⟩ := h.old hi.1 hn'
    exact ⟨n'', hn'', hcov.trans hcov', fun hne =>
      ⟨(hlinks hne).1.trans (hlinks' hne).1, (hlinks hne).2.trans (hlinks' hne).2⟩⟩
  · intro i hi
    rcases List.mem_append.1 hi with hi | hi
    · obtain ⟨hnone, n, hn, hp, hnil, hfree, hopen⟩ := h.new hi
      have hlater : i ∉ later := fun hlater => by simp [(h'.new hlater).1] at hn
      obtain ⟨n', hn', hgrows⟩ := h'.grows.node hn
      obtain ⟨m, hm, hcov, hlinks⟩ := h'.old hlater hn'
      obtain rfl := Option.some.inj (hn.symm.trans hm)
      -- the new node is not the parent, which was there before
      have hne : some i ≠ parent := by
        rintro rfl
        obtain ⟨k, hk⟩ := hparent i rfl
        simp [hnone] at hk
      exact ⟨hnone, n', hn', hgrows.parent.trans hp, (hlinks hne).1.trans hnil, hcov.trans hfree,
        (hlinks hne).2.trans hopen⟩
    · obtain ⟨hnone, hn⟩ := h'.new hi
      refine ⟨?_, hn⟩
      cases hg : g.get? i with
      | none => rfl
      | some n =>
        obtain ⟨n', hn', -⟩ := h.grows.node hg
        simp [hnone] at hn'

theorem of_createInit {state : S} {isTarget isFeasible : Bool} {id : NodeId}
    (hopen : g.isInitialized = false)
    (h : (createInit state isTarget isFeasible).run g = .ok id g') :
    AddedLeaves none [id] g g' := by
  obtain ⟨hnew, hinit, -⟩ := createInit_ok h
  refine ⟨⟨fun hi => ⟨_, hnew.get?_of_get? hi, .refl _⟩, hinit ▸ List.prefix_append _ _,
    by simp [hopen]⟩, fun {i n} hi hn => ?_, fun hi => ?_⟩
  · obtain ⟨rfl, -⟩ | ⟨n, hn, rfl⟩ := hnew.cases_of_get? hn
    · simp at hi
    · exact ⟨n, hn, rfl, fun _ => ⟨rfl, rfl⟩⟩
  · obtain rfl := List.mem_singleton.1 hi
    exact ⟨hnew.fresh, _, hnew.get?_id, rfl, rfl, rfl, rfl⟩

theorem of_createSucc {state : S} {isTarget isFeasible : Bool} {parent id : NodeId}
    {above : Node S} (habove : g.get? parent = some above) (hopen : above.isExpanded = false)
    (h : (createSucc parent state isTarget isFeasible).run g = .ok id g') :
    AddedLeaves (some parent) [id] g g' := by
  obtain ⟨above', habove', -, hnew, hinit, hinitialized⟩ := createSucc_ok h
  obtain rfl := Option.some.inj (habove.symm.trans habove')
  refine ⟨⟨fun {i n} hi => ⟨_, hnew.get?_of_get? hi, ?_⟩, hinit ▸ List.prefix_refl _,
    fun h => ⟨hinitialized.trans h, hinit⟩⟩, fun {i n} hi hn => ?_, fun hi => ?_⟩
  · unfold addChild
    split
    · rename_i hip
      obtain rfl := Option.some.inj (habove.symm.trans (hip ▸ hi))
      exact ⟨rfl, rfl, rfl, rfl, rfl, List.prefix_append _ _, by simp [hopen], fun h => h⟩
    · exact .refl n
  · obtain ⟨rfl, -⟩ | ⟨n, hn, rfl⟩ := hnew.cases_of_get? hn
    · simp at hi
    · rename_i hold
      refine ⟨n, hold, by unfold addChild; split <;> rfl, fun hne => ?_⟩
      have hip : i ≠ parent := fun hip => hne (hip ▸ rfl)
      simp [addChild, hip]
  · obtain rfl := List.mem_singleton.1 hi
    exact ⟨hnew.fresh, _, hnew.get?_id, rfl, rfl, rfl, rfl⟩

/-- The node that got the leaves counts as expanded afterwards. -/
theorem setExpanded {id : NodeId} {n : Node S} (h : AddedLeaves (some id) new g g')
    (hn : g.get? id = some n) (hopen : n.isExpanded = false) {u : Unit}
    (hset : (Graph.setExpanded id true).run g' = .ok u g'') :
    AddedLeaves (some id) new g g'' ∧ ∃ n', g''.get? id = some n' ∧ n'.isExpanded = true := by
  obtain ⟨⟨m, hm⟩, hrewritten⟩ := rewritten_of_setExpanded hset
  obtain ⟨m', hm', hgrows⟩ := h.grows.node hn
  obtain rfl := Option.some.inj (hm.symm.trans hm')
  refine ⟨⟨⟨fun {i k} hi => ?_, ?_, ?_⟩, fun {i k} hi hk => ?_, fun {i} hi => ?_⟩, _,
    hrewritten.get?_of_get? hm, by simp⟩
  · obtain ⟨k', hk', hgrows'⟩ := h.grows.node hi
    refine ⟨_, hrewritten.get?_of_get? hk', ?_⟩
    rcases eq_or_ne i id with rfl | hne
    · obtain rfl := Option.some.inj (hn.symm.trans hi)
      obtain rfl := Option.some.inj (hm.symm.trans hk')
      rw [if_pos rfl]
      exact ⟨hgrows.state, hgrows.isTarget, hgrows.isFeasible, hgrows.depth, hgrows.parent,
        hgrows.succs, by simp [hopen], hgrows.isCovered⟩
    · rwa [if_neg hne]
  · exact hrewritten.initNodes ▸ h.grows.initNodes
  · exact fun hi => (h.grows.isInitialized hi).imp hrewritten.isInitialized.trans
      hrewritten.initNodes.trans
  · obtain ⟨k, hk₁, rfl⟩ := hrewritten.exists_of_get? hk
    obtain ⟨k', hk', hcov', hlinks⟩ := h.old hi hk₁
    refine ⟨k', hk', by split <;> exact hcov', fun hne => ?_⟩
    have hne' : i ≠ id := fun heq => hne (congrArg some heq)
    rw [if_neg hne']
    exact hlinks hne
  · obtain ⟨hnone, k, hk, hlinks⟩ := h.new hi
    have hne : i ≠ id := by
      rintro rfl
      simp [hn] at hnone
    refine ⟨hnone, _, hrewritten.get?_of_get? hk, ?_⟩
    rw [if_neg hne]
    exact hlinks

/-- New leaves are not expanded. -/
theorem exists_of_isExpanded (h : AddedLeaves parent new g g') {i : NodeId} {n : Node S}
    (hn : g'.get? i = some n) (hexpanded : n.isExpanded = true) (hne : some i ≠ parent) :
    ∃ m, g.get? i = some m ∧ m.isExpanded = true := by
  have hi : i ∉ new := fun hi => by simp [(h.isOpen_of_mem hi hn).2.2] at hexpanded
  obtain ⟨m, hm, -, hlinks⟩ := h.old hi hn
  exact ⟨m, hm, (hlinks hne).2 ▸ hexpanded⟩

end AddedLeaves

/-! ## Expanded nodes -/

section

variable {g g' : Graph S}

/-- The expanded nodes. -/
def expandedIds (g : Graph S) : List NodeId := g.ids.filter (g.test (·.isExpanded))

theorem mem_expandedIds {i : NodeId} :
    i ∈ g.expandedIds ↔ ∃ n, g.get? i = some n ∧ n.isExpanded = true := by
  simp only [expandedIds, List.mem_filter, mem_ids, test, Option.any_eq_true]
  constructor
  · exact And.right
  · rintro ⟨n, hn, hexpanded⟩
    exact ⟨⟨n, hn⟩, n, hn, hexpanded⟩

theorem nodup_expandedIds (g : Graph S) : g.expandedIds.Nodup :=
  (List.nodup_range.filter _).filter _

/-- New leaves make at most one more node count as expanded. -/
theorem AddedLeaves.length_expandedIds {parent : Option NodeId} {new : List NodeId}
    (h : AddedLeaves parent new g g') : g'.expandedIds.length ≤ g.expandedIds.length + 1 := by
  have hsub : g'.expandedIds ⊆ parent.toList ++ g.expandedIds := by
    intro i hi
    obtain ⟨n, hn, hexpanded⟩ := mem_expandedIds.1 hi
    by_cases hparent : some i = parent
    · exact List.mem_append_left _ (by simp [← hparent])
    · exact List.mem_append_right _ (mem_expandedIds.2 (h.exists_of_isExpanded hn hexpanded hparent))
  have hlength := ((nodup_expandedIds g').subperm hsub).length_le
  rw [List.length_append] at hlength
  have hparent : parent.toList.length ≤ 1 := by cases parent <;> simp
  omega

/-- Covering a node expands none. -/
theorem Rewritten.length_expandedIds {f : NodeId → Node S → Node S} (h : Rewritten f g g')
    (hsame : ∀ i n, (f i n).isExpanded = n.isExpanded) :
    g'.expandedIds.length ≤ g.expandedIds.length := by
  refine ((nodup_expandedIds g').subperm fun i hi => ?_).length_le
  obtain ⟨n', hn', hexpanded⟩ := mem_expandedIds.1 hi
  obtain ⟨n, hn, rfl⟩ := h.exists_of_get? hn'
  exact mem_expandedIds.2 ⟨n, hn, (hsame i n).symm.trans hexpanded⟩

end

/-! ## Init nodes and children -/

variable [DecidableEq S] {analysis : Analysis S P K} {allowed : P → Prop} {g g' : Graph S}

theorem addInitStates_ok (hg : g.Faithful analysis allowed) (hopen : g.isInitialized = false)
    {states : List S} {new : List NodeId}
    (h : (addInitStates analysis states).run g = .ok new g') :
    g'.Faithful analysis allowed ∧ AddedLeaves none new g g' ∧
      ∀ s ∈ states, s ∈ g'.statesOf g'.initNodes := by
  induction states generalizing g new with
  | nil =>
    obtain ⟨rfl, rfl⟩ := Edit.run_pure_ok.1 h
    exact ⟨hg, .refl none g, by simp⟩
  | cons s states ih =>
    simp only [addInitStates, Edit.run_bind_ok, Edit.run_get_ok] at h
    obtain ⟨_, _, ⟨rfl, rfl⟩, h⟩ := h
    split at h
    · rename_i hs
      obtain ⟨hg', hadded, hall⟩ := ih hg hopen h
      refine ⟨hg', hadded, List.forall_mem_cons.2 ⟨?_, hall⟩⟩
      refine statesOf_mono hs (fun i hi => hadded.grows.initNodes.subset hi) fun i _ n hn => ?_
      obtain ⟨n', hn', hgrows⟩ := hadded.grows.node hn
      exact ⟨n', hn', hgrows.state⟩
    · simp only [Edit.run_bind_ok, Edit.run_pure_ok] at h
      obtain ⟨id, t, hid, rest, _, hrest, rfl, rfl⟩ := h
      obtain ⟨hnew, hinit, hsame⟩ := createInit_ok hid
      obtain ⟨hg', hadded, hall⟩ := ih (hg.createInit hid) (hsame.trans hopen) hrest
      refine ⟨hg', (AddedLeaves.of_createInit hopen hid).trans (by simp) hadded,
        List.forall_mem_cons.2 ⟨?_, hall⟩⟩
      obtain ⟨n', hn', hgrows⟩ := hadded.grows.node hnew.get?_id
      refine mem_statesOf.2 ⟨id, n', hadded.grows.initNodes.subset ?_, hn', hgrows.state⟩
      simp [hinit]

/-- **Adding the init states** leaves a graph that presents all of them. -/
theorem seed_ok (hg : g.Faithful analysis allowed) (hopen : g.isInitialized = false) {prec : P}
    (hprec : allowed prec) {new : List NodeId} (h : (seed analysis prec).run g = .ok new g') :
    g'.Faithful analysis allowed ∧ AddedLeaves none new g g' ∧ g'.isInitialized = true := by
  simp only [seed, Edit.run_bind_ok, Edit.run_pure_ok] at h
  obtain ⟨_, t, hadd, _, _, hset, rfl, rfl⟩ := h
  obtain ⟨hg', hadded, hall⟩ := addInitStates_ok hg hopen hadd
  refine ⟨hg'.setInitialized hprec hall hset, ?_⟩
  obtain rfl := Edit.run_modify_ok.1 hset
  exact ⟨⟨⟨hadded.grows.node, hadded.grows.initNodes, by simp [hopen]⟩, hadded.old, hadded.new⟩, rfl⟩

theorem addSuccStates_ok (hg : g.Faithful analysis allowed) {parent : NodeId} {above : Node S}
    (habove : g.get? parent = some above) (hfeasible : above.isFeasible = true)
    (hopen : above.isExpanded = false) {states : List S} {new : List NodeId}
    (h : (addSuccStates analysis parent states).run g = .ok new g') :
    g'.Faithful analysis allowed ∧ AddedLeaves (some parent) new g g' ∧
      ∃ n, g'.get? parent = some n ∧ n.covering = above.covering ∧ n.isExpanded = false ∧
        ∀ s ∈ states, s ∈ g'.statesOf n.succs := by
  induction states generalizing g above new with
  | nil =>
    obtain ⟨rfl, rfl⟩ := Edit.run_pure_ok.1 h
    exact ⟨hg, .refl _ g, above, habove, rfl, hopen, by simp⟩
  | cons s states ih =>
    simp only [addSuccStates, Edit.run_bind_ok, Edit.run_get_ok, run_readNode_ok] at h
    obtain ⟨above', _, ⟨habove', rfl⟩, _, _, ⟨rfl, rfl⟩, h⟩ := h
    obtain rfl := Option.some.inj (habove.symm.trans habove')
    split at h
    · rename_i hs
      obtain ⟨hg', hadded, n, hn, hcov, hopen', hall⟩ := ih hg habove hfeasible hopen h
      refine ⟨hg', hadded, n, hn, hcov, hopen', List.forall_mem_cons.2 ⟨?_, hall⟩⟩
      obtain ⟨n', hn', hgrows⟩ := hadded.grows.node habove
      obtain rfl := Option.some.inj (hn.symm.trans hn')
      refine statesOf_mono hs (fun i hi => hgrows.succs.subset hi) fun i _ m hm => ?_
      obtain ⟨m', hm', hgrows⟩ := hadded.grows.node hm
      exact ⟨m', hm', hgrows.state⟩
    · simp only [Edit.run_bind_ok, Edit.run_pure_ok] at h
      obtain ⟨id, t, hid, rest, _, hrest, rfl, rfl⟩ := h
      obtain ⟨above', habove', hfree, hnew, -, -⟩ := createSucc_ok hid
      obtain rfl := Option.some.inj (habove.symm.trans habove')
      have hparent : t.get? parent = some { above with succs := above.succs ++ [id] } := by
        rw [hnew.get?_of_get? habove, addChild, if_pos rfl]
      obtain ⟨hg', hadded, n, hn, hcov, hopen', hall⟩ :=
        ih (hg.createSucc habove hfeasible hid) hparent hfeasible hopen hrest
      refine ⟨hg', (AddedLeaves.of_createSucc habove hopen hid).trans ?_ hadded, n, hn, hcov, hopen',
        List.forall_mem_cons.2 ⟨?_, hall⟩⟩
      · rintro p hp
        exact ⟨above, Option.some.inj hp ▸ habove⟩
      · obtain ⟨n', hn', hgrows⟩ := hadded.grows.node hnew.get?_id
        obtain ⟨m', hm', hgrows'⟩ := hadded.grows.node hparent
        obtain rfl := Option.some.inj (hn.symm.trans hm')
        exact mem_statesOf.2 ⟨id, n', hgrows'.succs.subset (by simp), hn', hgrows.state⟩

/-- **Expanding a node** leaves it with a child for every successor of its state. -/
theorem expand_ok (hg : g.Faithful analysis allowed) {prec : P} (hprec : allowed prec) {id : NodeId}
    {n : Node S} (hn : g.get? id = some n) (hfree : n.covering = none)
    (hfeasible : n.isFeasible = true) (hopen : n.isExpanded = false) {new : List NodeId}
    (h : (expand analysis id prec).run g = .ok new g') :
    g'.Faithful analysis allowed ∧ AddedLeaves (some id) new g g' ∧
      ∃ n', g'.get? id = some n' ∧ n'.isExpanded = true := by
  simp only [expand, Edit.run_bind_ok, run_readNode_ok, Edit.run_lift_ok, Edit.run_pure_ok] at h
  obtain ⟨n', _, ⟨hn', rfl⟩, states, _, ⟨hstates, rfl⟩, _, t, hadd, _, _, hset, rfl, rfl⟩ := h
  obtain rfl := Option.some.inj (hn.symm.trans hn')
  simp only [Analysis.successors?, bind_eq_ok, pure_eq_ok] at hstates
  obtain ⟨-, -, rfl⟩ := hstates
  obtain ⟨hg', hadded, m, hm, hcov, hopen', hall⟩ := addSuccStates_ok hg hn hfeasible hopen hadd
  obtain ⟨m', hm', hgrows⟩ := hadded.grows.node hn
  obtain rfl := Option.some.inj (hm.symm.trans hm')
  exact ⟨hg'.setExpanded hm (hcov.trans hfree) (hgrows.isFeasible.trans hfeasible) hprec
    (hgrows.state ▸ hall) hset, hadded.setExpanded hn hopen hset⟩

end Graph

end GuidedReach
