import GuidedReach.Proofs.Graph.Edits

/-!
# What a graph has grown out of

Between two points in time a graph only gets new leaves, each with a state that the analysis asked
for under one precision. So its nodes, and what they list, can be told from an earlier graph.

* `Graph.GrownFrom` — a graph with all that has been added to an earlier one.
* `Graph.GrownFrom.of_rewritten`, `Graph.GrownFrom.expand`, `Graph.GrownFrom.seed` — changes that
  only add what the analysis asks for.
* `Graph.Derived` — every node has a state that the analysis asked for under some precision.
* `Graph.GrownFrom.derived`, `Graph.Remains.derived` — growing and pruning keep it so.
-/

namespace GuidedReach.Graph

variable {S P K : Type} {g g' base : Graph S} {analysis : Analysis S P K} {prec : P}
variable {allowed allowed' : P → Prop}

/-! ## Growth under one precision -/

/-- What a node lists as successors; nothing, if there is no such node. -/
def succsOf (g : Graph S) (id : NodeId) : List NodeId := ((g.get? id).map (·.succs)).getD []

theorem succsOf_eq {id : NodeId} {n : Node S} (hn : g.get? id = some n) : g.succsOf id = n.succs := by
  simp [succsOf, hn]

theorem succsOf_eq_nil {id : NodeId} (hnone : g.get? id = none) : g.succsOf id = [] := by
  simp [succsOf, hnone]

/-- The graph has grown out of an earlier one. New nodes have states that the analysis asks for under
the precision, and new successors are listed when their parent is expanded. -/
structure GrownFrom (analysis : Analysis S P K) (prec : P) (base g : Graph S) : Prop where
  grows : base.Grows g
  root : ∀ {i n}, g.get? i = some n → base.get? i = none → n.parent = none →
    n.state ∈ analysis.initStates prec
  child : ∀ {i n p m}, g.get? i = some n → base.get? i = none → n.parent = some p →
    g.get? p = some m → n.state ∈ analysis.succStates m.state prec
  open_succs : ∀ {i n}, g.get? i = some n → n.isExpanded = false → n.succs = base.succsOf i
  succs_length : ∀ {i n}, g.get? i = some n →
    n.succs.length ≤ (base.succsOf i).length + (analysis.succStates n.state prec).length
  open_initNodes : g.isInitialized = false → g.initNodes = base.initNodes
  initNodes_length : g.initNodes.length ≤ base.initNodes.length + (analysis.initStates prec).length

namespace GrownFrom

theorem refl (g : Graph S) : g.GrownFrom analysis prec g where
  grows := .refl g
  root hn hnone := by simp [hn] at hnone
  child hn hnone := by simp [hn] at hnone
  open_succs hn _ := (succsOf_eq hn).symm
  succs_length hn := by rw [succsOf_eq hn]; exact Nat.le_add_right _ _
  open_initNodes _ := rfl
  initNodes_length := Nat.le_add_right _ _

/-- A change of covering edges. -/
theorem of_rewritten (h : base.GrownFrom analysis prec g) {f : NodeId → Node S → Node S}
    (hrewritten : Rewritten f g g') (hgrows : g.Grows g')
    (hsame : ∀ i n, (f i n).state = n.state ∧ (f i n).parent = n.parent ∧
      (f i n).succs = n.succs ∧ (f i n).isExpanded = n.isExpanded) : base.GrownFrom analysis prec g' where
  grows := h.grows.trans hgrows
  root := by
    intro i n' hn' hnone hparent
    obtain ⟨n, hn, rfl⟩ := hrewritten.exists_of_get? hn'
    rw [(hsame i n).2.1] at hparent
    rw [(hsame i n).1]
    exact h.root hn hnone hparent
  child := by
    intro i n' p m' hn' hnone hparent hm'
    obtain ⟨n, hn, rfl⟩ := hrewritten.exists_of_get? hn'
    obtain ⟨m, hm, rfl⟩ := hrewritten.exists_of_get? hm'
    rw [(hsame i n).2.1] at hparent
    rw [(hsame i n).1, (hsame p m).1]
    exact h.child hn hnone hparent hm
  open_succs := by
    intro i n' hn' hopen
    obtain ⟨n, hn, rfl⟩ := hrewritten.exists_of_get? hn'
    rw [(hsame i n).2.2.2] at hopen
    rw [(hsame i n).2.2.1]
    exact h.open_succs hn hopen
  succs_length := by
    intro i n' hn'
    obtain ⟨n, hn, rfl⟩ := hrewritten.exists_of_get? hn'
    rw [(hsame i n).1, (hsame i n).2.2.1]
    exact h.succs_length hn
  open_initNodes hopen := by
    rw [hrewritten.isInitialized] at hopen
    rw [hrewritten.initNodes]
    exact h.open_initNodes hopen
  initNodes_length := by
    rw [hrewritten.initNodes]
    exact h.initNodes_length

theorem get?_base_eq_none (h : base.GrownFrom analysis prec g) {i : NodeId}
    (hnone : g.get? i = none) : base.get? i = none := by
  cases hbase : base.get? i with
  | none => rfl
  | some n =>
    obtain ⟨n', hn', -⟩ := h.grows.node hbase
    simp [hnone] at hn'

/-- New leaves whose states the analysis asks for. -/
theorem of_addedLeaves (h : base.GrownFrom analysis prec g) (hwf : g.WellFormed)
    {parent : Option NodeId} {new : List NodeId} (hadded : AddedLeaves parent new g g')
    (hroot : parent = none → ∀ i ∈ new, ∀ n, g'.get? i = some n → n.state ∈ analysis.initStates prec)
    (hchild : ∀ p, parent = some p → ∃ m m', g.get? p = some m ∧ g'.get? p = some m' ∧
      (∀ i ∈ new, ∀ n, g'.get? i = some n → n.state ∈ analysis.succStates m.state prec) ∧
      m'.isExpanded = true ∧ m'.succs.length ≤
        (base.succsOf p).length + (analysis.succStates m.state prec).length)
    (hopen : g'.isInitialized = false → g'.initNodes = base.initNodes)
    (hlength : g'.initNodes.length ≤ base.initNodes.length + (analysis.initStates prec).length) :
    base.GrownFrom analysis prec g' where
  grows := h.grows.trans hadded.grows
  root := by
    intro i n hn hnone hparent
    by_cases hi : i ∈ new
    · exact hroot ((hadded.parent_eq hi hn).symm.trans hparent) i hi n hn
    · obtain ⟨m, hm, hgrows, -⟩ := hadded.exists_old hi hn
      rw [hgrows.state]
      exact h.root hm hnone (hgrows.parent.symm.trans hparent)
  child := by
    intro i n p m hn hnone hparent hm
    by_cases hi : i ∈ new
    · obtain ⟨a, a', ha, ha', hstates, -⟩ :=
        hchild p ((hadded.parent_eq hi hn).symm.trans hparent)
      obtain ⟨a'', ha'', hgrows⟩ := hadded.grows.node ha
      obtain rfl := Option.some.inj (hm.symm.trans ha'')
      rw [hgrows.state]
      exact hstates i hi n hn
    · obtain ⟨k, hk, hgrows, -⟩ := hadded.exists_old hi hn
      have hparent' := hgrows.parent.symm.trans hparent
      obtain ⟨-, a, ha, -⟩ := hwf.parent_link hk hparent'
      obtain ⟨a', ha', hgrows'⟩ := hadded.grows.node ha
      obtain rfl := Option.some.inj (hm.symm.trans ha')
      rw [hgrows.state, hgrows'.state]
      exact h.child hk hnone hparent' ha
  open_succs := by
    intro i n hn hopen'
    by_cases hi : i ∈ new
    · rw [(hadded.isOpen_of_mem hi hn).1, succsOf_eq_nil (h.get?_base_eq_none (hadded.new hi).1)]
    · obtain ⟨m, hm, -, -, hlinks⟩ := hadded.exists_old hi hn
      have hne : some i ≠ parent := by
        rintro rfl
        obtain ⟨-, m', -, hm', -, hexpanded, -⟩ := hchild i rfl
        obtain rfl := Option.some.inj (hn.symm.trans hm')
        simp [hopen'] at hexpanded
      obtain ⟨hsuccs, hexpanded⟩ := hlinks hne
      rw [hsuccs]
      exact h.open_succs hm (hexpanded.symm.trans hopen')
  succs_length := by
    intro i n hn
    by_cases hi : i ∈ new
    · rw [(hadded.isOpen_of_mem hi hn).1]
      exact Nat.zero_le _
    · obtain ⟨m, hm, hgrows, -, hlinks⟩ := hadded.exists_old hi hn
      rw [hgrows.state]
      by_cases heq : some i = parent
      · obtain ⟨a, a', ha, ha', -, -, hle⟩ := hchild i heq.symm
        obtain rfl := Option.some.inj (hm.symm.trans ha)
        obtain rfl := Option.some.inj (hn.symm.trans ha')
        exact hle
      · rw [(hlinks heq).1]
        exact h.succs_length hm
  open_initNodes := hopen
  initNodes_length := hlength

variable [DecidableEq S]

/-- Expanding a node. -/
theorem expand (h : base.GrownFrom analysis prec g) (hg : g.Faithful analysis allowed)
    (hprec : allowed prec) {id : NodeId} {a : Node S} (ha : g.get? id = some a)
    (hfree : a.covering = none) (hfeasible : a.isFeasible = true) (hopen : a.isExpanded = false)
    {new : List NodeId} (hrun : (Graph.expand analysis id prec).run g = .ok new g') :
    base.GrownFrom analysis prec g' := by
  obtain ⟨-, hadded, a', ha', hexpanded⟩ := expand_ok hg hprec ha hfree hfeasible hopen hrun
  obtain ⟨-, hstates⟩ := expand_new hg ha hfeasible hopen hrun
  obtain ⟨hlength, ⟨a'', ha'', hsuccs⟩, hinit, hinitialized⟩ := expand_succs ha hrun
  obtain rfl := Option.some.inj (ha'.symm.trans ha'')
  refine h.of_addedLeaves hg.wellFormed hadded (by simp) ?_ ?_ ?_
  · rintro _ ⟨⟩
    refine ⟨a, a', ha, ha', fun i hi n hn => ?_, hexpanded, ?_⟩
    · obtain ⟨n', hn', hstate⟩ := hstates i hi
      obtain rfl := Option.some.inj (hn.symm.trans hn')
      exact hstate
    · rw [hsuccs, List.length_append, h.open_succs ha hopen]
      exact Nat.add_le_add_left hlength _
  · intro hopen'
    rw [hinit]
    exact h.open_initNodes (hinitialized.symm.trans hopen')
  · rw [hinit]
    exact h.initNodes_length

/-- Adding the missing init nodes. -/
theorem seed (h : base.GrownFrom analysis prec g) (hg : g.Faithful analysis allowed)
    (hprec : allowed prec) (hopen : g.isInitialized = false) {new : List NodeId}
    (hrun : (Graph.seed analysis prec).run g = .ok new g') : base.GrownFrom analysis prec g' := by
  obtain ⟨-, hadded, hinitialized⟩ := seed_ok hg hopen hprec hrun
  obtain ⟨-, hstates⟩ := seed_new hg hopen hrun
  obtain ⟨hlength, hinit⟩ := seed_initNodes hrun
  refine h.of_addedLeaves hg.wellFormed hadded (fun _ i hi n hn => ?_) (by simp)
    (by simp [hinitialized]) ?_
  · obtain ⟨n', hn', hstate⟩ := hstates i hi
    obtain rfl := Option.some.inj (hn.symm.trans hn')
    exact hstate
  · rw [hinit, List.length_append, h.open_initNodes hopen]
    exact Nat.add_le_add_left hlength _

end GrownFrom

/-! ## Growth under several precisions -/

/-- Every root has a state that the analysis asked for under some precision that was allowed, and so
has every child, below the state of its parent. -/
structure Derived (analysis : Analysis S P K) (allowed : P → Prop) (g : Graph S) : Prop where
  root : ∀ {i n}, g.get? i = some n → n.parent = none →
    ∃ prec, allowed prec ∧ n.state ∈ analysis.initStates prec
  child : ∀ {i n p m}, g.get? i = some n → n.parent = some p → g.get? p = some m →
    ∃ prec, allowed prec ∧ n.state ∈ analysis.succStates m.state prec

theorem Derived.empty : Derived analysis allowed ({} : Graph S) :=
  ⟨by simp [Graph.get?, NodeMap.get?_empty], by simp [Graph.get?, NodeMap.get?_empty]⟩

theorem Derived.mono (h : g.Derived analysis allowed) (hle : ∀ prec, allowed prec → allowed' prec) :
    g.Derived analysis allowed' where
  root hn hparent := by
    obtain ⟨prec, hprec, hstate⟩ := h.root hn hparent
    exact ⟨prec, hle prec hprec, hstate⟩
  child hn hparent hm := by
    obtain ⟨prec, hprec, hstate⟩ := h.child hn hparent hm
    exact ⟨prec, hle prec hprec, hstate⟩

/-- What is left of a graph. -/
theorem Remains.derived (h : g.Remains g') (hg : g.Derived analysis allowed) :
    g'.Derived analysis allowed where
  root hn hparent := by
    obtain ⟨n', hn', hstate, hparent', -⟩ := h.node hn
    rw [hstate]
    exact hg.root hn' (hparent'.symm.trans hparent)
  child hn hparent hm := by
    obtain ⟨n', hn', hstate, hparent', -⟩ := h.node hn
    obtain ⟨m', hm', hstate', -⟩ := h.node hm
    rw [hstate, hstate']
    exact hg.child hn' (hparent'.symm.trans hparent) hm'

/-- Growth under a precision that is allowed. -/
theorem GrownFrom.derived (h : base.GrownFrom analysis prec g) (hwf : base.WellFormed)
    (hbase : base.Derived analysis allowed) (hprec : allowed prec) : g.Derived analysis allowed where
  root := by
    intro i n hn hparent
    cases hold : base.get? i with
    | none => exact ⟨prec, hprec, h.root hn hold hparent⟩
    | some n' =>
      obtain ⟨n'', hn'', hgrows⟩ := h.grows.node hold
      obtain rfl := Option.some.inj (hn.symm.trans hn'')
      rw [hgrows.state]
      exact hbase.root hold (hgrows.parent.symm.trans hparent)
  child := by
    intro i n p m hn hparent hm
    cases hold : base.get? i with
    | none => exact ⟨prec, hprec, h.child hn hold hparent hm⟩
    | some n' =>
      obtain ⟨n'', hn'', hgrows⟩ := h.grows.node hold
      obtain rfl := Option.some.inj (hn.symm.trans hn'')
      have hparent' := hgrows.parent.symm.trans hparent
      obtain ⟨-, a, ha, -⟩ := hwf.parent_link hold hparent'
      obtain ⟨a', ha', hgrows'⟩ := h.grows.node ha
      obtain rfl := Option.some.inj (hm.symm.trans ha')
      rw [hgrows.state, hgrows'.state]
      exact hbase.child hold hparent' ha

end GuidedReach.Graph
