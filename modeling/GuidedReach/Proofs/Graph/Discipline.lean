import GuidedReach.Proofs.Graph.Ancestors
import GuidedReach.Proofs.Graph.Leaves
import GuidedReach.Proofs.Graph.Prune

/-!
# The discipline of covering edges

A covered node is a leaf that was not expanded, and its coverer can be relied on: neither it nor a
node above it is covered or infeasible. All changes of a graph keep this up, whatever the analysis is
like, as long as subsumption is transitive.

* `Graph.Unspoilt` — a node that may stand in for others.
* `Graph.mayCover_ok` — what has been checked before a node is covered.
* `Graph.Disciplined` — graphs whose covering edges are in order.
* `Graph.Disciplined.cover`, `Graph.Disciplined.uncover`, `Graph.Disciplined.of_addedLeaves`,
  `Graph.Disciplined.of_pruned` — each change keeps them so.
* `Graph.CoversReliably` — what a caller can rely on.
* `Graph.Disciplined.isSafe_iff` — a graph is safe if all its targets are infeasible.
-/

namespace GuidedReach.Graph

variable {S P K : Type} {g g' : Graph S} {id coverer c x : NodeId} {n : Node S}

/-! ## Nodes that can be relied on -/

/-- Neither the node nor one above it is covered or infeasible. -/
def Unspoilt (g : Graph S) (id : NodeId) : Prop :=
  ∀ {x m}, x = id ∨ g.Above x id → g.get? x = some m → m.isSubsumed = false

theorem Unspoilt.isExcluded (h : g.Unspoilt id) : g.isExcluded id = false := by
  refine List.any_eq_false.2 fun x hx => ?_
  cases hm : g.get? x with
  | none => simp [test, hm]
  | some m => simp [test, hm, h (above_of_mem_ancestorsWithin hx) hm]

theorem mem_ancestorsWithin_self (g : Graph S) (steps : Nat) (id : NodeId) :
    id ∈ g.ancestorsWithin steps id := by
  cases steps with
  | zero => simp [ancestorsWithin]
  | succ steps =>
    unfold ancestorsWithin
    split <;> simp

/-- All that is above a node is met on the way up. -/
theorem mem_ancestorsWithin_of_above (hwf : g.WellFormed) {steps : Nat} (habove : g.Above x c)
    (hle : c ≤ steps) : x ∈ g.ancestorsWithin steps c := by
  induction steps generalizing c with
  | zero =>
    have := (habove.not_leaf hwf).1
    lia
  | succ steps ih =>
    obtain ⟨parent, hup, n, hn, hparent⟩ := Relation.TransGen.tail'_iff.1 habove
    have hlt := (hwf.parent_link hn hparent).1
    have hbind : (g.get? c).bind (·.parent) = some parent := by simp [hn, hparent]
    simp only [ancestorsWithin, hbind, List.mem_cons]
    rcases Relation.reflTransGen_iff_eq_or_transGen.1 hup with rfl | hup
    · exact .inr (g.mem_ancestorsWithin_self steps _)
    · exact .inr (ih hup (by lia))

/-- **What has been checked before a node is covered.** -/
theorem mayCover_ok {analysis : Analysis S P K} (hwf : g.WellFormed)
    (h : g.mayCover analysis id coverer = .ok true) :
    ∃ a b, g.get? id = some a ∧ g.get? coverer = some b ∧ analysis.isLeq a.state b.state = true ∧
      g.Unspoilt coverer ∧ ∀ {x}, x = coverer ∨ g.Above x coverer → x ≠ id := by
  unfold mayCover at h
  split at h
  · simp at h
  · simp only [bind_eq_ok, node_eq_ok, pure_eq_ok, Bool.and_eq_true, List.all_eq_true,
      bne_iff_ne, Bool.not_eq_true'] at h
    obtain ⟨a, ha, b, hb, hleq, hpath⟩ := h
    have hmem : ∀ {x}, x = coverer ∨ g.Above x coverer → x ∈ g.ancestors coverer := by
      rintro x (rfl | habove)
      · exact g.mem_ancestorsWithin_self _ _
      · exact mem_ancestorsWithin_of_above hwf habove (Nat.le_refl _)
    refine ⟨a, b, ha, hb, hleq, fun {x m} hx hm => ?_, fun hx => (hpath _ (hmem hx)).1⟩
    simpa [test, hm] using (hpath x (hmem hx)).2

/-- A node can still be relied on if nothing on the way up from it gets covered or infeasible. -/
theorem Unspoilt.of_nodes (h : g.Unspoilt id)
    (hnode : ∀ {x m'}, g'.get? x = some m' → ∃ m, g.get? x = some m ∧ m'.parent = m.parent ∧
      (x = id ∨ g.Above x id → m.isSubsumed = false → m'.isSubsumed = false)) : g'.Unspoilt id := by
  have hparent : g'.IsParent ≤ g.IsParent := by
    rintro p c ⟨n', hn', hp⟩
    obtain ⟨n, hn, hsame, -⟩ := hnode hn'
    exact ⟨n, hn, hsame ▸ hp⟩
  intro x m' hx hm'
  obtain ⟨m, hm, -, hsubsumed⟩ := hnode hm'
  have hx := hx.imp_right fun hup => Relation.TransGen.mono hparent x id hup
  exact hsubsumed hx (h hx hm)

theorem Unspoilt.of_addedLeaves {parent : Option NodeId} {new : List NodeId} (h : g.Unspoilt id)
    (hwf : g.WellFormed) (hn : g.get? id = some n) (hadded : AddedLeaves parent new g g') :
    g'.Unspoilt id := by
  intro x m' hx hm'
  have hx : x = id ∨ g.Above x id := hx.imp_right fun hup => hadded.grows.above hwf hup hn
  obtain ⟨m, hm⟩ : ∃ m, g.get? x = some m := by
    obtain rfl | hup := hx
    · exact ⟨n, hn⟩
    · exact (hup.not_leaf hwf).2.imp fun _ h => h.1
  obtain ⟨m₁, hm₁, hgrows, hcovering, -⟩ := hadded.exists_old (hadded.notMem hm) hm'
  obtain rfl := Option.some.inj (hm.symm.trans hm₁)
  have hfree := h hx hm
  simpa [Node.isSubsumed, Node.isCovered, hcovering, hgrows.isFeasible] using hfree

/-! ## Graphs whose covering edges are in order -/

/-- A covered node is a leaf that was not expanded. Its coverer subsumes it, can be relied on, and is a
target if the node is one. -/
structure Disciplined (analysis : Analysis S P K) (g : Graph S) : Prop where
  wellFormed : g.WellFormed
  covering : ∀ {i n c}, g.get? i = some n → n.covering = some c →
    n.succs = [] ∧ n.isExpanded = false ∧ g.Unspoilt c ∧ ∃ m, g.get? c = some m ∧
      analysis.isLeq n.state m.state = true ∧ (n.isTarget = true → m.isTarget = true)

namespace Disciplined

variable {analysis : Analysis S P K}

theorem empty : Disciplined analysis ({} : Graph S) where
  wellFormed := .empty
  covering := by simp [Graph.get?, NodeMap.get?_empty]

/-- **Covering keeps the discipline**: also the nodes that move over are subsumed by the new coverer,
and nothing that they depend on gets covered, since the covered node is a leaf. -/
theorem cover (hg : g.Disciplined analysis)
    (htrans : ∀ {a b c}, analysis.isLeq a b = true → analysis.isLeq b c = true →
      analysis.isLeq a c = true)
    {a b : Node S} (ha : g.get? id = some a) (hb : g.get? coverer = some b) (hleaf : a.succs = [])
    (hopen : a.isExpanded = false) (htarget : a.isTarget = true → b.isTarget = true)
    (hmay : g.mayCover analysis id coverer = .ok true) {u : Unit}
    (h : (Graph.cover id coverer).run g = .ok u g') : g'.Disciplined analysis := by
  obtain ⟨hne, a', b', ha', hfree, hb', hfree', hrewritten⟩ := cover_ok hg.wellFormed h
  obtain rfl := Option.some.inj (ha.symm.trans ha')
  obtain rfl := Option.some.inj (hb.symm.trans hb')
  obtain ⟨a', b', ha', hb', hleq, hunspoilt, hpath⟩ := mayCover_ok hg.wellFormed hmay
  obtain rfl := Option.some.inj (ha.symm.trans ha')
  obtain rfl := Option.some.inj (hb.symm.trans hb')
  -- What can be relied on and does not lie below the covered node can still be relied on.
  have hkept : ∀ {c}, g.Unspoilt c → (∀ {x}, x = c ∨ g.Above x c → x ≠ id) → g'.Unspoilt c := by
    intro c hc hpath
    refine hc.of_nodes fun {x m'} hm' => ?_
    obtain ⟨m, hm, rfl⟩ := hrewritten.exists_of_get? hm'
    refine ⟨m, hm, rfl, fun hx hsubsumed => ?_⟩
    simp only [Node.isSubsumed, Node.isCovered, Bool.or_eq_false_iff, Option.isSome_eq_false_iff,
      Option.isNone_iff_eq_none] at hsubsumed
    simp [Node.isSubsumed, Node.isCovered, coverNode, hpath hx, hsubsumed.1, hsubsumed.2]
  refine ⟨hg.wellFormed.cover h, fun {i n' c} hi hcov => ?_⟩
  obtain ⟨n, hn, rfl⟩ := hrewritten.exists_of_get? hi
  simp only [coverNode] at hcov
  split at hcov
  · rename_i hmoved
    obtain rfl := Option.some.inj hcov
    have hcoverer := hrewritten.get?_of_get? hb
    obtain rfl | hmoved := hmoved
    · obtain rfl := Option.some.inj (ha.symm.trans hn)
      exact ⟨hleaf, hopen, hkept hunspoilt hpath, _, hcoverer, hleq, htarget⟩
    · obtain ⟨hleaf', hopen', -, m, hm, hleq', htarget'⟩ := hg.covering hn hmoved
      obtain rfl := Option.some.inj (ha.symm.trans hm)
      exact ⟨hleaf', hopen', hkept hunspoilt hpath, _, hcoverer, htrans hleq' hleq,
        fun ht => htarget (htarget' ht)⟩
  · rename_i hstays
    obtain ⟨hleaf', hopen', hc, m, hm, hleq', htarget'⟩ := hg.covering hn hcov
    have hother : c ≠ id := fun heq => hstays (.inr (heq ▸ hcov))
    refine ⟨hleaf', hopen', hkept hc fun {x} hx => ?_, _, hrewritten.get?_of_get? hm, hleq', htarget'⟩
    obtain rfl | hup := hx
    · exact hother
    · rintro rfl
      obtain ⟨-, m', hm', hsuccs⟩ := hup.not_leaf hg.wellFormed
      obtain rfl := Option.some.inj (ha.symm.trans hm')
      exact hsuccs hleaf

theorem uncover (hg : g.Disciplined analysis) {u : Unit}
    (h : (Graph.uncover id).run g = .ok u g') : g'.Disciplined analysis := by
  obtain ⟨-, -, hrewritten⟩ := uncover_ok hg.wellFormed h
  refine ⟨hg.wellFormed.uncover h, fun {i n' c} hi hcov => ?_⟩
  obtain ⟨n, hn, rfl⟩ := hrewritten.exists_of_get? hi
  simp only [uncoverNode] at hcov
  split at hcov
  · simp at hcov
  · obtain ⟨hleaf, hopen, hc, m, hm, hleq, htarget⟩ := hg.covering hn hcov
    refine ⟨hleaf, hopen, hc.of_nodes fun {x m'} hm' => ?_, _, hrewritten.get?_of_get? hm, hleq,
      htarget⟩
    obtain ⟨k, hk, rfl⟩ := hrewritten.exists_of_get? hm'
    refine ⟨k, hk, rfl, fun _ hsubsumed => ?_⟩
    simp only [Node.isSubsumed, Node.isCovered, Bool.or_eq_false_iff, Option.isSome_eq_false_iff,
      Option.isNone_iff_eq_none] at hsubsumed
    simp [Node.isSubsumed, Node.isCovered, uncoverNode, hsubsumed.1, hsubsumed.2]

/-- Leaves are added below nodes that are not covered. -/
theorem of_addedLeaves {parent : Option NodeId} {new : List NodeId} (hg : g.Disciplined analysis)
    (hwf : g'.WellFormed) (hadded : AddedLeaves parent new g g')
    (hparent : ∀ {i n}, parent = some i → g.get? i = some n → n.covering = none) :
    g'.Disciplined analysis := by
  refine ⟨hwf, fun {i n' c} hi hcov => ?_⟩
  have hold : i ∉ new := fun hnew => by simp [(hadded.isOpen_of_mem hnew hi).2.1] at hcov
  obtain ⟨n, hn, hgrows, hsame, hlinks⟩ := hadded.exists_old hold hi
  rw [hsame] at hcov
  have hne : some i ≠ parent := fun heq => by simp [hparent heq.symm hn] at hcov
  obtain ⟨hsuccs, hexpanded⟩ := hlinks hne
  obtain ⟨hleaf, hopen, hc, m, hm, hleq, htarget⟩ := hg.covering hn hcov
  obtain ⟨m', hm', hgrows'⟩ := hadded.grows.node hm
  refine ⟨hsuccs.trans hleaf, hexpanded.trans hopen, hc.of_addedLeaves hg.wellFormed hm hadded, m',
    hm', by rwa [hgrows.state, hgrows'.state], fun ht => ?_⟩
  rw [hgrows'.isTarget]
  exact htarget (hgrows.isTarget ▸ ht)

theorem of_pruned {root : NodeId} {cut : List NodeId} (hg : g.Disciplined analysis)
    (h : Pruned root cut g g') : g'.Disciplined analysis := by
  refine ⟨h.wellFormed hg.wellFormed, fun {i n' c} hi hcov => ?_⟩
  obtain ⟨hcut, n, hn, rfl⟩ := h.exists_of_get? hi
  obtain ⟨hcov, hleft⟩ := (Pruned.covering_eq_some hcut).1 hcov
  obtain ⟨hleaf, hopen, hc, m, hm, hleq, htarget⟩ := hg.covering hn hcov
  refine ⟨by simp [prunedNode, hleaf], by simp [prunedNode, hopen], ?_, _, h.get?_of_get? hleft hm,
    hleq, htarget⟩
  refine hc.of_nodes fun {x m'} hm' => ?_
  obtain ⟨hxcut, k, hk, rfl⟩ := h.exists_of_get? hm'
  refine ⟨k, hk, rfl, fun _ hsubsumed => ?_⟩
  simp only [Node.isSubsumed, Node.isCovered, Bool.or_eq_false_iff, Option.isSome_eq_false_iff,
    Option.isNone_iff_eq_none] at hsubsumed
  simp [Node.isSubsumed, Node.isCovered, prunedNode, cutNode, hxcut, hsubsumed.1, hsubsumed.2]

end Disciplined

/-! ## What a caller can rely on -/

/-- A covered node is a leaf that was not expanded. Its coverer is uncovered and not excluded, subsumes
it, and is a target if the node is one. -/
def CoversReliably (analysis : Analysis S P K) (g : Graph S) : Prop :=
  ∀ {i n c}, g.get? i = some n → n.covering = some c →
    n.succs = [] ∧ n.isExpanded = false ∧ ∃ m, g.get? c = some m ∧ m.covering = none ∧
      g.isExcluded c = false ∧ analysis.isLeq n.state m.state = true ∧
        (n.isTarget = true → m.isTarget = true)

theorem Disciplined.coversReliably {analysis : Analysis S P K} (hg : g.Disciplined analysis) :
    g.CoversReliably analysis := by
  intro i n c hn hcovering
  obtain ⟨hleaf, hopen, hc, m, hm, hleq, htarget⟩ := hg.covering hn hcovering
  obtain ⟨-, m', hm', hfree, -⟩ := hg.wellFormed.covering_link hn hcovering
  obtain rfl := Option.some.inj (hm.symm.trans hm')
  exact ⟨hleaf, hopen, m, hm, hfree, hc.isExcluded, hleq, htarget⟩


/-- Infeasible nodes have no children. -/
def Barren (g : Graph S) : Prop := ∀ i n, g.get? i = some n → n.isFeasible = false → n.succs = []

theorem Barren.of_nodes (hg : g.Barren)
    (hnode : ∀ {i n'}, g'.get? i = some n' → ∃ n, g.get? i = some n ∧
      n'.isFeasible = n.isFeasible ∧ (n.succs = [] → n'.succs = [])) : g'.Barren := by
  intro i n' hn' hempty
  obtain ⟨n, hn, hsame, hleaf⟩ := hnode hn'
  exact hleaf (hg _ n hn (hsame ▸ hempty))

/-- A feasible node may get children. -/
theorem Barren.of_addedLeaves {parent : Option NodeId} {new : List NodeId} (hg : g.Barren)
    (hadded : AddedLeaves parent new g g')
    (hparent : ∀ {i n}, parent = some i → g.get? i = some n → n.isFeasible = true) : g'.Barren := by
  intro i n' hi hempty
  by_cases hnew : i ∈ new
  · exact (hadded.isOpen_of_mem hnew hi).1
  · obtain ⟨n, hn, hgrows, -, hlinks⟩ := hadded.exists_old hnew hi
    rw [hgrows.isFeasible] at hempty
    have hne : some i ≠ parent := fun heq => by simp [hparent heq.symm hn] at hempty
    exact (hlinks hne).1.trans (hg i n hn hempty)

/-- **A graph is safe if all its targets are infeasible.** A target that is excluded is infeasible
itself, or covered by a target, which is not excluded. -/
theorem Disciplined.isSafe_iff {analysis : Analysis S P K} (hg : g.Disciplined analysis)
    (hbarren : g.Barren) :
    g.isSafe = true ↔ ∀ {i n}, g.get? i = some n → n.isTarget = true → n.isFeasible = false := by
  have hexcluded : g.isSafe = true ↔
      ∀ {i n}, g.get? i = some n → n.isTarget = true → g.isExcluded i = true := by
    simp only [Graph.isSafe_iff, mem_unsafeNodes, not_exists, not_and, Bool.not_eq_false]
  rw [hexcluded]
  refine ⟨fun h i n hn htarget => ?_, fun h i n hn htarget => ?_⟩
  · obtain ⟨x, hx, hsubsumed⟩ := List.any_eq_true.1 (h hn htarget)
    obtain ⟨m, hm, hsubsumed⟩ := Option.any_eq_true _ _ |>.1 hsubsumed
    simp only [Node.isSubsumed, Node.isCovered, Bool.or_eq_true, Bool.not_eq_true',
      Option.isSome_iff_exists] at hsubsumed
    obtain rfl | hup := above_of_mem_ancestorsWithin hx
    · obtain rfl := Option.some.inj (hn.symm.trans hm)
      obtain ⟨c, hcovering⟩ | hempty := hsubsumed
      · obtain ⟨-, -, hc, m, hm, -, htarget'⟩ := hg.covering hn hcovering
        simpa [hc.isExcluded] using h hm (htarget' htarget)
      · exact hempty
    · obtain ⟨-, m', hm', hsuccs⟩ := hup.not_leaf hg.wellFormed
      obtain rfl := Option.some.inj (hm.symm.trans hm')
      obtain ⟨c, hcovering⟩ | hempty := hsubsumed
      · exact absurd (hg.covering hm hcovering).1 hsuccs
      · exact absurd (hbarren _ m hm hempty) hsuccs
  · refine List.any_eq_true.2 ⟨i, g.mem_ancestorsWithin_self i i, ?_⟩
    simp [test, hn, Node.isSubsumed, h hn htarget]

end GuidedReach.Graph
