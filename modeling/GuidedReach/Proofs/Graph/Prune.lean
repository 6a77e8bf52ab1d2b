import GuidedReach.Proofs.Graph.WellFormed

/-!
# Removing subtrees

Pruning takes away a node with everything below it and every covering edge that touches what is
taken away; the rest stays as it is.

* `Graph.Subtree` — the sets of nodes that are closed under children and hang on one node.
* `Graph.subtree_descendants` — the descendants of a node are such a set.
* `Graph.prune_ok` — the graph after pruning, node by node.
* `Graph.Pruned.wellFormed` — its links agree.
* `Graph.Remains` — a graph that has lost nodes or covering edges.
-/

namespace GuidedReach.Graph

variable {S : Type} {g g' : Graph S}

/-! ## Subtrees -/

/-- A list holds a node, with every node also its children, and nothing that hangs on other nodes. -/
structure Subtree (g : Graph S) (root : NodeId) (l : List NodeId) : Prop where
  root_mem : root ∈ l
  child_mem : ∀ {p m c}, p ∈ l → g.get? p = some m → c ∈ m.succs → c ∈ l
  parent_mem : ∀ {c}, c ∈ l → c ≠ root → ∃ p m, p ∈ l ∧ g.get? p = some m ∧ c ∈ m.succs

theorem mem_descendantsWithin_succ {levels : Nat} {id x : NodeId} :
    x ∈ g.descendantsWithin (levels + 1) id ↔
      x = id ∨ ∃ m c, g.get? id = some m ∧ c ∈ m.succs ∧ x ∈ g.descendantsWithin levels c := by
  simp only [descendantsWithin, List.mem_cons, List.mem_flatMap]
  cases g.get? id <;> simp

theorem child_mem_descendantsWithin (hwf : g.WellFormed) {levels : Nat} {id x c : NodeId}
    {m : Node S} (hlevels : g.nodes.slotCount ≤ levels + id) (hx : x ∈ g.descendantsWithin levels id)
    (hm : g.get? x = some m) (hc : c ∈ m.succs) : c ∈ g.descendantsWithin levels id := by
  induction levels generalizing id with
  | zero => simp [descendantsWithin] at hx
  | succ levels ih =>
    rw [mem_descendantsWithin_succ] at hx ⊢
    obtain rfl | ⟨a, b, ha, hb, hx⟩ := hx
    · refine .inr ⟨m, c, hm, hc, ?_⟩
      obtain ⟨hlt, n, hn, -⟩ := hwf.lt_child hm hc
      have hbound := lt_slotCount hn
      -- the child is in the graph, so a level is left for it
      cases levels with
      | zero => lia
      | succ levels => exact mem_descendantsWithin_succ.2 (.inl rfl)
    · have hlt := (hwf.lt_child ha hb).1
      exact .inr ⟨a, b, ha, hb, ih (by lia) hx⟩

theorem parent_mem_descendantsWithin {levels : Nat} {id x : NodeId}
    (hx : x ∈ g.descendantsWithin levels id) (hne : x ≠ id) :
    ∃ p m, p ∈ g.descendantsWithin levels id ∧ g.get? p = some m ∧ x ∈ m.succs := by
  induction levels generalizing id with
  | zero => simp [descendantsWithin] at hx
  | succ levels ih =>
    obtain rfl | ⟨m, c, hm, hc, hx⟩ := mem_descendantsWithin_succ.1 hx
    · exact absurd rfl hne
    · rcases eq_or_ne x c with rfl | hxc
      · exact ⟨id, m, mem_descendantsWithin_succ.2 (.inl rfl), hm, hc⟩
      · obtain ⟨p, k, hp, hk, hxk⟩ := ih hx hxc
        exact ⟨p, k, mem_descendantsWithin_succ.2 (.inr ⟨m, c, hm, hc, hp⟩), hk, hxk⟩

theorem subtree_descendants (hwf : g.WellFormed) {id : NodeId} {n : Node S}
    (hn : g.get? id = some n) : Subtree g id (g.descendants id) where
  root_mem := by
    have := lt_slotCount hn
    unfold descendants
    cases hcount : g.nodes.slotCount with
    | zero => lia
    | succ levels => exact mem_descendantsWithin_succ.2 (.inl rfl)
  child_mem := child_mem_descendantsWithin hwf (Nat.le_add_right _ _)
  parent_mem := parent_mem_descendantsWithin

/-! ## Cutting covering edges -/

/-- A node after the covering edges that touch a list of nodes were removed. -/
def cutNode (l : List NodeId) (i : NodeId) (n : Node S) : Node S :=
  { n with
    covering := if i ∈ l then none else n.covering.filter (· ∉ l)
    covered := if i ∈ l then [] else n.covered.filter (· ∉ l) }

theorem cutNode_cons (x : NodeId) (l : List NodeId) (i : NodeId) (n : Node S) :
    cutNode l i (clearNode x i (uncoverNode x i n)) = cutNode (x :: l) i n := by
  by_cases hl : i ∈ l
  · simp [cutNode, clearNode, uncoverNode, hl]
  by_cases hx : i = x
  · subst hx
    simp [cutNode, clearNode, uncoverNode, hl]
  · have hfilter : n.covered.filter (fun a => !decide (a ∈ l) && a != x) =
        n.covered.filter fun a => !decide (a = x) && !decide (a ∈ l) := by
      congr 1
      funext a
      by_cases ha : a = x <;> simp [ha]
    cases hcov : n.covering with
    | none => simp [cutNode, clearNode, uncoverNode, hl, hx, hcov, hfilter]
    | some c =>
      by_cases hc : c = x <;> by_cases hcl : c ∈ l <;>
        simp [cutNode, clearNode, uncoverNode, hl, hx, hcov, hc, hcl, Option.filter, hfilter]

theorem cut_ok {l : List NodeId} {u : Unit} (hwf : g.WellFormed)
    (h : (l.forM fun n => do uncover n; clearCovered n).run g = .ok u g') :
    g'.WellFormed ∧ Rewritten (cutNode l) g g' := by
  induction l generalizing g with
  | nil =>
    obtain ⟨-, rfl⟩ := Edit.run_pure_ok.1 h
    exact ⟨hwf, (Rewritten.refl g).congr fun i n _ => by
      rcases n with ⟨_, _, _, _, _, _, _ | c, _, _⟩ <;> simp [cutNode, Option.filter]⟩
  | cons x l ih =>
    obtain ⟨t, ht, h⟩ := Edit.run_forM_cons_ok.1 h
    obtain ⟨_, s, hs, ht⟩ := Edit.run_bind_ok.1 ht
    obtain ⟨-, -, huncover⟩ := uncover_ok hwf hs
    have hwfs := hwf.uncover hs
    obtain ⟨-, -, hclear⟩ := clearCovered_ok hwfs ht
    obtain ⟨hwf', hrest⟩ := ih (hwfs.clearCovered ht) h
    exact ⟨hwf', ((huncover.trans hclear).trans hrest).congr fun i n _ => cutNode_cons x l i n⟩

/-! ## Pruning -/

/-- A node outside `cut` after the subtree `cut` at `root` was removed. -/
def prunedNode (root : NodeId) (cut : List NodeId) (i : NodeId) (n : Node S) : Node S :=
  { cutNode cut i n with
    succs := n.succs.filter (· != root)
    isExpanded := n.isExpanded && !n.succs.contains root }

theorem get?_foldl_erase (m : NodeMap (Node S)) (l : List NodeId) (i : NodeId) :
    (l.foldl NodeMap.erase m).get? i = if i ∈ l then none else m.get? i := by
  induction l generalizing m with
  | nil => simp
  | cons x l ih =>
    rw [List.foldl_cons, ih, NodeMap.get?_erase]
    by_cases hx : i = x <;> by_cases hl : i ∈ l <;> simp [hx, hl]

/-- The second graph is what is left of the first without the subtree `cut` at `root`. -/
structure Pruned (root : NodeId) (cut : List NodeId) (g g' : Graph S) : Prop where
  subtree : Subtree g root cut
  get? : ∀ i, g'.get? i = if i ∈ cut then none else (g.get? i).map (prunedNode root cut i)
  initNodes : g'.initNodes = g.initNodes.filter (· != root)
  /-- Only a graph that kept all its init nodes is still initialized. -/
  isInitialized : g'.isInitialized = (g.isInitialized && !g.initNodes.contains root)

theorem filter_bne_of_notMem {id : NodeId} {l : List NodeId} (h : id ∉ l) :
    l.filter (· != id) = l := by
  refine List.filter_eq_self.2 fun x hx => ?_
  rw [bne_iff_ne]
  rintro rfl
  exact h hx

theorem detach_ok (hwf : g.WellFormed) {id : NodeId} {u : Unit}
    (h : (detach id).run g = .ok u g') :
    ∃ n, g.get? id = some n ∧
      (∀ i, g'.get? i = (g.get? i).map fun m =>
        { m with
          succs := m.succs.filter (· != id)
          isExpanded := m.isExpanded && !m.succs.contains id }) ∧
      g'.initNodes = g.initNodes.filter (· != id) ∧
      g'.isInitialized = (g.isInitialized && !g.initNodes.contains id) := by
  simp only [detach, Edit.run_bind_ok, run_readNode_ok] at h
  obtain ⟨n, _, ⟨hn, rfl⟩, h⟩ := h
  have hlisted : ∀ {i m}, g.get? i = some m → (id ∈ m.succs ↔ n.parent = some i) :=
    fun hi => hwf.mem_succs_iff hi hn
  refine ⟨n, hn, ?_⟩
  split at h
  · rename_i parent hparent
    obtain ⟨-, hrewritten⟩ := rewritten_of_updateNode h
    have hunlisted : id ∉ g.initNodes := by simp [hwf.mem_initNodes_iff hn, hparent]
    refine ⟨fun i => ?_, ?_, by simp [hrewritten.isInitialized, hunlisted]⟩
    · rw [hrewritten.get?]
      cases hi : g.get? i with
      | none => rfl
      | some m =>
        rcases eq_or_ne i parent with rfl | hne
        · simp [(hlisted hi).2 hparent]
        · have hmem : id ∉ m.succs := by simpa [hlisted hi, hparent] using hne.symm
          simp [hne, filter_bne_of_notMem hmem, hmem]
    · rw [hrewritten.initNodes, filter_bne_of_notMem hunlisted]
  · rename_i hnone
    obtain rfl := Edit.run_modify_ok.1 h
    refine ⟨fun i => ?_, rfl, by simp [(hwf.mem_initNodes_iff hn).2 hnone]⟩
    change g.get? i = _
    cases hi : g.get? i with
    | none => rfl
    | some m =>
      have hmem : id ∉ m.succs := by simp [hlisted hi, hnone]
      simp [filter_bne_of_notMem hmem, hmem]

/-- **What is left after pruning**, node by node: all but the descendants. -/
theorem prune_ok (hwf : g.WellFormed) {id : NodeId} {u : Unit} (h : (prune id).run g = .ok u g') :
    Pruned id (g.descendants id) g g' := by
  simp only [prune, Edit.run_bind_ok, run_readNode_ok, Edit.run_get_ok] at h
  obtain ⟨n, _, ⟨hn, rfl⟩, _, _, ⟨rfl, rfl⟩, _, t, hcut, _, s, hdetach, h⟩ := h
  obtain rfl := Edit.run_modify_ok.1 h
  obtain ⟨hwft, hrewritten⟩ := cut_ok hwf hcut
  obtain ⟨-, -, hget, hinit, hinitialized⟩ := detach_ok hwft hdetach
  refine ⟨subtree_descendants hwf hn, fun i => ?_, ?_, ?_⟩
  · change NodeMap.get? _ i = _
    rw [get?_foldl_erase]
    split
    · rfl
    · change s.get? i = _
      rw [hget, hrewritten.get?, Option.map_map]
      rfl
  · exact hinit.trans (by rw [hrewritten.initNodes])
  · exact hinitialized.trans (by rw [hrewritten.isInitialized, hrewritten.initNodes])

namespace Pruned

variable {root : NodeId} {cut : List NodeId}

/-- A node that is left comes from a node outside the subtree. -/
theorem exists_of_get? (h : Pruned root cut g g') {i : NodeId} {n' : Node S}
    (hi : g'.get? i = some n') :
    i ∉ cut ∧ ∃ n, g.get? i = some n ∧ n' = prunedNode root cut i n := by
  rw [h.get?] at hi
  split at hi
  · simp at hi
  · obtain ⟨n, hn, rfl⟩ := Option.map_eq_some_iff.1 hi
    exact ⟨by assumption, n, hn, rfl⟩

theorem get?_of_get? (h : Pruned root cut g g') {i : NodeId} {n : Node S} (hcut : i ∉ cut)
    (hi : g.get? i = some n) : g'.get? i = some (prunedNode root cut i n) := by
  rw [h.get?, if_neg hcut, hi]
  rfl

/-- A covering edge that is left was there before, and its coverer is left as well. -/
theorem covering_eq_some {i c : NodeId} {n : Node S} (hcut : i ∉ cut) :
    (prunedNode root cut i n).covering = some c ↔ n.covering = some c ∧ c ∉ cut := by
  simp [prunedNode, cutNode, hcut, Option.filter_eq_some_iff]

/-- A node with a parent outside the subtree is outside itself, unless it is the root. -/
theorem notMem_of_parent (h : Pruned root cut g g') (hwf : g.WellFormed) {p c : NodeId}
    {m : Node S} (hp : g.get? p = some m) (hc : c ∈ m.succs) (hcut : p ∉ cut) (hne : c ≠ root) :
    c ∉ cut := by
  intro hmem
  obtain ⟨q, k, hq, hk, hck⟩ := h.subtree.parent_mem hmem hne
  obtain ⟨n, hn, hparent⟩ := hwf.succ_link hp hc
  obtain rfl := Option.some.inj (hparent.symm.trans ((hwf.mem_succs_iff hk hn).1 hck))
  exact hcut hq

/-- An init node other than the root is outside the subtree. -/
theorem notMem_of_init (h : Pruned root cut g g') (hwf : g.WellFormed) {i : NodeId}
    (hi : i ∈ g.initNodes) (hne : i ≠ root) : i ∉ cut := by
  intro hcut
  obtain ⟨n, hn, hparent⟩ := hwf.init_parentless hi
  obtain ⟨p, m, -, hm, hmem⟩ := h.subtree.parent_mem hcut hne
  simp [(hwf.mem_succs_iff hm hn).1 hmem] at hparent

theorem wellFormed (h : Pruned root cut g g') (hwf : g.WellFormed) : g'.WellFormed := by
  have hne : ∀ {i}, i ∉ cut → i ≠ root := by
    rintro i hi rfl
    exact hi h.subtree.root_mem
  constructor
  · intro c n p hc hp
    obtain ⟨hcut, n, hn, rfl⟩ := h.exists_of_get? hc
    obtain ⟨hlt, m, hm, hdepth, hcount⟩ := hwf.parent_link hn hp
    have hpcut : p ∉ cut := fun hpcut =>
      hcut (h.subtree.child_mem hpcut hm ((hwf.mem_succs_iff hm hn).2 hp))
    refine ⟨hlt, _, h.get?_of_get? hpcut hm, hdepth, ?_⟩
    rw [← hcount]
    exact List.count_filter (by simpa using hne hcut)
  · intro p m c hp hc
    obtain ⟨hcut, m, hm, rfl⟩ := h.exists_of_get? hp
    obtain ⟨hc, hroot⟩ := List.mem_filter.1 hc
    obtain ⟨n, hn, hparent⟩ := hwf.succ_link hm hc
    exact ⟨_, h.get?_of_get? (h.notMem_of_parent hwf hm hc hcut (by simpa using hroot)) hn, hparent⟩
  · intro i n hi hparent
    obtain ⟨hcut, n, hn, rfl⟩ := h.exists_of_get? hi
    obtain ⟨hcount, hdepth⟩ := hwf.init_link hn hparent
    exact ⟨by rw [h.initNodes, List.count_filter (by simpa using hne hcut), hcount], hdepth⟩
  · intro i hi
    rw [h.initNodes] at hi
    obtain ⟨hi, hroot⟩ := List.mem_filter.1 hi
    obtain ⟨n, hn, hparent⟩ := hwf.init_parentless hi
    exact ⟨_, h.get?_of_get? (h.notMem_of_init hwf hi (by simpa using hroot)) hn, hparent⟩
  · intro n a c hn hcov
    obtain ⟨hcut, a, ha, rfl⟩ := h.exists_of_get? hn
    obtain ⟨hcov, hccut⟩ := (covering_eq_some hcut).1 hcov
    obtain ⟨hself, b, hb, hnone, hcount⟩ := hwf.covering_link ha hcov
    refine ⟨hself, _, h.get?_of_get? hccut hb, by simp [prunedNode, cutNode, hnone], ?_⟩
    simp only [prunedNode, cutNode, if_neg hccut, ← hcount]
    exact List.count_filter (by simpa using hcut)
  · intro c b n hc hmem
    obtain ⟨hcut, b, hb, rfl⟩ := h.exists_of_get? hc
    simp only [prunedNode, cutNode, if_neg hcut, List.mem_filter, decide_eq_true_eq] at hmem
    obtain ⟨a, ha, hcov⟩ := hwf.covered_link hb hmem.1
    exact ⟨_, h.get?_of_get? hmem.2 ha, (covering_eq_some hmem.2).2 ⟨hcov, hcut⟩⟩

end Pruned

/-! ## What is left of a graph -/

/-- Every node of the second graph is one of the first, with the same parent and no new links. -/
structure Remains (g g' : Graph S) : Prop where
  node : ∀ {i n'}, g'.get? i = some n' → ∃ n, g.get? i = some n ∧ n'.state = n.state ∧
    n'.parent = n.parent ∧ (n.succs = [] → n'.succs = []) ∧
    ∀ c, n'.covering = some c → n.covering = some c

namespace Remains

variable {g'' : Graph S}

theorem refl (g : Graph S) : g.Remains g :=
  ⟨fun hi => ⟨_, hi, rfl, rfl, id, fun _ => id⟩⟩

theorem size_le (h : g.Remains g') : g'.size ≤ g.size :=
  g.length_le_size g'.ids_nodup fun _ hi => by
    obtain ⟨n', hn'⟩ := mem_ids.1 hi
    exact (h.node hn').imp fun _ h => h.1

theorem trans (h : g.Remains g') (h' : g'.Remains g'') : g.Remains g'' where
  node hi := by
    obtain ⟨n', hn', hstate', hparent', hleaf', hcov'⟩ := h'.node hi
    obtain ⟨n, hn, hstate, hparent, hleaf, hcov⟩ := h.node hn'
    exact ⟨n, hn, hstate'.trans hstate, hparent'.trans hparent, fun hnil => hleaf' (hleaf hnil),
      fun c hc => hcov c (hcov' c hc)⟩

theorem of_pruned {root : NodeId} {cut : List NodeId} (h : Pruned root cut g g') :
    g.Remains g' where
  node hi := by
    obtain ⟨hcut, n, hn, rfl⟩ := h.exists_of_get? hi
    exact ⟨n, hn, rfl, rfl, fun hnil => by simp [prunedNode, hnil],
      fun c hc => ((Pruned.covering_eq_some hcut).1 hc).1⟩

/-- An uncovered node was uncovered before or has lost its covering edge. -/
theorem of_uncover {id : NodeId} (h : Rewritten (uncoverNode id) g g') : g.Remains g' where
  node hi := by
    obtain ⟨n, hn, rfl⟩ := h.exists_of_get? hi
    refine ⟨n, hn, rfl, rfl, fun hnil => hnil, fun c hc => ?_⟩
    simp only [uncoverNode] at hc
    split at hc
    · simp at hc
    · exact hc

end Remains

end GuidedReach.Graph
