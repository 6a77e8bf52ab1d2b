import GuidedReach.Proofs.Graph.Growth

/-!
# Ancestors

Numbers decrease on the way up the tree, so a node has only so many ancestors. None of them is
covered or infeasible, since such nodes have no children.

* `Graph.Above` — the proper ancestors of a node.
* `Graph.above_of_mem_ancestorsWithin` — all that is met on the way up.
* `Graph.Faithful.mayCover_of_above` — an ancestor with the same state may cover a node.
* `Graph.Faithful.mayCover_of_isExpanded` — an expanded node may cover what it subsumes.
-/

namespace GuidedReach.Graph

variable {S P K : Type} {g g' : Graph S} {a c x : NodeId} {n : Node S}

/-- The first node is the tree parent of the second one. -/
def IsParent (g : Graph S) (parent child : NodeId) : Prop :=
  ∃ n, g.get? child = some n ∧ n.parent = some parent

/-- The first node is a proper tree ancestor of the second one. -/
def Above (g : Graph S) : NodeId → NodeId → Prop := Relation.TransGen g.IsParent

theorem above_of_mem_ancestorsWithin {steps : Nat} (h : x ∈ g.ancestorsWithin steps c) :
    x = c ∨ g.Above x c := by
  induction steps generalizing c with
  | zero => exact .inl (by simpa [ancestorsWithin] using h)
  | succ steps ih =>
    unfold ancestorsWithin at h
    split at h
    · rename_i parent hbind
      obtain ⟨n, hn, hparent⟩ := Option.bind_eq_some_iff.1 hbind
      rcases List.mem_cons.1 h with rfl | hmem
      · exact .inl rfl
      · refine .inr ?_
        rcases ih hmem with rfl | habove
        · exact .single ⟨n, hn, hparent⟩
        · exact habove.tail ⟨n, hn, hparent⟩
    · exact .inl (by simpa using h)

/-- An ancestor is an older node, and not a leaf. -/
theorem Above.not_leaf (h : g.Above a c) (hwf : g.WellFormed) :
    a < c ∧ ∃ m, g.get? a = some m ∧ m.succs ≠ [] := by
  induction h with
  | single hparent =>
    obtain ⟨n, hn, hp⟩ := hparent
    obtain ⟨m, hm, hmem⟩ := hwf.exists_parent hn hp
    exact ⟨(hwf.parent_link hn hp).1, m, hm, List.ne_nil_of_mem hmem⟩
  | tail _ hparent ih =>
    obtain ⟨n, hn, hp⟩ := hparent
    exact ⟨Nat.lt_trans ih.1 (hwf.parent_link hn hp).1, ih.2⟩

/-- Growth adds no ancestors to a node that was there. -/
theorem Grows.above (h : g.Grows g') (hwf : g.WellFormed) (habove : g'.Above a c)
    (hn : g.get? c = some n) : g.Above a c := by
  have hold : ∀ {p c n}, g'.IsParent p c → g.get? c = some n → g.IsParent p c := by
    rintro p c n ⟨n', hn', hparent⟩ hn
    obtain ⟨n'', hn'', hgrows⟩ := h.node hn
    obtain rfl := Option.some.inj (hn'.symm.trans hn'')
    exact ⟨n, hn, hgrows.parent.symm.trans hparent⟩
  induction habove generalizing n with
  | single hparent => exact .single (hold hparent hn)
  | tail _ hparent ih =>
    obtain ⟨m, hm, hp⟩ := hold hparent hn
    obtain ⟨b, hb, -⟩ := hwf.exists_parent hm hp
    exact (ih hb).tail ⟨m, hm, hp⟩

/-- A node may cover another one that it subsumes, if neither the other one nor a covered or infeasible
node is on the way up. -/
theorem mayCover_of_ancestors {analysis : Analysis S P K} {m : Node S} (hn : g.get? c = some n)
    (hm : g.get? a = some m) (hne : c ≠ a) (hleq : analysis.isLeq n.state m.state = true)
    (hpath : ∀ x ∈ g.ancestors a, x ≠ c ∧ g.test Node.isSubsumed x = false) :
    g.mayCover analysis c a = .ok true := by
  unfold mayCover
  rw [if_neg (by simpa using hne), node_eq_ok.2 hn, node_eq_ok.2 hm]
  show Except.ok _ = _
  rw [Except.ok.injEq, Bool.and_eq_true, List.all_eq_true]
  refine ⟨hleq, fun x hx => ?_⟩
  obtain ⟨hne', htest⟩ := hpath x hx
  simp [hne', htest]

/-- **An ancestor with the same state may cover a node**: on the way up there is no node that is
covered or infeasible, since such nodes have no children. -/
theorem Faithful.mayCover_of_above {analysis : Analysis S P K} {allowed : P → Prop}
    (hg : g.Faithful analysis allowed) (hlaws : analysis.Lawful) (habove : g.Above a c) {m : Node S}
    (hm : g.get? a = some m) (hn : g.get? c = some n) (hstate : m.state = n.state) :
    g.mayCover analysis c a = .ok true := by
  obtain ⟨hlt, -⟩ := habove.not_leaf hg.wellFormed
  refine mayCover_of_ancestors hn hm (Nat.ne_of_lt hlt).symm ?_ fun x hx => ?_
  · rw [hstate]
    exact hlaws.isLeq_refl n.state
  · have hx' : g.Above x c := by
      rcases above_of_mem_ancestorsWithin hx with rfl | hx
      · exact habove
      · exact hx.trans habove
    obtain ⟨hlt', b, hb, hsuccs⟩ := hx'.not_leaf hg.wellFormed
    exact ⟨Nat.ne_of_lt hlt', by simp [test, hb, hg.not_isSubsumed hb hsuccs]⟩

/-- **An expanded node may cover an open leaf** that it subsumes. -/
theorem Faithful.mayCover_of_isExpanded {analysis other : Analysis S P K} {allowed : P → Prop}
    (hg : g.Faithful other allowed) {m : Node S} (hm : g.get? a = some m)
    (hexpanded : m.isExpanded = true) (hn : g.get? c = some n) (hopen : n.isExpanded = false)
    (hleaf : n.succs = []) (hleq : analysis.isLeq n.state m.state = true) :
    g.mayCover analysis c a = .ok true := by
  have hne : a ≠ c := by
    rintro rfl
    obtain rfl := Option.some.inj (hm.symm.trans hn)
    simp [hexpanded] at hopen
  refine mayCover_of_ancestors hn hm hne.symm hleq fun x hx => ?_
  rcases above_of_mem_ancestorsWithin hx with rfl | habove
  · refine ⟨hne, ?_⟩
    have hfree : m.covering = none := by
      cases hcovering : m.covering with
      | none => rfl
      | some c => simp [(hg.covering hm hcovering).2.1] at hexpanded
    have hfeasible : m.isFeasible = true := by
      by_contra hempty
      simp [(hg.infeasible_leaf hm (by simpa using hempty)).2] at hexpanded
    simp [test, hm, Node.isSubsumed, Node.isCovered, hfree, hfeasible]
  · obtain ⟨-, b, hb, hsuccs⟩ := habove.not_leaf hg.wellFormed
    refine ⟨?_, by simp [test, hb, hg.not_isSubsumed hb hsuccs]⟩
    rintro rfl
    obtain rfl := Option.some.inj (hn.symm.trans hb)
    exact hsuccs hleaf

end GuidedReach.Graph
