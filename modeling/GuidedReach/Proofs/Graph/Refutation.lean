import GuidedReach.Proofs.Graph.Ancestors

/-!
# Regions without targets

A state is *dead* when no target can be reached from what it stands for. A region of a faithful
graph that holds no targets and that no edge leaves, except at dead states, is dead as a whole.

* `Analysis.Refutes` — what a notion of dead states has to satisfy.
* `Graph.Faithful.dead_of_region` — all states of a closed region are dead.
* `Graph.Faithful.not_isTarget_of_isSafe` — what it means that a graph is safe.
-/

namespace GuidedReach

variable {S P K : Type}

/-- A notion of states from which no target can be reached. -/
structure Analysis.Refutes (analysis : Analysis S P K) (allowed : P → Prop) (dead : S → Prop) :
    Prop where
  of_isLeq : ∀ {a b}, analysis.isLeq a b = true → dead b → dead a
  of_isBottom : ∀ {a}, analysis.isBottom a = true → dead a
  not_isTarget : ∀ {a}, dead a → analysis.isTarget a = false
  /-- States are dead that are no targets and, unless they are known to be dead, are subsumed by a
  state whose successors are of the same sort. -/
  of_closed : ∀ {region : S → Prop},
    (∀ a, region a → analysis.isTarget a = false ∧ (dead a ∨ ∃ b, analysis.isLeq a b = true ∧
      ∃ prec, allowed prec ∧ ∀ c ∈ analysis.succStates b prec, region c)) →
    ∀ a, region a → dead a

namespace Graph.Faithful

variable {analysis : Analysis S P K} {allowed : P → Prop} {dead : S → Prop} {g : Graph S}

/-- **A region without targets that no edge leaves is dead.** Covering edges lead to nodes that are
not covered themselves, so following one never goes on for ever. -/
theorem dead_of_region (hg : g.Faithful analysis allowed) (hlaws : analysis.Lawful)
    (hrefutes : analysis.Refutes allowed dead) (region : NodeId → Prop)
    (hregion : ∀ {i n}, region i → g.get? i = some n → n.isTarget = false ∧
      (dead n.state ∨ (∃ c, n.covering = some c ∧ region c) ∨
        n.covering = none ∧ (n.isFeasible = false ∨
          n.isExpanded = true ∧ ∀ c ∈ n.succs, region c)))
    {i : NodeId} {n : Node S} (hi : region i) (hn : g.get? i = some n) : dead n.state := by
  -- what is left below an uncovered node of the region
  have hopen : ∀ {i n}, region i → g.get? i = some n → n.covering = none →
      dead n.state ∨ ∃ prec, allowed prec ∧ ∀ s ∈ analysis.succStates n.state prec,
        ∃ i n, region i ∧ g.get? i = some n ∧ n.state = s := by
    intro i n hi hn hfree
    obtain ⟨-, hdead | ⟨c, hc, -⟩ | ⟨-, hempty | ⟨hexp, hall⟩⟩⟩ := hregion hi hn
    · exact .inl hdead
    · simp [hfree] at hc
    · exact .inl (hrefutes.of_isBottom (by simpa [hg.isFeasible hn] using hempty))
    · obtain ⟨prec, hprec, hsuccs⟩ := hg.expanded hn hexp
      refine .inr ⟨prec, hprec, fun s hs => ?_⟩
      obtain ⟨c, m, hc, hm, rfl⟩ := mem_statesOf.1 (hsuccs s hs)
      exact ⟨c, m, hall c hc, hm, rfl⟩
  let presented : S → Prop := fun s => ∃ i n, region i ∧ g.get? i = some n ∧ n.state = s
  have hpresented : presented n.state := ⟨i, n, hi, hn, rfl⟩
  refine hrefutes.of_closed ?_ n.state hpresented
  rintro _ ⟨i, n, hi, hn, rfl⟩
  obtain ⟨htarget, hdead | ⟨c, hc, hcregion⟩ | ⟨hfree, -⟩⟩ := hregion hi hn
  · exact ⟨hg.isTarget hn ▸ htarget, .inl hdead⟩
  · refine ⟨hg.isTarget hn ▸ htarget, ?_⟩
    obtain ⟨-, -, m, hm, hleq⟩ := hg.covering hn hc
    obtain ⟨-, m', hm', hfree, -⟩ := hg.wellFormed.covering_link hn hc
    obtain rfl := Option.some.inj (hm.symm.trans hm')
    obtain hdead | hsuccs := hopen hcregion hm hfree
    · exact .inl (hrefutes.of_isLeq hleq hdead)
    · exact .inr ⟨m.state, hleq, hsuccs⟩
  · refine ⟨hg.isTarget hn ▸ htarget, ?_⟩
    obtain hdead | hsuccs := hopen hi hn hfree
    · exact .inl hdead
    · exact .inr ⟨n.state, hlaws.isLeq_refl _, hsuccs⟩

end Graph.Faithful

/-! ## Safe graphs -/

namespace Graph

variable {g : Graph S}

namespace Faithful

variable {analysis : Analysis S P K} {allowed : P → Prop}

/-- A node is only excluded by itself, since what is covered or infeasible has no children. -/
theorem isSubsumed_of_isExcluded (hg : g.Faithful analysis allowed) {i : NodeId} {n : Node S}
    (hn : g.get? i = some n) (h : g.isExcluded i = true) : n.isSubsumed = true := by
  obtain ⟨x, hx, htest⟩ := List.any_eq_true.1 h
  obtain ⟨m, hm, hsubsumed⟩ := Option.any_eq_true _ _ |>.1 htest
  obtain rfl | habove := above_of_mem_ancestorsWithin hx
  · exact Option.some.inj (hn.symm.trans hm) ▸ hsubsumed
  · obtain ⟨-, m', hm', hsuccs⟩ := habove.not_leaf hg.wellFormed
    obtain rfl := Option.some.inj (hm.symm.trans hm')
    simp [hg.not_isSubsumed hm hsuccs] at hsubsumed

/-- An uncovered target is open. -/
theorem mem_unsafeNodes (hg : g.Faithful analysis allowed) (hlaws : analysis.Lawful) {i : NodeId}
    {n : Node S} (hn : g.get? i = some n) (htarget : n.isTarget = true) (hfree : n.covering = none) :
    i ∈ g.unsafeNodes := by
  refine Graph.mem_unsafeNodes.2 ⟨n, hn, htarget, Bool.eq_false_iff.2 fun hexcluded => ?_⟩
  have := hg.isSubsumed_of_isExcluded hn hexcluded
  simp [Node.isSubsumed, Node.isCovered, hfree, hg.isFeasible_of_isTarget hlaws hn htarget] at this

/-- **A safe graph has no targets**: one that is covered would be covered by one that is not. -/
theorem not_isTarget_of_isSafe (hg : g.Faithful analysis allowed) (hlaws : analysis.Lawful)
    (hsafe : g.isSafe = true) {i : NodeId} {n : Node S} (hn : g.get? i = some n) :
    n.isTarget = false := by
  have huncovered : ∀ {i n}, g.get? i = some n → n.covering = none → n.isTarget = false := by
    intro i n hn hfree
    exact Bool.eq_false_iff.2 fun htarget =>
      isSafe_iff.1 hsafe i (hg.mem_unsafeNodes hlaws hn htarget hfree)
  cases hcov : n.covering with
  | none => exact huncovered hn hcov
  | some c =>
    obtain ⟨-, m, hm, hfree, -⟩ := hg.wellFormed.covering_link hn hcov
    obtain ⟨-, -, m', hm', hleq⟩ := hg.covering hn hcov
    obtain rfl := Option.some.inj (hm.symm.trans hm')
    by_contra htarget
    have habove := hlaws.isTarget_mono hleq (by rw [← hg.isTarget hn]; simpa using htarget)
    rw [← hg.isTarget hm, huncovered hm hfree] at habove
    simp at habove

end Faithful

end Graph

end GuidedReach
