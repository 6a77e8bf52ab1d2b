import GuidedReach.Proofs.Graph.Operations

/-!
# When a call is refused

A call of a function that changes a graph either ends in a result or is refused. Every check comes
before the first write, so a refused call changes nothing; growing a node by an analysis creates its
children one by one, but the only check that can fail fails for the first of them or not at all.

* `Graph.RefusedWhen` — a change fails exactly under a condition, and then leaves the graph alone.
* `Graph.addSuccStates_covered` — a covered node gets no children, and can do without them only if
  they are all there.
* `Graph.Refusals`, `Graph.refusals_after` — when each call is refused, in every graph that calls lead
  to.
-/

namespace GuidedReach.Graph

variable {S P K α : Type} {g g' : Graph S} {id : NodeId} {n : Node S}

/-! ## Refusals -/

/-- The change fails exactly when the condition holds, and leaves the graph as it was if it fails. -/
structure RefusedWhen (x : Edit (Graph S) α) (g : Graph S) (condition : Prop) : Prop where
  fails_iff : (∃ fault g', x.run g = .error fault g') ↔ condition
  unchanged : ∀ {fault g'}, x.run g = .error fault g' → g' = g

section RefusedWhen

variable {x : Edit (Graph S) α} {condition : Prop}

theorem refusedWhen_of_atomic (hatomic : Atomic x g)
    (hok : (∃ a g', x.run g = .ok a g') ↔ ¬ condition) : RefusedWhen x g condition where
  fails_iff := by
    rw [← not_iff_not, ← hok]
    cases x.run g <;> simp
  unchanged {fault g'} h := by
    obtain ⟨a, t, hrun⟩ | hleft := hatomic
    · simp [hrun] at h
    · rwa [leftBy_of_error h] at hleft

theorem refusedWhen_of_error {fault : Fault} (h : x.run g = .error fault g) (hc : condition) :
    RefusedWhen x g condition where
  fails_iff := by simp [h, hc]
  unchanged h' := by
    rw [h] at h'
    cases h'
    rfl

theorem refusedWhen_of_ok {a : α} (h : x.run g = .ok a g') (hc : ¬ condition) :
    RefusedWhen x g condition where
  fails_iff := by simp [h, hc]
  unchanged h' := by simp [h] at h'

/-- A change that looks at a node first and can do without anything else. -/
theorem refusedWhen_missing (hatomic : Atomic x g)
    (hread : ∀ {a g'}, x.run g = .ok a g' → ∃ n, g.get? id = some n)
    (hok : ∀ {n}, g.get? id = some n → ∃ a g', x.run g = .ok a g') :
    RefusedWhen x g (g.contains id = false) := by
  refine refusedWhen_of_atomic hatomic ?_
  rw [Bool.not_eq_false, contains_iff]
  exact ⟨fun ⟨_, _, h⟩ => hread h, fun ⟨_, hn⟩ => hok hn⟩

end RefusedWhen

theorem test_of_get? {p : Node S → Bool} (hn : g.get? id = some n) : g.test p id = p n := by
  rw [test, hn, Option.any_some]

theorem refusedWhen_setExpanded (id : NodeId) (isExpanded : Bool) (g : Graph S) :
    RefusedWhen (setExpanded id isExpanded) g (g.contains id = false) :=
  refusedWhen_missing (atomic_updateNode id _ g)
    (fun h => (run_updateNode_ok.1 h).imp fun _ h => h.1)
    fun hn => ⟨(), _, run_updateNode_ok.2 ⟨_, hn, rfl⟩⟩

theorem refusedWhen_createSucc (parent : NodeId) (state : S) (isTarget isFeasible : Bool)
    (g : Graph S) :
    RefusedWhen (createSucc parent state isTarget isFeasible) g
      (g.contains parent = false ∨ g.test Node.isCovered parent = true) := by
  refine refusedWhen_of_atomic (atomic_createSucc parent state isTarget isFeasible g) ?_
  rw [not_or, Bool.not_eq_false, Bool.not_eq_true, contains_iff]
  constructor
  · rintro ⟨_, _, h⟩
    obtain ⟨above, habove, hfree, -⟩ := createSucc_ok h
    exact ⟨⟨above, habove⟩, by simp [test_of_get? habove, Node.isCovered, hfree]⟩
  · rintro ⟨⟨above, habove⟩, hfree⟩
    rw [test_of_get? habove] at hfree
    exact exists_createSucc habove (by simpa [Node.isCovered] using hfree) state isTarget isFeasible

namespace WellFormed

theorem refusedWhen_uncover (hwf : g.WellFormed) (id : NodeId) :
    RefusedWhen (Graph.uncover id) g (g.contains id = false) :=
  refusedWhen_missing (hwf.atomic_uncover id)
    (fun h => (uncover_ok hwf h).imp fun _ h => h.1) fun hn => ⟨(), exists_uncover hwf hn⟩

theorem refusedWhen_clearCovered (hwf : g.WellFormed) (id : NodeId) :
    RefusedWhen (Graph.clearCovered id) g (g.contains id = false) :=
  refusedWhen_missing (hwf.atomic_clearCovered id)
    (fun h => (clearCovered_ok hwf h).imp fun _ h => h.1) fun hn => ⟨(), exists_clearCovered hwf hn⟩

theorem refusedWhen_prune (hwf : g.WellFormed) (id : NodeId) :
    RefusedWhen (Graph.prune id) g (g.contains id = false) := by
  refine refusedWhen_missing (hwf.atomic_prune id) (fun h => ?_) fun hn => ⟨(), exists_prune hwf hn⟩
  obtain ⟨n, _, hread, -⟩ := Edit.run_bind_ok.1 h
  exact ⟨n, (run_readNode_ok.1 hread).1⟩

theorem refusedWhen_cover (hwf : g.WellFormed) (id coverer : NodeId) :
    RefusedWhen (Graph.cover id coverer) g
      (id = coverer ∨ (g.contains id = false ∨ g.contains coverer = false) ∨
        g.test Node.isCovered id = true ∨ g.test Node.isCovered coverer = true) := by
  refine refusedWhen_of_atomic (hwf.atomic_cover id coverer) ?_
  simp only [not_or, Bool.not_eq_false, Bool.not_eq_true, contains_iff]
  constructor
  · rintro ⟨_, _, h⟩
    obtain ⟨hne, a, b, ha, hua, hb, hub, -⟩ := cover_ok hwf h
    exact ⟨hne, ⟨⟨a, ha⟩, b, hb⟩, by simp [test_of_get? ha, Node.isCovered, hua],
      by simp [test_of_get? hb, Node.isCovered, hub]⟩
  · rintro ⟨hne, ⟨⟨a, ha⟩, b, hb⟩, hua, hub⟩
    rw [test_of_get? ha] at hua
    rw [test_of_get? hb] at hub
    exact ⟨(), exists_cover hwf ha hb hne (by simpa [Node.isCovered] using hua)
      (by simpa [Node.isCovered] using hub)⟩

end WellFormed

/-! ## Growing -/

section Growing

variable [DecidableEq S]

theorem run_addSuccStates_cons (analysis : Analysis S P K) (hn : g.get? id = some n) (s : S)
    (states : List S) :
    (addSuccStates analysis id (s :: states)).run g =
      if s ∈ g.statesOf n.succs then (addSuccStates analysis id states).run g
      else (do
        let child ← createSucc id s (analysis.isTarget s) (!analysis.isBottom s)
        return child :: (← addSuccStates analysis id states)).run g := by
  rw [addSuccStates, Edit.run_bind_of_ok (run_readNode_ok.2 ⟨hn, rfl⟩),
    Edit.run_bind_of_ok (Edit.run_get_ok.2 ⟨rfl, rfl⟩)]
  split <;> rfl

/-- A covered node gets no children: the states that it should have are all there, or the first one
that is missing is refused. -/
theorem addSuccStates_covered (analysis : Analysis S P K) (hn : g.get? id = some n)
    (hcovered : n.isCovered = true) (states : List S) :
    (addSuccStates analysis id states).run g =
      if ∃ s ∈ states, s ∉ g.statesOf n.succs then .error (.successorOfCovered id) g
      else .ok [] g := by
  induction states with
  | nil => simp [addSuccStates, EStateM.run, pure, EStateM.pure]
  | cons s states ih =>
    rw [run_addSuccStates_cons analysis hn, ih]
    by_cases hs : s ∈ g.statesOf n.succs
    · simp [hs]
    · rw [if_neg hs, if_pos ⟨s, List.mem_cons_self, hs⟩]
      refine Edit.run_bind_of_error ?_
      rw [createSucc, Edit.run_bind_of_ok (run_readNode_ok.2 ⟨hn, rfl⟩), hcovered]
      exact Edit.run_bind_of_error rfl

theorem run_expand (analysis : Analysis S P K) (prec : P) (hn : g.get? id = some n) :
    (expand analysis id prec).run g =
      if analysis.inDomain n.state then
        (do
          let new ← addSuccStates analysis id (analysis.succStates n.state prec)
          setExpanded id true
          return new).run g
      else .error .stateOutOfRange g := by
  have hstates : (liftM (analysis.successors? n.state prec) : Edit (Graph S) (List S)).run g =
      if analysis.inDomain n.state then .ok (analysis.succStates n.state prec) g
      else .error .stateOutOfRange g := by
    unfold Analysis.successors?
    cases analysis.inDomain n.state <;> rfl
  rw [expand, Edit.run_bind_of_ok (run_readNode_ok.2 ⟨hn, rfl⟩)]
  split at hstates
  · rename_i hdomain
    rw [if_pos hdomain]
    exact Edit.run_bind_of_ok hstates
  · rename_i hdomain
    rw [if_neg hdomain]
    exact Edit.run_bind_of_error hstates

/-- A node is grown unless it is missing, the analysis has no successors to give, or the node is
covered and one of its children is missing. -/
theorem refusedWhen_expand (analysis : Analysis S P K) (id : NodeId) (prec : P) (g : Graph S) :
    RefusedWhen (expand analysis id prec) g
      (g.contains id = false ∨ ∃ n, g.get? id = some n ∧ (analysis.inDomain n.state = false ∨
        n.isCovered = true ∧ ∃ s ∈ analysis.succStates n.state prec, s ∉ g.statesOf n.succs)) := by
  cases hn : g.get? id with
  | none =>
    exact refusedWhen_of_error (Edit.run_bind_of_error (run_readNode_of_none hn))
      (.inl (contains_eq_false_iff.2 hn))
  | some n =>
    have hlive : g.contains id = true := contains_iff.2 ⟨n, hn⟩
    cases hdomain : analysis.inDomain n.state with
    | false =>
      have hrun := run_expand analysis prec hn
      rw [if_neg (by simp [hdomain])] at hrun
      exact refusedWhen_of_error hrun (.inr ⟨n, rfl, .inl hdomain⟩)
    | true =>
      cases hcovered : n.isCovered with
      | false =>
        obtain ⟨new, g', hrun⟩ :=
          exists_expand prec hn (by simpa [Node.isCovered] using hcovered) hdomain
        exact refusedWhen_of_ok hrun (by simp [hlive, hdomain, hcovered])
      | true =>
        have hrun := run_expand analysis prec hn
        have hadd := addSuccStates_covered analysis hn hcovered (analysis.succStates n.state prec)
        rw [if_pos hdomain] at hrun
        by_cases hmissing : ∃ s ∈ analysis.succStates n.state prec, s ∉ g.statesOf n.succs
        · rw [if_pos hmissing] at hadd
          exact refusedWhen_of_error (hrun.trans (Edit.run_bind_of_error hadd))
            (.inr ⟨n, rfl, .inr ⟨hcovered, hmissing⟩⟩)
        · rw [if_neg hmissing] at hadd
          obtain ⟨g', hset, -⟩ := exists_updateNode ⟨n, hn⟩ fun node => { node with isExpanded := true }
          exact refusedWhen_of_ok
            (hrun.trans ((Edit.run_bind_of_ok hadd).trans (Edit.run_bind_of_ok hset)))
            (by simp [hlive, hdomain, hmissing])

end Growing

/-! ## Every call -/

/-- When the calls that change a graph are refused. A refused call changes nothing. -/
structure Refusals (g : Graph S) : Prop where
  /-- The parent is missing or covered. -/
  createSucc : ∀ parent state isTarget isFeasible,
    RefusedWhen (createSucc parent state isTarget isFeasible) g
      (g.contains parent = false ∨ g.test Node.isCovered parent = true)
  setExpanded : ∀ id isExpanded, RefusedWhen (setExpanded id isExpanded) g (g.contains id = false)
  /-- The nodes are one and the same, one of them is missing, or one of them is covered already. -/
  cover : ∀ id coverer, RefusedWhen (cover id coverer) g
    (id = coverer ∨ (g.contains id = false ∨ g.contains coverer = false) ∨
      g.test Node.isCovered id = true ∨ g.test Node.isCovered coverer = true)
  uncover : ∀ id, RefusedWhen (uncover id) g (g.contains id = false)
  clearCovered : ∀ id, RefusedWhen (clearCovered id) g (g.contains id = false)
  prune : ∀ id, RefusedWhen (prune id) g (g.contains id = false)
  /-- The node is missing, or it is covered and has no child yet for one of its successors. An analysis
  whose domain leaves out the state of the node has no successors to give. -/
  expand : ∀ {P K : Type} [DecidableEq S] (analysis : Analysis S P K) id prec,
    RefusedWhen (expand analysis id prec) g
      (g.contains id = false ∨ ∃ n, g.get? id = some n ∧ (analysis.inDomain n.state = false ∨
        n.isCovered = true ∧ ∃ s ∈ analysis.succStates n.state prec, s ∉ g.statesOf n.succs))

/-- **A call is refused exactly when it should be, and a refused call changes nothing**, whatever
calls came before, refused ones among them, and whatever numbers it is given. -/
theorem refusals_after (operations : List (Operation S)) : (after operations).Refusals :=
  have hwf := wellFormed_after operations
  { createSucc parent state isTarget isFeasible :=
      refusedWhen_createSucc parent state isTarget isFeasible _
    setExpanded id isExpanded := refusedWhen_setExpanded id isExpanded _
    cover := hwf.refusedWhen_cover
    uncover := hwf.refusedWhen_uncover
    clearCovered := hwf.refusedWhen_clearCovered
    prune := hwf.refusedWhen_prune
    expand analysis id prec := refusedWhen_expand analysis id prec _ }

end GuidedReach.Graph
