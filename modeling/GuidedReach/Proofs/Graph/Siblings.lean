import GuidedReach.Graph.Build
import GuidedReach.Proofs.Graph.Completion

/-!
# Siblings have different states

Growing adds a leaf only for a state that no sibling has, pruning and covering add no nodes at all. So
in a graph whose nodes come from one analysis, whatever precisions it was grown under and whatever was
pruned in between, no two siblings have the same state.

* `Graph.SiblingsDiffer` — the children of a node, and the init nodes, have different states.
* `Graph.Thins` — what is left of a graph after a change that adds no node.
* `Graph.SiblingsDiffer.of_run_edit` — a step that succeeds keeps the siblings apart.
* `Graph.growth_complete` — growing adds exactly what is missing, and siblings always differ.
-/

namespace GuidedReach.Graph

variable {S P K : Type} {g g' g'' : Graph S} {id : NodeId} {n : Node S} {ids ids' : List NodeId}

/-- The children of each node have pairwise different states, and so have the init nodes. -/
structure SiblingsDiffer (g : Graph S) : Prop where
  children : ∀ {i n}, g.get? i = some n → (g.statesOf n.succs).Nodup
  initNodes : (g.statesOf g.initNodes).Nodup

/-! ## Changes that add no node -/

/-- Each node of the second graph is one of the first, with the same state and perhaps fewer children. -/
structure Thins (g g' : Graph S) : Prop where
  node : ∀ {i n'}, g'.get? i = some n' →
    ∃ n, g.get? i = some n ∧ n'.state = n.state ∧ n'.succs.Sublist n.succs
  initNodes : g'.initNodes.Sublist g.initNodes

namespace Thins

theorem refl (g : Graph S) : g.Thins g := ⟨fun hi => ⟨_, hi, rfl, .refl _⟩, .refl _⟩

theorem trans (h : g.Thins g') (h' : g'.Thins g'') : g.Thins g'' where
  node hi := by
    obtain ⟨n', hn', hstate', hsuccs'⟩ := h'.node hi
    obtain ⟨n, hn, hstate, hsuccs⟩ := h.node hn'
    exact ⟨n, hn, hstate'.trans hstate, hsuccs'.trans hsuccs⟩
  initNodes := h'.initNodes.trans h.initNodes

theorem of_rewritten {f : NodeId → Node S → Node S} (h : Rewritten f g g')
    (hstate : ∀ i n, (f i n).state = n.state) (hsuccs : ∀ i n, (f i n).succs = n.succs) :
    g.Thins g' where
  node hi := by
    obtain ⟨n, hn, rfl⟩ := h.exists_of_get? hi
    exact ⟨n, hn, hstate _ n, by rw [hsuccs]⟩
  initNodes := by rw [h.initNodes]

theorem of_pruned {root : NodeId} {cut : List NodeId} (h : Pruned root cut g g') : g.Thins g' where
  node hi := by
    obtain ⟨-, n, hn, rfl⟩ := h.exists_of_get? hi
    exact ⟨n, hn, rfl, List.filter_sublist⟩
  initNodes := by
    rw [h.initNodes]
    exact List.filter_sublist

/-- The nodes that are left keep their states. -/
theorem statesOf_sublist (h : g.Thins g') (hids : ids'.Sublist ids) :
    (g'.statesOf ids').Sublist (g.statesOf ids) := by
  have hsame : ∀ l, (g'.statesOf l).Sublist (g.statesOf l) := fun l => by
    induction l with
    | nil => exact .refl _
    | cons i rest ih =>
      cases hi : g'.get? i with
      | none =>
        have hstates : g'.statesOf (i :: rest) = g'.statesOf rest := by simp [statesOf, hi]
        rw [hstates]
        exact ih.trans ((List.sublist_cons_self i rest).filterMap _)
      | some n' =>
        obtain ⟨n, hn, hstate, -⟩ := h.node hi
        rw [statesOf_cons hi, statesOf_cons hn, hstate]
        exact ih.cons_cons n.state
  exact (hsame ids').trans (hids.filterMap _)

end Thins

theorem SiblingsDiffer.of_thins (hg : g.SiblingsDiffer) (h : g.Thins g') : g'.SiblingsDiffer where
  children hi := by
    obtain ⟨n, hn, -, hsuccs⟩ := h.node hi
    exact (hg.children hn).sublist (h.statesOf_sublist hsuccs)
  initNodes := hg.initNodes.sublist (h.statesOf_sublist h.initNodes)

namespace WellFormed

theorem thins_prune {u : Unit} (hwf : g.WellFormed) (h : (Graph.prune id).run g = .ok u g') :
    g'.WellFormed ∧ g.Thins g' :=
  have hpruned := prune_ok hwf h
  ⟨hpruned.wellFormed hwf, .of_pruned hpruned⟩

/-- A change that adds no node leaves the first graph, thinned out. -/
theorem thins_of_run_edit (hwf : g.WellFormed) {operation : Operation S}
    (hnone : operation.creates = false) (h : operation.edit.run g = .ok () g') : g.Thins g' := by
  cases operation with
  | createInit => cases hnone
  | createSucc => cases hnone
  | setExpanded id isExpanded =>
    exact .of_rewritten (rewritten_of_setExpanded h).2 (fun i n => by split <;> rfl)
      fun i n => by split <;> rfl
  | setInitialized isInitialized =>
    obtain rfl := Edit.run_modify_ok.1 h
    exact ⟨fun hi => ⟨_, hi, rfl, .refl _⟩, .refl _⟩
  | cover id coverer =>
    obtain ⟨-, a, b, -, -, -, -, hrewritten⟩ := cover_ok hwf h
    exact .of_rewritten hrewritten (fun _ _ => rfl) fun _ _ => rfl
  | uncover id =>
    obtain ⟨a, -, hrewritten⟩ := uncover_ok hwf h
    exact .of_rewritten hrewritten (fun _ _ => rfl) fun _ _ => rfl
  | clearCovered id =>
    obtain ⟨a, -, hrewritten⟩ := clearCovered_ok hwf h
    exact .of_rewritten hrewritten (fun _ _ => rfl) fun _ _ => rfl
  | prune id => exact (hwf.thins_prune h).2
  | pruneAll =>
    simp only [Operation.edit, Graph.pruneAll, Edit.run_bind_ok, Edit.run_get_ok] at h
    obtain ⟨_, _, ⟨rfl, rfl⟩, _, t, hprune, hset⟩ := h
    obtain rfl := Edit.run_modify_ok.1 hset
    have hthins := (Edit.run_forM_induct (motive := fun t : Graph S => t.WellFormed ∧ g.Thins t)
      (fun i t t' _ ⟨hwft, hthins⟩ ht' =>
        (hwft.thins_prune ht').imp_right hthins.trans) ⟨hwf, .refl g⟩ hprune).2
    exact ⟨hthins.node, hthins.initNodes⟩

end WellFormed

/-! ## Growing -/

section Growing

variable [DecidableEq S] {analysis : Analysis S P K} {prec : P} {new : List NodeId}

/-- Siblings that were there keep their states, if the parent does. -/
theorem Filled.statesOf_old {parent : Option NodeId} {depth : Nat} {listed : List NodeId}
    {wanted : List S} (h : Filled analysis parent depth listed wanted new g g')
    (hparent : ∀ p, parent = some p → (g'.get? p).map (·.state) = (g.get? p).map (·.state))
    (hids : ∀ i ∈ ids, ∃ n, g.get? i = some n) : g'.statesOf ids = g.statesOf ids :=
  statesOf_congr fun i hi => by
    by_cases hp : parent = some i
    · exact hparent i hp
    · obtain ⟨n, hn⟩ := hids i hi
      have hold : i ∉ new := fun hnew => by
        rw [h.numbers, List.mem_range'_1] at hnew
        exact absurd hnew.1 (Nat.not_le.2 (lt_slotCount hn))
      rw [h.others i hp hold]

/-- New leaves have no children, and all nodes but the parent keep theirs. -/
theorem Filled.children {parent : Option NodeId} {depth : Nat} {listed : List NodeId}
    {wanted : List S} (h : Filled analysis parent depth listed wanted new g g') (hwf : g.WellFormed)
    (hg : g.SiblingsDiffer)
    (hparent : ∀ p, parent = some p → (g'.get? p).map (·.state) = (g.get? p).map (·.state))
    {i : NodeId} {n' : Node S} (hn' : g'.get? i = some n') (hne : parent ≠ some i) :
    (g'.statesOf n'.succs).Nodup := by
  by_cases hnew : i ∈ new
  · obtain ⟨s, hs⟩ := h.leaf i hnew
    obtain rfl := Option.some.inj (hn'.symm.trans hs)
    exact .nil
  · rw [h.others i hne hnew] at hn'
    rw [h.statesOf_old hparent fun c hc => (hwf.succ_link hn' hc).imp fun _ hc => hc.1]
    exact hg.children hn'

theorem SiblingsDiffer.seeding (hg : g.SiblingsDiffer) (hwf : g.WellFormed)
    (h : Seeding analysis prec new g g') : g'.SiblingsDiffer where
  children hi := h.children hwf hg (by simp) hi (by simp)
  initNodes := by
    rw [h.initNodes, h.siblings]
    exact nodup_append_absent hg.initNodes

theorem SiblingsDiffer.expansion (hg : g.SiblingsDiffer) (hwf : g.WellFormed)
    (hn : g.get? id = some n) (h : Expansion analysis prec id n new g g') : g'.SiblingsDiffer := by
  have hparent : ∀ p, some id = some p → (g'.get? p).map (·.state) = (g.get? p).map (·.state) := by
    rintro p ⟨⟩
    rw [h.node, hn]
    rfl
  constructor
  · intro i n' hn'
    by_cases hi : id = i
    · subst hi
      obtain rfl := Option.some.inj (h.node.symm.trans hn')
      rw [h.siblings]
      exact nodup_append_absent (hg.children hn)
    · exact h.children hwf hg hparent hn' fun heq => hi (Option.some.inj heq)
  · rw [h.initNodes, h.statesOf_old hparent fun c hc =>
      (hwf.init_parentless hc).imp fun _ hc => hc.1]
    exact hg.initNodes

/-! ## Every sequence of steps -/

/-- **One step keeps siblings apart**, whether it adds nodes or not. -/
theorem SiblingsDiffer.of_run_edit (hg : g.SiblingsDiffer) (hwf : g.WellFormed)
    {step : BuildStep S P} (h : (step.edit analysis).run g = .ok () g') :
    g'.WellFormed ∧ g'.SiblingsDiffer := by
  cases step with
  | seed prec =>
    obtain ⟨new, t, ht, hpure⟩ := Edit.run_bind_ok.1 h
    obtain ⟨-, rfl⟩ := Edit.run_pure_ok.1 hpure
    exact ⟨hwf.seed ht, hg.seeding hwf (hwf.seeding ht)⟩
  | expand id prec =>
    obtain ⟨new, t, ht, hpure⟩ := Edit.run_bind_ok.1 h
    obtain ⟨-, rfl⟩ := Edit.run_pure_ok.1 hpure
    obtain ⟨n, _, hread, -⟩ := Edit.run_bind_ok.1 ht
    have hn := (run_readNode_ok.1 hread).1
    exact ⟨hwf.expand ht, hg.expansion hwf hn (hwf.expansion hn ht)⟩
  | change operation addsNone =>
    exact ⟨hwf.of_run_edit h, hg.of_thins (hwf.thins_of_run_edit addsNone h)⟩

/-- A step is refused before it has changed anything, or it goes through. -/
theorem WellFormed.atomic_step (hwf : g.WellFormed) (analysis : Analysis S P K)
    (step : BuildStep S P) : Atomic (step.edit analysis) g := by
  cases step with
  | seed prec =>
    obtain ⟨new, t, ht⟩ := exists_seed analysis prec g
    exact atomic_bind_pure (.inl ⟨new, t, ht⟩)
  | expand id prec =>
    refine atomic_bind_pure ?_
    cases h : (Graph.expand analysis id prec).run g with
    | ok new t => exact .inl ⟨new, t, h⟩
    | error fault t =>
      refine .inr ?_
      rw [leftBy_of_error h]
      exact (refusedWhen_expand analysis id prec g).unchanged h
  | change operation _ => exact hwf.atomic_edit operation

theorem apply_eq_leftBy_edit (step : BuildStep S P) (g : Graph S) :
    step.apply analysis g = leftBy (step.edit analysis) g := by
  unfold BuildStep.apply leftBy
  cases (step.edit analysis).run g <;> rfl

/-- **Siblings differ after every sequence of steps**, whether or not some of them are refused. -/
theorem siblingsDiffer_built (steps : List (BuildStep S P)) :
    (built analysis steps).WellFormed ∧ (built analysis steps).SiblingsDiffer := by
  induction steps using List.reverseRecOn with
  | nil =>
    exact ⟨.empty, fun hi => by simp [get?, NodeMap.get?_empty, built] at hi, .nil⟩
  | append_singleton steps step ih =>
    rw [built, List.foldl_append, List.foldl_cons, List.foldl_nil, apply_eq_leftBy_edit]
    obtain ⟨u, g', h⟩ | h := ih.1.atomic_step analysis step
    · rw [← built, leftBy_of_ok h]
      exact ih.2.of_run_edit ih.1 h
    · rw [← built, h]
      exact ih

/-- **Growing a graph adds exactly what is missing.** Of the states that the analysis asks for, each
one that no sibling has gets a new node, once, in the order in which the states first occur; the new
nodes follow the old siblings, and nothing changes outside their parent. Growing once more under the
same precision returns no node and changes nothing. So siblings have different states in every graph
whose nodes come from the analysis, under whatever precisions it was grown, and whatever was pruned or
covered in between. -/
theorem growth_complete (analysis : Analysis S P K) :
    (∀ g : Graph S, g.WellFormed → ∀ prec, ∃ new g', (seed analysis prec).run g = .ok new g' ∧
      Seeding analysis prec new g g') ∧
    (∀ g : Graph S, g.WellFormed → ∀ id prec new g', (expand analysis id prec).run g = .ok new g' →
      ∃ n, g.get? id = some n ∧ Expansion analysis prec id n new g g') ∧
    ∀ steps, (built analysis steps).WellFormed ∧ (built analysis steps).SiblingsDiffer := by
  refine ⟨fun g hwf prec => ?_, fun g hwf id prec new g' h => ?_, siblingsDiffer_built⟩
  · obtain ⟨new, g', h⟩ := exists_seed analysis prec g
    exact ⟨new, g', h, hwf.seeding h⟩
  · obtain ⟨n, _, hread, -⟩ := Edit.run_bind_ok.1 h
    have hn := (run_readNode_ok.1 hread).1
    exact ⟨n, hn, hwf.expansion hn h⟩

end Growing

/-- An analysis that asks for states more than once, and for other states under other precisions. -/
def repeating : Analysis Nat Nat Unit where
  initStates prec := [prec, 0, prec]
  succStates state prec := [state + 1, state + prec, state + 1]
  isTarget state := state == 4
  isBottom _ := false
  isLeq a b := a == b
  key _ := ()

/-- A graph that was expanded under one precision and pruned. -/
def halfGrown : Graph Nat := built repeating [.seed 1, .expand 0 2, .change (.prune 2) rfl]

theorem growth_complete_halfGrown :
    halfGrown.WellFormed ∧ halfGrown.statesOf halfGrown.initNodes = [1, 0] ∧
      ∃ n g', halfGrown.get? 0 = some n ∧ halfGrown.statesOf n.succs = [3] ∧
        (expand repeating 0 3).run halfGrown = .ok [4, 5] g' ∧
        Expansion repeating 3 0 n [4, 5] halfGrown g' ∧
        g'.statesOf (n.succs ++ [4, 5]) = [3, 2, 4] ∧ g'.SiblingsDiffer := by
  obtain ⟨-, hexpand, hbuilt⟩ := growth_complete repeating
  have hwf : halfGrown.WellFormed := (hbuilt _).1
  have hrun : (expand repeating 0 3).run halfGrown =
      .ok [4, 5] (built repeating [.seed 1, .expand 0 2, .change (.prune 2) rfl, .expand 0 3]) := by
    rfl
  obtain ⟨n, hn, hexpansion⟩ := hexpand halfGrown hwf 0 3 _ _ hrun
  have hsuccs : (halfGrown.get? 0).map (fun n => halfGrown.statesOf n.succs) = some [3] := by
    decide +kernel
  rw [hn] at hsuccs
  have hstates : halfGrown.statesOf n.succs = [3] := Option.some.inj hsuccs
  refine ⟨hwf, by decide +kernel, n, _, hn, hstates, hrun, hexpansion, ?_, (hbuilt _).2⟩
  rw [hexpansion.siblings, hstates]
  have hstate : (halfGrown.get? 0).map (·.state) = some 1 := by decide +kernel
  rw [hn] at hstate
  have hone : n.state = 1 := Option.some.inj hstate
  rw [hone]
  decide +kernel

end GuidedReach.Graph
