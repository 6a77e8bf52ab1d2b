import GuidedReach.Graph.Operation
import GuidedReach.Proofs.Graph.Edits
import GuidedReach.Proofs.Graph.Walks

/-!
# Every sequence of calls

A call that fails is refused before it has written anything, as long as the links of the graph agree;
so they agree after every sequence of calls, whether or not some of them fail.

* `Graph.leftBy` — what a change leaves behind, also if it failed.
* `Graph.Continues`, `Graph.continues_apply` — a number keeps standing for the same node, whatever
  becomes of a call.
* `Graph.WellFormed.atomic_edit` — a call ends in a result or leaves the graph alone.
* `Graph.WellFormed.apply` — the links agree after a call.
* `Graph.after_wellFormed` — what holds after every sequence of calls.
-/

namespace GuidedReach.Graph

variable {S α β : Type} {g g' g'' : Graph S} {id : NodeId} {n : Node S}

/-! ## Changes that may fail -/

/-- What a change leaves behind, also if it failed. -/
def leftBy (x : Edit (Graph S) α) (g : Graph S) : Graph S :=
  match x.run g with
  | .ok _ g' | .error _ g' => g'

section LeftBy

variable {x : Edit (Graph S) α} {f : α → Edit (Graph S) β} {a : α} {fault : Fault}

theorem leftBy_of_ok (h : x.run g = .ok a g') : leftBy x g = g' := by
  rw [leftBy, h]

theorem leftBy_of_error (h : x.run g = .error fault g') : leftBy x g = g' := by
  rw [leftBy, h]

theorem leftBy_bind_of_ok (h : x.run g = .ok a g') : leftBy (x >>= f) g = leftBy (f a) g' := by
  rw [leftBy, Edit.run_bind_of_ok h, leftBy]

theorem leftBy_bind_of_error (h : x.run g = .error fault g') : leftBy (x >>= f) g = g' :=
  leftBy_of_error (Edit.run_bind_of_error h)

theorem run_node_of_none (h : g.get? id = none) :
    (liftM (g.node id) : Edit (Graph S) (Node S)).run g = .error (.notInGraph id) g := by
  rw [show g.node id = .error (.notInGraph id) by simp [node, h]]
  rfl

theorem run_readNode_of_none (h : g.get? id = none) :
    (readNode id).run g = .error (.notInGraph id) g :=
  (Edit.run_bind_of_ok (Edit.run_get_ok.2 ⟨rfl, rfl⟩)).trans (run_node_of_none h)

theorem leftBy_readNode_bind_of_none {f : Node S → Edit (Graph S) β} (h : g.get? id = none) :
    leftBy (readNode id >>= f) g = g :=
  leftBy_bind_of_error (run_readNode_of_none h)

theorem leftBy_updateNode_of_none {f : Node S → Node S} (h : g.get? id = none) :
    leftBy (updateNode id f) g = g :=
  (leftBy_bind_of_ok (Edit.run_get_ok.2 ⟨rfl, rfl⟩)).trans (leftBy_bind_of_error (run_node_of_none h))

end LeftBy

/-! ## Numbers -/

/-- A number that was given out in the first graph stands for the same node in the second, if it
still stands for one. -/
structure Continues (g g' : Graph S) : Prop where
  slotCount_le : g.nodes.slotCount ≤ g'.nodes.slotCount
  node : ∀ {i n'}, i < g.nodes.slotCount → g'.get? i = some n' → ∃ n, g.get? i = some n ∧
    n'.state = n.state ∧ n'.depth = n.depth ∧ n'.isTarget = n.isTarget ∧
    n'.isFeasible = n.isFeasible ∧ n'.parent = n.parent

theorem Continues.refl (g : Graph S) : g.Continues g :=
  ⟨Nat.le_refl _, fun _ hn => ⟨_, hn, rfl, rfl, rfl, rfl, rfl⟩⟩

theorem Continues.trans (h : g.Continues g') (h' : g'.Continues g'') : g.Continues g'' where
  slotCount_le := Nat.le_trans h.slotCount_le h'.slotCount_le
  node hi hn'' := by
    obtain ⟨n', hn', hs', hd', ht', hf', hp'⟩ := h'.node (Nat.lt_of_lt_of_le hi h.slotCount_le) hn''
    obtain ⟨n, hn, hs, hd, ht, hf, hp⟩ := h.node hi hn'
    exact ⟨n, hn, hs'.trans hs, hd'.trans hd, ht'.trans ht, hf'.trans hf, hp'.trans hp⟩

/-- Whatever becomes of the change, no number stands for another node after it. -/
def KeepsNumbers (x : Edit (Graph S) α) : Prop := ∀ g : Graph S, g.Continues (leftBy x g)

section KeepsNumbers

variable {x : Edit (Graph S) α} {f : α → Edit (Graph S) β}

theorem keepsNumbers_bind (hx : KeepsNumbers x) (hf : ∀ a, KeepsNumbers (f a)) :
    KeepsNumbers (x >>= f) := by
  intro g
  have hfirst := hx g
  cases hrun : x.run g with
  | ok a t =>
    rw [leftBy_of_ok hrun] at hfirst
    rw [leftBy_bind_of_ok hrun]
    exact hfirst.trans (hf a t)
  | error fault t =>
    rw [leftBy_of_error hrun] at hfirst
    rwa [leftBy_bind_of_error hrun]

theorem keepsNumbers_pure (a : α) : KeepsNumbers (pure a : Edit (Graph S) α) := Continues.refl

theorem keepsNumbers_get : KeepsNumbers (get : Edit (Graph S) (Graph S)) := Continues.refl

theorem keepsNumbers_modify {f : Graph S → Graph S} (hf : ∀ g : Graph S, g.Continues (f g)) :
    KeepsNumbers (modify f : Edit (Graph S) PUnit) := hf

theorem keepsNumbers_lift (x : Except Fault α) : KeepsNumbers (liftM x : Edit (Graph S) α) := by
  intro g
  cases x <;> exact .refl g

theorem keepsNumbers_forM (l : List α) {f : α → Edit (Graph S) PUnit}
    (hf : ∀ a, KeepsNumbers (f a)) : KeepsNumbers (l.forM f) := by
  induction l with
  | nil => exact keepsNumbers_pure _
  | cons a l ih => exact keepsNumbers_bind (hf a) fun _ => ih

theorem keepsNumbers_readNode (id : NodeId) :
    KeepsNumbers (readNode id : Edit (Graph S) (Node S)) :=
  keepsNumbers_bind keepsNumbers_get fun _ => keepsNumbers_lift _

theorem keepsNumbers_updateNode (id : NodeId) {f : Node S → Node S}
    (hf : ∀ n, (f n).state = n.state ∧ (f n).depth = n.depth ∧ (f n).isTarget = n.isTarget ∧
      (f n).isFeasible = n.isFeasible ∧ (f n).parent = n.parent) :
    KeepsNumbers (updateNode id f) := by
  intro g
  cases hn : g.get? id with
  | none =>
    rw [leftBy_updateNode_of_none hn]
    exact .refl g
  | some n =>
    have hrun : (updateNode id f).run g = .ok () _ := run_updateNode_ok.2 ⟨n, hn, rfl⟩
    obtain ⟨-, hrewritten⟩ := rewritten_of_updateNode hrun
    rw [leftBy_of_ok hrun]
    refine ⟨Nat.le_of_eq hrewritten.slotCount.symm, fun _ hn' => ?_⟩
    obtain ⟨m, hm, rfl⟩ := hrewritten.exists_of_get? hn'
    refine ⟨m, hm, ?_⟩
    split
    · exact hf m
    · exact ⟨rfl, rfl, rfl, rfl, rfl⟩

theorem keepsNumbers_allocate (node : Node S) : KeepsNumbers (allocate node) := by
  intro g
  rw [leftBy_of_ok (run_allocate_ok.2 ⟨rfl, rfl⟩)]
  refine ⟨by simp, fun {i n'} hi hn' => ⟨n', ?_, rfl, rfl, rfl, rfl, rfl⟩⟩
  rwa [get?_push, if_neg (Nat.ne_of_lt hi)] at hn'

theorem keepsNumbers_uncover (id : NodeId) : KeepsNumbers (uncover id : Edit (Graph S) Unit) := by
  refine keepsNumbers_bind (keepsNumbers_readNode id) fun n => ?_
  split
  · exact keepsNumbers_pure _
  · exact keepsNumbers_bind (keepsNumbers_updateNode _ fun _ => ⟨rfl, rfl, rfl, rfl, rfl⟩) fun _ =>
      keepsNumbers_updateNode _ fun _ => ⟨rfl, rfl, rfl, rfl, rfl⟩

theorem keepsNumbers_clearCovered (id : NodeId) :
    KeepsNumbers (clearCovered id : Edit (Graph S) Unit) :=
  keepsNumbers_bind (keepsNumbers_readNode id) fun _ =>
    keepsNumbers_bind (keepsNumbers_updateNode _ fun _ => ⟨rfl, rfl, rfl, rfl, rfl⟩) fun _ =>
      keepsNumbers_forM _ fun _ => keepsNumbers_updateNode _ fun _ => ⟨rfl, rfl, rfl, rfl, rfl⟩

theorem keepsNumbers_cover (id coverer : NodeId) :
    KeepsNumbers (cover id coverer : Edit (Graph S) Unit) := by
  refine keepsNumbers_bind (keepsNumbers_lift _) fun _ => ?_
  refine keepsNumbers_bind (keepsNumbers_readNode id) fun _ => ?_
  refine keepsNumbers_bind (keepsNumbers_lift _) fun _ => ?_
  refine keepsNumbers_bind (keepsNumbers_readNode coverer) fun _ => ?_
  refine keepsNumbers_bind (keepsNumbers_lift _) fun _ => ?_
  refine keepsNumbers_bind (keepsNumbers_readNode id) fun _ => ?_
  refine keepsNumbers_bind (keepsNumbers_updateNode _ fun _ => ⟨rfl, rfl, rfl, rfl, rfl⟩) fun _ => ?_
  refine keepsNumbers_bind (keepsNumbers_forM _ fun _ =>
    keepsNumbers_updateNode _ fun _ => ⟨rfl, rfl, rfl, rfl, rfl⟩) fun _ => ?_
  refine keepsNumbers_bind (keepsNumbers_updateNode _ fun _ => ⟨rfl, rfl, rfl, rfl, rfl⟩) fun _ => ?_
  exact keepsNumbers_updateNode _ fun _ => ⟨rfl, rfl, rfl, rfl, rfl⟩

theorem keepsNumbers_detach (id : NodeId) : KeepsNumbers (detach id : Edit (Graph S) Unit) := by
  refine keepsNumbers_bind (keepsNumbers_readNode id) fun n => ?_
  split
  · exact keepsNumbers_updateNode _ fun _ => ⟨rfl, rfl, rfl, rfl, rfl⟩
  · exact keepsNumbers_modify fun g => ⟨Nat.le_refl _, (Continues.refl g).node⟩

theorem slotCount_foldl_erase (m : NodeMap (Node S)) (l : List NodeId) :
    (l.foldl NodeMap.erase m).slotCount = m.slotCount := by
  induction l generalizing m with
  | nil => rfl
  | cons i l ih => simp [ih, NodeMap.erase, NodeMap.slotCount]

theorem keepsNumbers_prune (id : NodeId) : KeepsNumbers (prune id : Edit (Graph S) Unit) := by
  refine keepsNumbers_bind (keepsNumbers_readNode id) fun _ => ?_
  refine keepsNumbers_bind keepsNumbers_get fun t => ?_
  refine keepsNumbers_bind (keepsNumbers_forM _ fun n =>
    keepsNumbers_bind (keepsNumbers_uncover n) fun _ => keepsNumbers_clearCovered n) fun _ => ?_
  refine keepsNumbers_bind (keepsNumbers_detach id) fun _ => keepsNumbers_modify fun g => ?_
  refine ⟨Nat.le_of_eq (slotCount_foldl_erase ..).symm, fun {i n'} hi hn' => ?_⟩
  rw [Graph.get?, get?_foldl_erase] at hn'
  split at hn'
  · simp at hn'
  · exact ⟨n', hn', rfl, rfl, rfl, rfl, rfl⟩

theorem keepsNumbers_setInitialized (isInitialized : Bool) :
    KeepsNumbers (setInitialized isInitialized : Edit (Graph S) Unit) :=
  keepsNumbers_modify fun g => ⟨Nat.le_refl _, (Continues.refl g).node⟩

theorem keepsNumbers_edit (operation : Operation S) : KeepsNumbers operation.edit := by
  cases operation with
  | createInit state isTarget isFeasible =>
    refine keepsNumbers_bind (keepsNumbers_bind (keepsNumbers_allocate _) fun _ =>
      keepsNumbers_bind (keepsNumbers_modify fun g => ?_) fun _ => keepsNumbers_pure _)
      fun _ => keepsNumbers_pure _
    exact ⟨Nat.le_refl _, (Continues.refl g).node⟩
  | createSucc parent state isTarget isFeasible =>
    refine keepsNumbers_bind ?_ fun _ => keepsNumbers_pure _
    refine keepsNumbers_bind (keepsNumbers_readNode parent) fun _ => ?_
    refine keepsNumbers_bind (keepsNumbers_lift _) fun _ => ?_
    refine keepsNumbers_bind (keepsNumbers_allocate _) fun _ => ?_
    exact keepsNumbers_bind (keepsNumbers_updateNode _ fun _ => ⟨rfl, rfl, rfl, rfl, rfl⟩)
      fun _ => keepsNumbers_pure _
  | setExpanded id _ => exact keepsNumbers_updateNode id fun _ => ⟨rfl, rfl, rfl, rfl, rfl⟩
  | setInitialized isInitialized => exact keepsNumbers_setInitialized isInitialized
  | cover id coverer => exact keepsNumbers_cover id coverer
  | uncover id => exact keepsNumbers_uncover id
  | clearCovered id => exact keepsNumbers_clearCovered id
  | prune id => exact keepsNumbers_prune id
  | pruneAll =>
    exact keepsNumbers_bind keepsNumbers_get fun _ =>
      keepsNumbers_bind (keepsNumbers_forM _ keepsNumbers_prune) fun _ =>
        keepsNumbers_setInitialized false

theorem apply_eq_leftBy (operation : Operation S) (g : Graph S) :
    operation.apply g = leftBy operation.edit g := by
  unfold Operation.apply leftBy
  cases operation.edit.run g <;> rfl

/-- **A number never stands for another node after a call**, whatever becomes of the call. -/
theorem continues_apply (operation : Operation S) (g : Graph S) :
    g.Continues (operation.apply g) := by
  rw [apply_eq_leftBy]
  exact keepsNumbers_edit operation g

end KeepsNumbers

/-! ## One call -/

/-- The change ends in a result or leaves the graph alone. -/
def Atomic (x : Edit (Graph S) α) (g : Graph S) : Prop :=
  (∃ a g', x.run g = .ok a g') ∨ leftBy x g = g

section Atomic

variable {x : Edit (Graph S) α} {f : α → Edit (Graph S) β}

theorem atomic_bind_pure {b : β} (h : Atomic x g) : Atomic (x >>= fun _ => pure b) g := by
  rcases h with ⟨a, g', h⟩ | h
  · exact .inl ⟨b, g', Edit.run_bind_ok.2 ⟨a, g', h, Edit.run_pure_ok.2 ⟨rfl, rfl⟩⟩⟩
  · refine .inr ?_
    cases hrun : x.run g with
    | ok a g' => exact (leftBy_bind_of_ok hrun).trans ((leftBy_of_ok hrun).symm.trans h)
    | error fault g' => exact (leftBy_bind_of_error hrun).trans ((leftBy_of_error hrun).symm.trans h)

/-- A look at a node comes first. -/
theorem atomic_readNode_bind {f : Node S → Edit (Graph S) α}
    (hf : ∀ n, g.get? id = some n → Atomic (readNode id >>= f) g) : Atomic (readNode id >>= f) g := by
  cases hn : g.get? id with
  | none => exact .inr (leftBy_readNode_bind_of_none hn)
  | some n => exact hf n hn

theorem atomic_updateNode (id : NodeId) (f : Node S → Node S) (g : Graph S) :
    Atomic (updateNode id f) g := by
  cases hn : g.get? id with
  | none => exact .inr (leftBy_updateNode_of_none hn)
  | some n => exact .inl ⟨(), _, run_updateNode_ok.2 ⟨n, hn, rfl⟩⟩

theorem atomic_createSucc (parent : NodeId) (state : S) (isTarget isFeasible : Bool) (g : Graph S) :
    Atomic (createSucc parent state isTarget isFeasible) g := by
  refine atomic_readNode_bind fun n hn => ?_
  cases hcov : n.covering with
  | none => exact .inl (exists_createSucc hn hcov state isTarget isFeasible)
  | some c =>
    refine .inr ((leftBy_bind_of_ok (run_readNode_ok.2 ⟨hn, rfl⟩)).trans ?_)
    rw [show n.isCovered = true by simp [Node.isCovered, hcov]]
    exact leftBy_bind_of_error rfl

end Atomic

namespace WellFormed

/-- Drawing a covering edge is refused before the first write. -/
theorem atomic_cover (hwf : g.WellFormed) (id coverer : NodeId) :
    Atomic (Graph.cover id coverer) g := by
  by_cases hne : id = coverer
  · subst hne
    refine .inr ?_
    rw [Graph.cover, show (id != id) = false by simp]
    exact leftBy_bind_of_error rfl
  have hdiffer : (liftM (demand (id != coverer) (.coversItself id)) : Edit (Graph S) Unit).run g =
      .ok () g := by
    rw [show (id != coverer) = true by simpa using hne]
    rfl
  cases ha : g.get? id with
  | none =>
    exact .inr ((leftBy_bind_of_ok hdiffer).trans (leftBy_readNode_bind_of_none ha))
  | some a =>
    have hread := run_readNode_ok.2 ⟨ha, rfl⟩
    cases hua : a.covering with
    | some c =>
      refine .inr ((leftBy_bind_of_ok hdiffer).trans ((leftBy_bind_of_ok hread).trans ?_))
      rw [show a.isCovered = true by simp [Node.isCovered, hua]]
      exact leftBy_bind_of_error rfl
    | none =>
      have hfree : (liftM (demand (!a.isCovered) (.alreadyCovered id)) : Edit (Graph S) Unit).run g =
          .ok () g := by
        rw [show a.isCovered = false by simp [Node.isCovered, hua]]
        rfl
      cases hb : g.get? coverer with
      | none =>
        exact .inr ((leftBy_bind_of_ok hdiffer).trans ((leftBy_bind_of_ok hread).trans
          ((leftBy_bind_of_ok hfree).trans (leftBy_readNode_bind_of_none hb))))
      | some b =>
        cases hub : b.covering with
        | some c =>
          refine .inr ((leftBy_bind_of_ok hdiffer).trans ((leftBy_bind_of_ok hread).trans
            ((leftBy_bind_of_ok hfree).trans
              ((leftBy_bind_of_ok (run_readNode_ok.2 ⟨hb, rfl⟩)).trans ?_))))
          rw [show b.isCovered = true by simp [Node.isCovered, hub]]
          exact leftBy_bind_of_error rfl
        | none =>
          obtain ⟨g', hg'⟩ := exists_cover hwf ha hb hne hua hub
          exact .inl ⟨(), g', hg'⟩

theorem atomic_uncover (hwf : g.WellFormed) (id : NodeId) : Atomic (Graph.uncover id) g :=
  atomic_readNode_bind fun _ hn => .inl ⟨(), exists_uncover hwf hn⟩

theorem atomic_clearCovered (hwf : g.WellFormed) (id : NodeId) : Atomic (Graph.clearCovered id) g :=
  atomic_readNode_bind fun _ hn => .inl ⟨(), exists_clearCovered hwf hn⟩

theorem atomic_prune (hwf : g.WellFormed) (id : NodeId) : Atomic (Graph.prune id) g :=
  atomic_readNode_bind fun _ hn => .inl ⟨(), exists_prune hwf hn⟩

/-- The init nodes are pruned one after the other, and each leaves the others in the graph. -/
theorem exists_pruneAll (hwf : g.WellFormed) :
    ∃ g', pruneAll.run g = .ok () g' ∧ g'.WellFormed ∧ g'.initNodes = [] ∧
      g'.isInitialized = false := by
  obtain ⟨t, ht, hwft, hnil⟩ := Edit.exists_run_forM (f := prune)
    (motive := fun rest (t : Graph S) => t.WellFormed ∧ t.initNodes = rest)
    (fun i rest t ⟨hwf, hrest⟩ => by
      have hnodup := hwf.initNodes_nodup
      rw [hrest, List.nodup_cons] at hnodup
      obtain ⟨n, hn, -⟩ := hwf.init_parentless (hrest ▸ List.mem_cons_self)
      obtain ⟨t', ht'⟩ := exists_prune hwf hn
      have hpruned := prune_ok hwf ht'
      refine ⟨t', ht', hpruned.wellFormed hwf, ?_⟩
      rw [hpruned.initNodes, hrest, List.filter_cons_of_neg (by simp),
        filter_bne_of_notMem hnodup.1])
    ⟨hwf, rfl⟩
  refine ⟨{ t with isInitialized := false }, ?_, ?_, hnil, rfl⟩
  · simp only [pruneAll, Edit.run_bind_ok, Edit.run_get_ok]
    exact ⟨g, g, ⟨rfl, rfl⟩, (), t, ht, Edit.run_modify_ok.2 rfl⟩
  · exact ⟨hwft.parent_link, hwft.succ_link, hwft.init_link, hwft.init_parentless,
      hwft.covering_link, hwft.covered_link⟩

/-- **A call ends in a result or leaves the graph alone**, if the links of the graph agree. -/
theorem atomic_edit (hwf : g.WellFormed) (operation : Operation S) : Atomic operation.edit g := by
  cases operation with
  | createInit state isTarget isFeasible =>
    refine atomic_bind_pure (.inl ⟨g.nodes.slotCount, ?_⟩)
    simp only [Graph.createInit, Edit.run_bind_ok, run_allocate_ok, Edit.run_modify_ok,
      Edit.run_pure_ok]
    exact ⟨_, _, _, ⟨rfl, rfl⟩, ⟨⟩, _, rfl, rfl, rfl⟩
  | createSucc parent state isTarget isFeasible =>
    exact atomic_bind_pure (atomic_createSucc parent state isTarget isFeasible g)
  | setExpanded id isExpanded => exact atomic_updateNode id _ g
  | setInitialized isInitialized => exact .inl ⟨(), _, rfl⟩
  | cover id coverer => exact hwf.atomic_cover id coverer
  | uncover id => exact hwf.atomic_uncover id
  | clearCovered id => exact hwf.atomic_clearCovered id
  | prune id => exact hwf.atomic_prune id
  | pruneAll =>
    obtain ⟨g', hg', -⟩ := hwf.exists_pruneAll
    exact .inl ⟨(), g', hg'⟩

theorem of_run_edit (hwf : g.WellFormed) {operation : Operation S}
    (h : operation.edit.run g = .ok () g') : g'.WellFormed := by
  cases operation with
  | createInit state isTarget isFeasible =>
    obtain ⟨_, t, ht, h⟩ := Edit.run_bind_ok.1 h
    obtain ⟨-, rfl⟩ := Edit.run_pure_ok.1 h
    exact hwf.createInit ht
  | createSucc parent state isTarget isFeasible =>
    obtain ⟨_, t, ht, h⟩ := Edit.run_bind_ok.1 h
    obtain ⟨-, rfl⟩ := Edit.run_pure_ok.1 h
    exact hwf.createSucc ht
  | setExpanded id isExpanded => exact hwf.setExpanded h
  | setInitialized isInitialized =>
    obtain rfl := Edit.run_modify_ok.1 h
    exact ⟨hwf.parent_link, hwf.succ_link, hwf.init_link, hwf.init_parentless, hwf.covering_link,
      hwf.covered_link⟩
  | cover id coverer => exact hwf.cover h
  | uncover id => exact hwf.uncover h
  | clearCovered id => exact hwf.clearCovered h
  | prune id =>
    have hpruned := prune_ok hwf h
    exact hpruned.wellFormed hwf
  | pruneAll =>
    obtain ⟨t, ht, hwft, -⟩ := hwf.exists_pruneAll
    obtain rfl : t = g' := (EStateM.Result.ok.inj (ht.symm.trans h)).2
    exact hwft

/-- The links agree after a call, also if it failed. -/
theorem apply (hwf : g.WellFormed) (operation : Operation S) : (operation.apply g).WellFormed := by
  rw [apply_eq_leftBy]
  obtain ⟨u, g', h⟩ | h := hwf.atomic_edit operation
  · rw [leftBy_of_ok h]
    exact hwf.of_run_edit h
  · rwa [h]

end WellFormed

/-! ## Sequences of calls -/

theorem after_append (earlier later : List (Operation S)) :
    after (earlier ++ later) =
      later.foldl (fun g operation => operation.apply g) (after earlier) :=
  List.foldl_append

theorem wellFormed_after (operations : List (Operation S)) : (after operations).WellFormed := by
  induction operations using List.reverseRecOn with
  | nil => exact .empty
  | append_singleton operations operation ih =>
    rw [after_append]
    exact ih.apply operation

theorem continues_foldl (later : List (Operation S)) (g : Graph S) :
    g.Continues (later.foldl (fun g operation => operation.apply g) g) := by
  induction later generalizing g with
  | nil => exact .refl g
  | cons operation later ih => exact (continues_apply operation g).trans (ih _)

theorem continues_after (earlier later : List (Operation S)) :
    (after earlier).Continues (after (earlier ++ later)) := by
  rw [after_append]
  exact continues_foldl later _

/-- **The links of a graph agree after every sequence of calls**, whether or not some of them fail.
No later call gives a number to another node. So the walks along the tree edges go on until there is
nowhere left to go, and the descendants of a node are the nodes that have it as an ancestor, each
once. -/
theorem after_wellFormed (operations : List (Operation S)) :
    (after operations).WellFormed ∧
      (∀ later, (after operations).Continues (after (operations ++ later))) ∧
      ∀ id n, (after operations).get? id = some n →
        (after operations).ancestors id = id :: n.parent.elim [] (after operations).ancestors ∧
        (after operations).descendants id =
          id :: n.succs.flatMap (after operations).descendants ∧
        ((after operations).descendants id).Nodup ∧
        ∀ i, i ∈ (after operations).descendants id ↔
          (after operations).contains i = true ∧ id ∈ (after operations).ancestors i := by
  have hwf := wellFormed_after operations
  refine ⟨hwf, continues_after operations, fun id n hn => ⟨hwf.ancestors_eq hn,
    hwf.descendants_eq hn, hwf.nodup_descendants hn, fun i => ?_⟩⟩
  rw [hwf.mem_descendants_iff hn, contains_iff]

end GuidedReach.Graph
