import GuidedReach.Proofs.Results
import GuidedReach.TransitionSystem.Parts
import GuidedReach.TransitionSystem.Walk

/-!
# Tables of successors

A table of successors is filled edge by edge. After each edge it lists, for every state, the ends of the
edges so far, in the order in which they first occurred.

* `TransitionSystem.ListsEnds.concat`, `TransitionSystem.ListsEnds.unique` — one more edge, and that
  there is only one such list.
* `TransitionSystem.Tabulates`, `TransitionSystem.Tabulates.enter` — what a table holds, and what it
  holds after one more edge.
* `TransitionSystem.tabulates_adjacency`, `TransitionSystem.adjacency?_eq` — the table of all edges,
  which is filled without an access out of its range.
* `TransitionSystem.listsEnds_successors`, `TransitionSystem.mem_successors` — the successors of a
  state.
* `TransitionSystem.successors?_eq` — whose successors can be looked up.
-/

namespace GuidedReach.TransitionSystem

variable {states source dest s t : Nat} {edges : List (Nat × Nat)} {ends ends' : List Nat}
variable {succs : Array (List Nat)} {system : TransitionSystem}

/-! ## Lists of ends -/

namespace ListsEnds

theorem nil (s : Nat) : ListsEnds [] s [] := ⟨by simp, .nil⟩

theorem nodup (h : ListsEnds edges s ends) : ends.Nodup :=
  h.ordered.imp fun hlt heq => (heq ▸ hlt).ne rfl

/-- There is only one list of the ends of some edges. -/
theorem unique (h : ListsEnds edges s ends) (h' : ListsEnds edges s ends') : ends = ends' :=
  List.Perm.eq_of_pairwise (fun _ _ _ _ hlt hgt => absurd hgt hlt.asymm) h.ordered h'.ordered
    ((List.perm_ext_iff_of_nodup h.nodup h'.nodup).2 fun t => (h.mem t).trans (h'.mem t).symm)

/-- The ends that are listed keep their order when an edge is added. -/
theorem ordered_concat (h : ListsEnds edges s ends) (edge : Nat × Nat) :
    ends.Pairwise fun first second =>
      (edges ++ [edge]).idxOf (s, first) < (edges ++ [edge]).idxOf (s, second) :=
  h.ordered.imp_of_mem fun hfirst hsecond hlt => by
    rwa [List.idxOf_append_of_mem ((h.mem _).1 hfirst), List.idxOf_append_of_mem ((h.mem _).1 hsecond)]

/-- An edge from another state adds no end. -/
theorem concat_of_ne (h : ListsEnds edges s ends) (hne : source ≠ s) :
    ListsEnds (edges ++ [(source, dest)]) s ends where
  mem t := by simp [h.mem, hne.symm]
  ordered := h.ordered_concat _

/-- **One more edge from the state** adds its end, unless an earlier edge has the same end. -/
theorem concat (h : ListsEnds edges s ends) (dest : Nat) :
    ListsEnds (edges ++ [(s, dest)]) s (if dest ∈ ends then ends else ends ++ [dest]) := by
  split
  · rename_i hdest
    refine ⟨fun t => ?_, h.ordered_concat _⟩
    rw [List.mem_append, List.mem_singleton, h.mem, or_iff_left_of_imp]
    rintro ⟨⟩
    exact (h.mem dest).1 hdest
  · rename_i hdest
    refine ⟨fun t => by simp [h.mem], List.pairwise_append.2
      ⟨h.ordered_concat _, List.pairwise_singleton _ _, fun first hfirst second hsecond => ?_⟩⟩
    -- the new edge occurs at the end, and those of the listed ends before it
    obtain rfl := List.mem_singleton.1 hsecond
    rw [List.idxOf_append_of_mem ((h.mem first).1 hfirst),
      List.idxOf_append_of_notMem (mt (h.mem second).2 hdest)]
    exact Nat.lt_add_right _ (List.idxOf_lt_length_of_mem ((h.mem first).1 hfirst))

end ListsEnds

/-! ## Tables -/

/-- The table has a place for each state, with the ends of its edges. -/
structure Tabulates (states : Nat) (edges : List (Nat × Nat)) (succs : Array (List Nat)) : Prop where
  size_eq : succs.size = states
  lists : ∀ s < states, ∃ ends, succs[s]? = some ends ∧ ListsEnds edges s ends

theorem tabulates_replicate (states : Nat) : Tabulates states [] (Array.replicate states []) where
  size_eq := Array.size_replicate
  lists s hs := ⟨[], by simp [hs], .nil s⟩

/-- **One more edge is entered** into the list of its source. -/
theorem Tabulates.enter (h : Tabulates states edges succs) (source dest : Nat) :
    Tabulates states (edges ++ [(source, dest)])
      (succs.modify source fun known => if dest ∈ known then known else known ++ [dest]) where
  size_eq := Array.size_modify.trans h.size_eq
  lists s hs := by
    obtain ⟨ends, hends, hlists⟩ := h.lists s hs
    rw [Array.getElem?_modify, hends]
    split
    · rename_i heq
      subst heq
      exact ⟨_, rfl, hlists.concat dest⟩
    · rename_i hne
      exact ⟨ends, rfl, hlists.concat_of_ne hne⟩

theorem adjacency_concat (states : Nat) (edges : List (Nat × Nat)) (source dest : Nat) :
    adjacency states (edges ++ [(source, dest)]) = (adjacency states edges).modify source
      fun known => if dest ∈ known then known else known ++ [dest] := by
  rw [adjacency, List.foldl_concat]
  rfl

/-- **The table of some edges**, by induction on the edges that have been entered. -/
theorem tabulates_adjacency (states : Nat) (edges : List (Nat × Nat)) :
    Tabulates states edges (adjacency states edges) := by
  induction edges using List.reverseRecOn with
  | nil => exact tabulates_replicate states
  | append_singleton edges edge ih =>
    obtain ⟨source, dest⟩ := edge
    rw [adjacency_concat]
    exact ih.enter source dest

/-- Where there is a place for the source of an edge, the edge is entered there. -/
theorem enter?_eq (hsource : source < succs.size) :
    enter? succs (source, dest) =
      .ok (succs.modify source fun known => if dest ∈ known then known else known ++ [dest]) := by
  have hknown : succs[source]? = some succs[source] := Array.getElem?_eq_getElem hsource
  simp only [enter?, hknown]
  refine congrArg Except.ok (Array.ext_getElem? fun i => ?_)
  rw [Array.getElem?_modify]
  by_cases hi : source = i
  · subst hi
    split <;> simp [*]
  · split <;> simp [hi]

/-- **No access is out of range** while a table is filled, if all edges start in states. -/
theorem adjacency?_eq (h : ∀ e ∈ edges, e.1 < states) :
    adjacency? states edges = .ok (adjacency states edges) := by
  induction edges using List.reverseRecOn with
  | nil => rfl
  | append_singleton edges edge ih =>
    obtain ⟨source, dest⟩ := edge
    have hbefore : adjacency? states edges = .ok (adjacency states edges) :=
      ih fun e he => h e (List.mem_append_left _ he)
    have hsource : source < (adjacency states edges).size := by
      rw [(tabulates_adjacency states edges).size_eq]
      exact h _ (List.mem_append_right _ (List.mem_singleton_self _))
    rw [adjacency?, List.foldlM_append, ← adjacency?, hbefore, ok_bind, List.foldlM_cons,
      enter?_eq hsource, adjacency_concat]
    rfl

/-! ## Successors -/

theorem size_succs (system : TransitionSystem) : system.succs.size = system.states := by
  rw [system.succs_eq, (tabulates_adjacency _ _).size_eq]

/-- The place of a state in the table holds its successors. -/
theorem getElem?_succs (hs : s < system.states) :
    system.succs[s]? = some (system.successors s) := by
  have hlt : s < system.succs.size := by rwa [size_succs]
  rw [successors, Array.getElem?_eq_getElem hlt, Option.getD_some]

/-- **The successors of a state are the ends of its edges**, in the order in which they first occur. -/
theorem listsEnds_successors (hs : s < system.states) :
    ListsEnds system.edges s (system.successors s) := by
  obtain ⟨ends, hends, hlists⟩ := (tabulates_adjacency system.states system.edges).lists s hs
  rw [← system.succs_eq, getElem?_succs hs] at hends
  exact Option.some.inj hends ▸ hlists

theorem mem_successors : t ∈ system.successors s ↔ system.Step s t := by
  by_cases hs : s < system.states
  · exact (listsEnds_successors hs).mem t
  · have hnone : system.succs[s]? = none :=
      Array.getElem?_eq_none (by rw [size_succs]; exact Nat.le_of_not_lt hs)
    refine iff_of_false ?_ fun hstep => hs (system.edges_lt _ hstep).1
    rw [successors, hnone]
    exact List.not_mem_nil

/-! ## Checked accesses -/

theorem checkStates_eq {states : List Nat} (h : ∀ s ∈ states, s < system.states) :
    system.checkStates states = .ok () :=
  demand_eq_ok.2 (List.all_eq_true.2 fun s hs => decide_eq_true (h s hs))

/-- The successors of a number can be looked up just in case it is a state. -/
theorem successors?_eq (system : TransitionSystem) (s : Nat) :
    system.successors? s =
      if s < system.states then .ok (system.successors s) else .error .stateOutOfRange := by
  split
  · rename_i hs
    rw [successors?, checkStates_eq (List.forall_mem_singleton.2 hs)]
    rfl
  · rename_i hs
    have hrefused : system.checkStates [s] = .error .stateOutOfRange := by simp [checkStates, demand, hs]
    rw [successors?, hrefused]
    rfl

end GuidedReach.TransitionSystem
