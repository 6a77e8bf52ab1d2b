import GuidedReach.Proofs.Graph.Leaves
import Mathlib.Data.List.Pairwise
import Mathlib.Order.Defs.PartialOrder

/-!
# The numbers of the nodes

`Graph.ids` lists the nodes in ascending order, so it is determined by which nodes there are. New
nodes get larger numbers than all others and are listed last.

* `Graph.eq_ids` — a list of the nodes in ascending order is `Graph.ids`.
* `Graph.Rewritten.ids`, `Graph.ids_cover` — covering edges do not matter.
* `Graph.ids_seed`, `Graph.ids_expand` — growing a graph appends the new nodes.
-/

namespace GuidedReach.Graph

variable {S P K : Type} {g g' : Graph S} {id : NodeId} {new l : List NodeId}

theorem ids_ascending (g : Graph S) : g.ids.Pairwise (· < ·) :=
  List.pairwise_lt_range.filter _

theorem eq_ids (hl : l.Pairwise (· < ·)) (hmem : ∀ i, i ∈ l ↔ ∃ n, g.get? i = some n) :
    l = g.ids :=
  hl.eq_of_mem_iff g.ids_ascending fun i => (hmem i).trans mem_ids.symm

/-- The nodes are the same, and so are their numbers. -/
theorem ids_eq_of_forall (h : ∀ i, (∃ n, g'.get? i = some n) ↔ ∃ n, g.get? i = some n) :
    g'.ids = g.ids :=
  eq_ids g'.ids_ascending fun i => mem_ids.trans (h i)

theorem Rewritten.ids {f : NodeId → Node S → Node S} (h : Rewritten f g g') : g'.ids = g.ids := by
  refine ids_eq_of_forall fun i => ?_
  rw [h.get?]
  cases g.get? i <;> simp

/-- A new node is listed last. -/
theorem Created.ids {f : NodeId → Node S → Node S} {node : Node S} (h : Created f id node g g') :
    g'.ids = g.ids ++ [id] := by
  refine (eq_ids (List.pairwise_append.2 ⟨g.ids_ascending, List.pairwise_singleton _ _, ?_⟩)
    fun i => ?_).symm
  · intro i hi j hj
    obtain ⟨n, hn⟩ := mem_ids.1 hi
    exact List.mem_singleton.1 hj ▸ h.lt_id hn
  · rw [List.mem_append, List.mem_singleton, mem_ids]
    constructor
    · rintro (⟨n, hn⟩ | rfl)
      · exact ⟨_, h.get?_of_get? hn⟩
      · exact ⟨_, h.get?_id⟩
    · rintro ⟨n', hn'⟩
      obtain ⟨rfl, -⟩ | ⟨n, hn, -⟩ := h.cases_of_get? hn'
      · exact .inr rfl
      · exact .inl ⟨n, hn⟩

theorem ids_cover (hwf : g.WellFormed) {coverer : NodeId} {u : Unit}
    (h : (cover id coverer).run g = .ok u g') : g'.ids = g.ids := by
  obtain ⟨-, _, _, -, -, -, -, hrewritten⟩ := cover_ok hwf h
  exact hrewritten.ids

section

variable [DecidableEq S] {analysis : Analysis S P K} {prec : P} {states : List S}

theorem ids_addInitStates (h : (addInitStates analysis states).run g = .ok new g') :
    g'.ids = g.ids ++ new := by
  induction states generalizing g new with
  | nil =>
    obtain ⟨rfl, rfl⟩ := Edit.run_pure_ok.1 h
    exact (List.append_nil _).symm
  | cons s states ih =>
    simp only [addInitStates, Edit.run_bind_ok, Edit.run_get_ok] at h
    obtain ⟨_, _, ⟨rfl, rfl⟩, h⟩ := h
    split at h
    · exact ih h
    · simp only [Edit.run_bind_ok, Edit.run_pure_ok] at h
      obtain ⟨id, t, hid, rest, _, hrest, rfl, rfl⟩ := h
      rw [ih hrest, (createInit_ok hid).1.ids, List.append_assoc, List.singleton_append]

theorem ids_seed (h : (seed analysis prec).run g = .ok new g') : g'.ids = g.ids ++ new := by
  simp only [seed, Edit.run_bind_ok, Edit.run_pure_ok] at h
  obtain ⟨_, t, hadd, _, _, hset, rfl, rfl⟩ := h
  obtain rfl := Edit.run_modify_ok.1 hset
  have hids : t.ids = g.ids ++ _ := ids_addInitStates hadd
  exact hids

theorem ids_addSuccStates (h : (addSuccStates analysis id states).run g = .ok new g') :
    g'.ids = g.ids ++ new := by
  induction states generalizing g new with
  | nil =>
    obtain ⟨rfl, rfl⟩ := Edit.run_pure_ok.1 h
    exact (List.append_nil _).symm
  | cons s states ih =>
    simp only [addSuccStates, Edit.run_bind_ok, Edit.run_get_ok, run_readNode_ok] at h
    obtain ⟨_, _, ⟨-, rfl⟩, _, _, ⟨rfl, rfl⟩, h⟩ := h
    split at h
    · exact ih h
    · simp only [Edit.run_bind_ok, Edit.run_pure_ok] at h
      obtain ⟨child, t, hchild, rest, _, hrest, rfl, rfl⟩ := h
      obtain ⟨_, -, -, hcreated, -⟩ := createSucc_ok hchild
      rw [ih hrest, hcreated.ids, List.append_assoc, List.singleton_append]

theorem ids_expand (h : (expand analysis id prec).run g = .ok new g') :
    g'.ids = g.ids ++ new := by
  simp only [expand, Edit.run_bind_ok, run_readNode_ok, Edit.run_lift_ok, Edit.run_pure_ok] at h
  obtain ⟨_, _, ⟨-, rfl⟩, _, _, ⟨-, rfl⟩, _, t, hadd, _, _, hset, rfl, rfl⟩ := h
  rw [(rewritten_of_setExpanded hset).2.ids, ids_addSuccStates hadd]

end

end GuidedReach.Graph
