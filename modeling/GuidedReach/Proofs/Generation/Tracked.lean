import GuidedReach.Proofs.Generation.Writes
import GuidedReach.Proofs.Graph.Edits

/-!
# Search nodes keep track of the graph

A write to a search node fails when the search node is missing or when the value does not fit it. So
every node of a graph is meant to have a search node and to be filed under its key, save for the
nodes that were just created.

* `SearchNode.exists_setHeuristic`, `SearchNode.exists_setDistance` — checked writes that succeed.
* `Generation.Tracked` — search nodes and buckets mirror the graph, save for nodes still to register.
* `Generation.Tracked.of_rewrites`, `Generation.Tracked.register`, `Generation.Tracked.of_grows` —
  changes that keep track.
* `Generation.exists_dropPruned` — after pruning, search nodes can be matched with what is left.
-/

namespace GuidedReach

/-! ## Checked writes -/

namespace SearchNode

variable {k : SearchNode} {value : Distance} {isTarget : Bool}

/-- A known value that is there already may be written again; an open one may be written if it fits
the node and the distance. -/
theorem exists_setHeuristic (hvalue : value.isKnown = true)
    (hold : k.heuristic = value ∨ k.heuristic = .unknown ∧ (isTarget = true → value = .zero) ∧
      (k.distance.isKnown = true → value.notAbove k.distance = true)) :
    ∃ k', (setHeuristic value isTarget).run k = .ok () k' := by
  simp only [setHeuristic, Edit.run_bind_ok, Edit.run_lift_ok, Edit.run_get_ok, demand_eq_ok]
  obtain rfl | ⟨hunknown, htarget, hfits⟩ := hold
  · exact ⟨k, (), k, ⟨hvalue, rfl⟩, k, k, ⟨rfl, rfl⟩, by
      rw [if_pos hvalue]
      exact Edit.run_lift_ok.2 ⟨demand_eq_ok.2 (beq_self_eq_true _), rfl⟩⟩
  · refine ⟨{ k with heuristic := value }, (), k, ⟨hvalue, rfl⟩, k, k, ⟨rfl, rfl⟩, ?_⟩
    rw [if_neg (by simp [hunknown, Distance.isKnown])]
    simp only [Edit.run_bind_ok, Edit.run_lift_ok, Edit.run_get_ok, Edit.run_set_ok, demand_eq_ok]
    refine ⟨(), k, ⟨?_, rfl⟩, ⟨⟩, _, rfl, _, _, ⟨rfl, rfl⟩, checkAdmissible_eq_ok.2 ?_, rfl⟩
    · cases isTarget <;> simp_all
    · exact fun _ hknown => hfits hknown

theorem exists_setDistance (hvalue : value.isKnown = true)
    (hold : k.distance = value ∨ k.distance = .unknown ∧ (isTarget = true → value = .zero) ∧
      (k.heuristic.isKnown = true → k.heuristic.notAbove value = true)) :
    ∃ k', (setDistance value isTarget).run k = .ok () k' := by
  simp only [setDistance, Edit.run_bind_ok, Edit.run_lift_ok, Edit.run_get_ok, demand_eq_ok]
  obtain rfl | ⟨hunknown, htarget, hfits⟩ := hold
  · exact ⟨k, (), k, ⟨hvalue, rfl⟩, k, k, ⟨rfl, rfl⟩, by
      rw [if_pos hvalue]
      exact Edit.run_lift_ok.2 ⟨demand_eq_ok.2 (beq_self_eq_true _), rfl⟩⟩
  · refine ⟨{ k with distance := value }, (), k, ⟨hvalue, rfl⟩, k, k, ⟨rfl, rfl⟩, ?_⟩
    rw [if_neg (by simp [hunknown, Distance.isKnown])]
    simp only [Edit.run_bind_ok, Edit.run_lift_ok, Edit.run_get_ok, Edit.run_set_ok, demand_eq_ok]
    refine ⟨(), k, ⟨?_, rfl⟩, ⟨⟩, _, rfl, _, _, ⟨rfl, rfl⟩, checkAdmissible_eq_ok.2 ?_, rfl⟩
    · cases isTarget <;> simp_all
    · exact fun hknown _ => hfits hknown

/-- Values that fit a node pass the check. -/
theorem exists_checkFits (hheuristic : isTarget = true → k.heuristic.isKnown = true →
      k.heuristic = .zero)
    (hdistance : isTarget = true → k.distance.isKnown = true → k.distance = .zero)
    (hk : k.Admissible) : k.checkFits isTarget = .ok () := by
  have hadmissible := checkAdmissible_eq_ok.2 hk
  unfold checkFits
  cases hh : k.heuristic.isKnown <;> cases hd : k.distance.isKnown <;> cases isTarget <;>
    simp_all [bind_eq_ok, demand_eq_ok]

end SearchNode

namespace Generation

variable {S P K : Type} {gen gen' : Generation S P K} {id : NodeId} {value : Distance}

theorem exists_setHeuristic {n : Node S} {k : SearchNode} (hn : gen.graph.get? id = some n)
    (hk : gen.searchNodes.get? id = some k) (hvalue : value.isKnown = true)
    (hold : k.heuristic = value ∨ k.heuristic = .unknown ∧ (n.isTarget = true → value = .zero) ∧
      (k.distance.isKnown = true → value.notAbove k.distance = true)) :
    ∃ gen', gen.setHeuristic id value = .ok gen' := by
  obtain ⟨k', hk'⟩ := SearchNode.exists_setHeuristic hvalue hold
  simp only [setHeuristic, editSearchNode, bind_eq_ok, Graph.node_eq_ok, searchNode_eq_ok,
    Edit.result_eq_ok, pure_eq_ok, Prod.exists]
  exact ⟨_, n, hn, k, hk, (), k', hk', rfl⟩

theorem exists_setDistance {n : Node S} {k : SearchNode} (hn : gen.graph.get? id = some n)
    (hk : gen.searchNodes.get? id = some k) (hvalue : value.isKnown = true)
    (hold : k.distance = value ∨ k.distance = .unknown ∧ (n.isTarget = true → value = .zero) ∧
      (k.heuristic.isKnown = true → k.heuristic.notAbove value = true)) :
    ∃ gen', gen.setDistance id value = .ok gen' := by
  obtain ⟨k', hk'⟩ := SearchNode.exists_setDistance hvalue hold
  simp only [setDistance, editSearchNode, bind_eq_ok, Graph.node_eq_ok, searchNode_eq_ok,
    Edit.result_eq_ok, pure_eq_ok, Prod.exists]
  exact ⟨_, n, hn, k, hk, (), k', hk', rfl⟩

end Generation

/-! ## Search nodes and buckets -/

section Buckets

variable {K : Type} [DecidableEq K]

namespace Buckets

theorem find_cons (k key : K) (ids : List NodeId) (rest : Buckets K) :
    find ((k, ids) :: rest) key = if key = k then ids else find rest key := by
  by_cases hkey : key = k
  · simp [find, hkey]
  · simp [find, List.lookup_cons, hkey, beq_false_of_ne hkey]

theorem find_file (buckets : Buckets K) (key key' : K) (id : NodeId) :
    (buckets.file key id).find key' =
      if key' = key then buckets.find key ++ [id] else buckets.find key' := by
  induction buckets with
  | nil =>
    rw [file, find_cons]
    simp [find]
  | cons first rest ih =>
    obtain ⟨k, ids⟩ := first
    simp only [file]
    split
    · rename_i hk
      subst hk
      simp only [find_cons, if_true]
      split <;> rfl
    · rename_i hk
      simp only [find_cons, ih, if_neg hk]
      by_cases hkey : key' = key
      · rw [if_pos hkey, if_neg (hkey ▸ hk), if_pos hkey]
      · simp [hkey]

end Buckets

end Buckets

namespace Generation

variable {S P K : Type} [DecidableEq K] {analysis : Analysis S P K}
variable {gen gen' : Generation S P K} {id : NodeId} {pending : List NodeId}

/-- Search nodes and buckets mirror the graph, save for some nodes that are still to be
registered. -/
structure Tracked (pending : List NodeId) (gen : Generation S P K) : Prop where
  registered : ∀ {i n}, gen.graph.get? i = some n → i ∉ pending →
    ∃ k, gen.searchNodes.get? i = some k
  held : ∀ {i k}, gen.searchNodes.get? i = some k → i ∉ pending ∧ ∃ n, gen.graph.get? i = some n
  pending_nodup : pending.Nodup
  pending_held : ∀ {i}, i ∈ pending → ∃ n, gen.graph.get? i = some n
  filed : ∀ key {i}, i ∈ gen.buckets.find key → ∃ k, gen.searchNodes.get? i = some k

namespace Tracked

/-- There is nothing to keep track of in an empty generation. -/
theorem of_empty (prec : P) : ({ graph := {}, prec } : Generation S P K).Tracked [] where
  registered hn := by simp [Graph.get?, NodeMap.get?_empty] at hn
  held hk := by simp [NodeMap.get?_empty] at hk
  pending_nodup := List.nodup_nil
  pending_held := by simp
  filed key i hi := by simp [Buckets.find] at hi

/-- A search node is written anew. -/
theorem of_rewrites (h : gen.Tracked pending) {k k' : SearchNode}
    (hk : gen.searchNodes.get? id = some k) (hrewrites : gen.Rewrites gen' id k')
    (hbuckets : gen'.buckets = gen.buckets) : gen'.Tracked pending := by
  have hheld : ∀ i, (∃ k, gen'.searchNodes.get? i = some k) ↔
      ∃ k, gen.searchNodes.get? i = some k := by
    intro i
    rw [hrewrites.get?]
    split
    · rename_i heq
      exact heq ▸ ⟨fun _ => ⟨k, hk⟩, fun _ => ⟨k', rfl⟩⟩
    · exact Iff.rfl
  constructor
  · intro i n hn hi
    rw [hrewrites.graph] at hn
    exact (hheld i).2 (h.registered hn hi)
  · intro i k hi
    obtain ⟨k, hk⟩ := (hheld i).1 ⟨k, hi⟩
    rw [hrewrites.graph]
    exact h.held hk
  · exact h.pending_nodup
  · rw [hrewrites.graph]
    exact h.pending_held
  · intro key i hi
    rw [hbuckets] at hi
    exact (hheld i).2 (h.filed key hi)

/-- A pending node has no search node yet. -/
theorem get?_eq_none (h : gen.Tracked pending) (hid : id ∈ pending) :
    gen.searchNodes.get? id = none := by
  cases hk : gen.searchNodes.get? id with
  | none => rfl
  | some k => exact absurd hid (h.held hk).1

/-- **The next pending node can be registered.** -/
theorem register (h : gen.Tracked (id :: pending)) (analysis : Analysis S P K) (k : SearchNode) :
    ∃ gen', gen.register analysis id k = .ok gen' ∧ gen'.Tracked pending := by
  obtain ⟨n, hn⟩ := h.pending_held List.mem_cons_self
  obtain ⟨hid, hnodup⟩ := List.nodup_cons.1 h.pending_nodup
  have hnone := h.get?_eq_none List.mem_cons_self
  let gen' : Generation S P K := { gen with
    searchNodes := gen.searchNodes.insert id k
    attached := gen.attached ++ [id]
    buckets := gen.buckets.file (analysis.key n.state) id }
  have hself : gen'.searchNodes.get? id = some k := by simp [gen', NodeMap.get?_insert]
  have hother : ∀ {i}, i ≠ id → gen'.searchNodes.get? i = gen.searchNodes.get? i := by
    intro i hne
    simp [gen', NodeMap.get?_insert, hne]
  refine ⟨gen', ?_, ?_, ?_, hnodup, fun hi => h.pending_held (List.mem_cons_of_mem _ hi), ?_⟩
  · simp only [Generation.register, bind_eq_ok, Graph.node_eq_ok, demand_eq_ok, pure_eq_ok]
    exact ⟨n, hn, (), by simp [NodeMap.contains, hnone], rfl⟩
  · intro i m hm hi
    rcases eq_or_ne i id with rfl | hne
    · exact ⟨k, hself⟩
    · rw [hother hne]
      exact h.registered hm (by simp [hne, hi])
  · intro i k' hk'
    rcases eq_or_ne i id with rfl | hne
    · exact ⟨hid, n, hn⟩
    · rw [hother hne] at hk'
      obtain ⟨hi, hm⟩ := h.held hk'
      exact ⟨fun hmem => hi (List.mem_cons_of_mem _ hmem), hm⟩
  · intro key i hi
    rcases eq_or_ne i id with rfl | hne
    · exact ⟨k, hself⟩
    · rw [hother hne]
      have hfiled : i ∈ (gen.buckets.file (analysis.key n.state) id).find key := hi
      rw [Buckets.find_file] at hfiled
      split at hfiled
      · rcases List.mem_append.1 hfiled with hold | hnew
        · exact h.filed _ hold
        · exact absurd (List.mem_singleton.1 hnew) hne
      · exact h.filed key hfiled

/-- The graph grew, and its new nodes are still to be registered. -/
theorem of_grows (h : gen.Tracked []) {graph : Graph S} {new : List NodeId}
    (hgrows : gen.graph.Grows graph)
    (hold : ∀ {i n'}, graph.get? i = some n' → i ∉ new → ∃ n, gen.graph.get? i = some n)
    (hnew : ∀ {i}, i ∈ new → gen.graph.get? i = none ∧ ∃ n, graph.get? i = some n)
    (hnodup : new.Nodup) : ({ gen with graph } : Generation S P K).Tracked new := by
  constructor
  · intro i n hn hi
    obtain ⟨m, hm⟩ := hold hn hi
    exact h.registered hm List.not_mem_nil
  · intro i k hk
    obtain ⟨-, n, hn⟩ := h.held hk
    obtain ⟨n', hn', -⟩ := hgrows.node hn
    refine ⟨fun hi => ?_, n', hn'⟩
    rw [(hnew hi).1] at hn
    cases hn
  · exact hnodup
  · exact fun hi => (hnew hi).2
  · exact h.filed

end Tracked

/-! ### After pruning -/

/-- Whatever is found after nodes were filed was found before or is one of them. -/
theorem mem_find_foldl_file {nodes : List (NodeId × Node S)} {buckets : Buckets K} {key : K}
    (hid : id ∈ (nodes.foldl
      (fun buckets entry => Buckets.file (analysis.key entry.2.state) entry.1 buckets)
      buckets).find key) :
    id ∈ buckets.find key ∨ ∃ n, (id, n) ∈ nodes := by
  induction nodes generalizing buckets with
  | nil => exact .inl hid
  | cons first rest ih =>
    obtain ⟨i, n⟩ := first
    rcases ih hid with hmem | ⟨m, hm⟩
    · rw [Buckets.find_file] at hmem
      split at hmem
      · rename_i heq
        rcases List.mem_append.1 hmem with hmem | hmem
        · exact .inl (heq ▸ hmem)
        · rw [List.mem_singleton.1 hmem]
          exact .inr ⟨n, List.mem_cons_self⟩
      · exact .inl hmem
    · exact .inr ⟨m, List.mem_cons_of_mem _ hm⟩

/-- **Search nodes of pruned nodes can be dropped**, if all nodes that are left have one. -/
theorem exists_dropPruned (analysis : Analysis S P K) (gen : Generation S P K)
    (h : ∀ {i n}, gen.graph.get? i = some n → ∃ k, gen.searchNodes.get? i = some k) :
    ∃ gen', gen.dropPruned analysis = .ok gen' ∧ gen'.Tracked [] := by
  have hkept : ∀ i, (gen.searchNodes.filterIds gen.graph.contains).get? i =
      if gen.graph.contains i then gen.searchNodes.get? i else none := NodeMap.get?_filterIds _ _
  have hregistered : ∀ {i n}, gen.graph.get? i = some n →
      ∃ k, (gen.searchNodes.filterIds gen.graph.contains).get? i = some k := by
    intro i n hn
    obtain ⟨k, hk⟩ := h hn
    rw [hkept, if_pos (Graph.contains_iff.2 ⟨n, hn⟩)]
    exact ⟨k, hk⟩
  have hall : gen.graph.ids.forM (fun id => demand
      ((gen.searchNodes.filterIds gen.graph.contains).contains id) (.noSearchNode id)) = .ok () := by
    refine forM_eq_ok.2 fun i hi => demand_eq_ok.2 ?_
    obtain ⟨n, hn⟩ := Graph.mem_ids.1 hi
    exact Option.isSome_iff_exists.2 (hregistered hn)
  refine ⟨_, bind_eq_ok.2 ⟨(), hall, rfl⟩, ?_⟩
  constructor
  · exact fun hn _ => hregistered hn
  · intro i k hk
    rw [hkept] at hk
    split at hk
    · rename_i hcontains
      exact ⟨List.not_mem_nil, Graph.contains_iff.1 hcontains⟩
    · cases hk
  · exact List.nodup_nil
  · simp
  · intro key i hi
    rcases mem_find_foldl_file hi with hmem | ⟨n, hn⟩
    · cases hmem
    · exact hregistered (Graph.mem_toList.1 hn)

end Generation

end GuidedReach
