import GuidedReach.Proofs.Generation.Settles
import GuidedReach.Proofs.Generation.Tracked
import GuidedReach.Proofs.Graph.Numbers

/-!
# Search nodes and buckets mirror the graph

Every node of a graph has a search node and is filed under the key of its state. New nodes are
registered in the order of their numbers, so in between the newest ones may be missing.

* `Generation.Mirrors` — search nodes and buckets are just those of the graph.
* `Generation.Filed` — they are, save for the newest nodes, which are still pending.
* `Generation.Filed.mirrors` — once nothing is pending, they are just those of the graph.
* `Generation.Filed.of_graph`, `Generation.Filed.register`, `Generation.Filed.of_rewrites`,
  `Generation.Filed.of_distanceWrites` — the changes that an exploration makes.
* `Generation.Filed.dropPruned`, `Generation.Filed.resetOnto`, `Generation.Filed.releaseProvider` —
  the changes between checks.
-/

namespace GuidedReach

variable {S P K : Type} [DecidableEq K]

/-- Whether a node of the graph has the given key. -/
def Graph.hasKey (analysis : Analysis S P K) (g : Graph S) (key : K) (id : NodeId) : Bool :=
  g.test (fun n => analysis.key n.state = key) id

namespace Buckets

variable {buckets : Buckets K} {key : K} {ids : List NodeId}

theorem mem_keys_file (buckets : Buckets K) (key : K) (id : NodeId) (key' : K) :
    key' ∈ (buckets.file key id).map Prod.fst ↔ key' = key ∨ key' ∈ buckets.map Prod.fst := by
  induction buckets with
  | nil => simp [file]
  | cons first rest ih =>
    obtain ⟨k, ids⟩ := first
    simp only [file]
    split
    · rename_i hk
      simp [hk]
    · simp only [List.map_cons, List.mem_cons, ih]
      tauto

/-- Filing makes at most one bucket for a key. -/
theorem keys_file_nodup (h : (buckets.map Prod.fst).Nodup) (key : K) (id : NodeId) :
    ((buckets.file key id).map Prod.fst).Nodup := by
  induction buckets with
  | nil => simp [file]
  | cons first rest ih =>
    obtain ⟨k, ids⟩ := first
    obtain ⟨hk, hrest⟩ := List.nodup_cons.1 h
    simp only [file]
    split
    · exact List.nodup_cons.2 ⟨hk, hrest⟩
    · rename_i hne
      refine List.nodup_cons.2 ⟨fun hmem => ?_, ih hrest⟩
      exact ((mem_keys_file rest key id k).1 hmem).elim (fun h => hne h.symm) hk

theorem find_of_mem (h : (buckets.map Prod.fst).Nodup) (hmem : (key, ids) ∈ buckets) :
    buckets.find key = ids := by
  induction buckets with
  | nil => cases hmem
  | cons first rest ih =>
    obtain ⟨hfirst, hrest⟩ := List.nodup_cons.1 h
    rw [find_cons]
    rcases List.mem_cons.1 hmem with rfl | hmem
    · exact if_pos rfl
    · rw [if_neg, ih hrest hmem]
      rintro rfl
      exact hfirst (List.mem_map.2 ⟨_, hmem, rfl⟩)

theorem mem_of_mem_find {id : NodeId} (h : id ∈ buckets.find key) :
    (key, buckets.find key) ∈ buckets := by
  induction buckets with
  | nil => cases h
  | cons first rest ih =>
    rw [find_cons] at h ⊢
    split at h
    · rename_i hkey
      rw [if_pos hkey, hkey]
      exact List.mem_cons_self
    · rename_i hkey
      rw [if_neg hkey]
      exact List.mem_cons_of_mem _ (ih h)

end Buckets

namespace Generation

variable {analysis : Analysis S P K} {gen gen' : Generation S P K} {pending new : List NodeId}
variable {id : NodeId}

/-- Search nodes and buckets are just those of the graph. -/
structure Mirrors (analysis : Analysis S P K) (gen : Generation S P K) : Prop where
  held : ∀ i, gen.searchNodes.contains i = gen.graph.contains i
  /-- The search nodes are listed in the order of their numbers. -/
  listed : gen.listed.map Prod.fst = gen.graph.ids
  ascending : (gen.listed.map Prod.fst).Pairwise (· < ·)
  /-- There is at most one bucket for a key. -/
  keys : (gen.buckets.map Prod.fst).Nodup
  /-- A bucket holds the nodes with its key and no others, in the order of their numbers. -/
  bucket : ∀ key ids, (key, ids) ∈ gen.buckets →
    ids = gen.graph.ids.filter (gen.graph.hasKey analysis key)
  /-- Every node is once in the bucket of its key. -/
  filed : ∀ i n, gen.graph.get? i = some n →
    ∃ ids, (analysis.key n.state, ids) ∈ gen.buckets ∧ ids.count i = 1

/-- Search nodes and buckets are those of the graph, save for the newest nodes, which are still
pending. -/
structure Filed (analysis : Analysis S P K) (pending : List NodeId) (gen : Generation S P K) :
    Prop where
  attached : gen.attached ++ pending = gen.graph.ids
  held : ∀ {i}, (∃ k, gen.searchNodes.get? i = some k) ↔ i ∈ gen.attached
  keys : (gen.buckets.map Prod.fst).Nodup
  find : ∀ key, gen.buckets.find key = gen.attached.filter (gen.graph.hasKey analysis key)

namespace Filed

/-- Before anything was registered, all nodes are pending. -/
theorem of_fresh (analysis : Analysis S P K) (graph : Graph S) (prec : P) :
    ({ graph, prec } : Generation S P K).Filed analysis graph.ids where
  attached := rfl
  held := by simp [NodeMap.get?_empty]
  keys := List.nodup_nil
  find _ := rfl

/-- What is registered is in the graph. -/
theorem mem_graph (h : gen.Filed analysis pending) (hid : id ∈ gen.attached) :
    ∃ n, gen.graph.get? id = some n :=
  Graph.mem_ids.1 (h.attached ▸ List.mem_append_left _ hid)

/-- What is in the graph and not pending is registered. -/
theorem registered (h : gen.Filed analysis pending) {n : Node S} (hn : gen.graph.get? id = some n)
    (hid : id ∉ pending) : ∃ k, gen.searchNodes.get? id = some k := by
  have hmem : id ∈ gen.attached ++ pending := h.attached ▸ Graph.mem_ids.2 ⟨n, hn⟩
  exact h.held.2 ((List.mem_append.1 hmem).resolve_right hid)

/-- **Once nothing is pending, search nodes and buckets mirror the graph.** -/
theorem mirrors (h : gen.Filed analysis []) : gen.Mirrors analysis := by
  have hattached : gen.attached = gen.graph.ids := by simpa using h.attached
  have hlisted : gen.listed.map Prod.fst = gen.graph.ids := by
    rw [← hattached, listed, List.map_filterMap]
    refine (List.filterMap_congr fun i hi => ?_).trans List.filterMap_some
    obtain ⟨k, hk⟩ := h.held.2 hi
    simp [hk]
  refine ⟨fun i => Bool.eq_iff_iff.2 ?_, hlisted, hlisted ▸ gen.graph.ids_ascending, h.keys,
    fun key ids hmem => ?_, fun i n hn => ?_⟩
  · rw [Graph.contains_iff, ← Graph.mem_ids, ← hattached, ← h.held]
    exact Option.isSome_iff_exists
  · rw [← Buckets.find_of_mem h.keys hmem, h.find, hattached]
  · have hmem : i ∈ gen.buckets.find (analysis.key n.state) := by
      rw [h.find, hattached, List.mem_filter]
      exact ⟨Graph.mem_ids.2 ⟨n, hn⟩, by simp [Graph.hasKey, Graph.test, hn]⟩
    refine ⟨_, Buckets.mem_of_mem_find hmem, List.count_eq_one_of_mem ?_ hmem⟩
    rw [h.find, hattached]
    exact gen.graph.ids_nodup.filter _

/-! ### Changes of an exploration -/

/-- Only values of search nodes are written. -/
theorem of_writes (h : gen.Filed analysis pending) (hgraph : gen'.graph = gen.graph)
    (hattached : gen'.attached = gen.attached) (hbuckets : gen'.buckets = gen.buckets)
    (hheld : ∀ i, (∃ k, gen'.searchNodes.get? i = some k) ↔ ∃ k, gen.searchNodes.get? i = some k) :
    gen'.Filed analysis pending where
  attached := by rw [hattached, hgraph, h.attached]
  held {i} := by rw [hheld i, hattached, h.held]
  keys := hbuckets ▸ h.keys
  find key := by rw [hbuckets, hattached, hgraph, h.find]

theorem of_rewrites (h : gen.Filed analysis pending) {k k' : SearchNode}
    (hk : gen.searchNodes.get? id = some k) (hrewrites : gen.Rewrites gen' id k')
    (hattached : gen'.attached = gen.attached) (hbuckets : gen'.buckets = gen.buckets) :
    gen'.Filed analysis pending := by
  refine h.of_writes hrewrites.graph hattached hbuckets fun i => ?_
  rw [hrewrites.get?]
  split
  · rename_i heq
    exact heq ▸ ⟨fun _ => ⟨k, hk⟩, fun _ => ⟨k', rfl⟩⟩
  · exact Iff.rfl

theorem setHeuristic (h : gen.Filed analysis pending) {value : Distance}
    (hset : gen.setHeuristic id value = .ok gen') : gen'.Filed analysis pending := by
  obtain ⟨_, _, -, hk, -, hrewrites, -⟩ := setHeuristic_ok hset
  exact h.of_rewrites hk hrewrites (attached_of_setHeuristic hset) (buckets_of_setHeuristic hset)

theorem setProvider (h : gen.Filed analysis pending) {provider : Option NodeId}
    (hset : gen.editSearchNode id (SearchNode.setProvider provider) = .ok gen') :
    gen'.Filed analysis pending := by
  obtain ⟨_, _, hk, -, hrewrites, hbuckets⟩ := editSearchNode_ok hset
  exact h.of_rewrites hk hrewrites (attached_of_editSearchNode hset) hbuckets

theorem of_distanceWrites (h : gen.Filed analysis pending) (hwrites : gen.DistanceWrites gen') :
    gen'.Filed analysis pending := by
  refine h.of_writes hwrites.graph hwrites.attached hwrites.buckets fun i => ?_
  obtain ⟨hnone, hnone'⟩ | ⟨k, d, hk, hk', -⟩ := hwrites.searchNode i
  · simp [hnone, hnone']
  · simp [hk, hk']

/-- The nodes of the graph keep their states, and new ones are still to be registered. -/
theorem of_graph (h : gen.Filed analysis pending) {graph : Graph S}
    (hids : graph.ids = gen.graph.ids ++ new)
    (hstate : ∀ {i n}, gen.graph.get? i = some n →
      ∃ n', graph.get? i = some n' ∧ n'.state = n.state) :
    ({ gen with graph } : Generation S P K).Filed analysis (pending ++ new) where
  attached := by rw [hids, ← h.attached, List.append_assoc]
  held := h.held
  keys := h.keys
  find key := by
    refine (h.find key).trans (List.filter_congr fun i hi => ?_)
    obtain ⟨n, hn⟩ := h.mem_graph hi
    obtain ⟨n', hn', hsame⟩ := hstate hn
    simp [Graph.hasKey, Graph.test, hn, hn', hsame]

theorem of_grows (h : gen.Filed analysis pending) {graph : Graph S} (hgrows : gen.graph.Grows graph)
    (hids : graph.ids = gen.graph.ids ++ new) :
    ({ gen with graph } : Generation S P K).Filed analysis (pending ++ new) :=
  h.of_graph hids fun hn => (hgrows.node hn).imp fun _ hn' => ⟨hn'.1, hn'.2.state⟩

/-- **The next pending node is registered.** -/
theorem register (h : gen.Filed analysis (id :: pending)) {k : SearchNode}
    (hregister : gen.register analysis id k = .ok gen') : gen'.Filed analysis pending := by
  simp only [Generation.register, bind_eq_ok, Graph.node_eq_ok, pure_eq_ok] at hregister
  obtain ⟨n, hn, _, -, rfl⟩ := hregister
  have hid : gen.graph.hasKey analysis (analysis.key n.state) id = true := by
    simp [Graph.hasKey, Graph.test, hn]
  refine ⟨?_, fun {i} => ?_, Buckets.keys_file_nodup h.keys _ _, fun key => ?_⟩
  · simpa using h.attached
  · rw [NodeMap.get?_insert, List.mem_append, List.mem_singleton, ← h.held]
    split <;> simp_all
  · rw [Buckets.find_file, List.filter_append, h.find, h.find]
    split
    · rename_i hkey
      simp [hkey, hid]
    · rename_i hkey
      have hother : gen.graph.hasKey analysis key id = false := by
        simp [Graph.hasKey, Graph.test, hn, Ne.symm hkey]
      simp [hother]

/-- Every pending node is pending once. -/
theorem head_notMem (h : gen.Filed analysis (id :: pending)) : id ∉ pending := by
  have hnodup : (gen.attached ++ id :: pending).Nodup := h.attached ▸ gen.graph.ids_nodup
  exact (List.nodup_cons.1 (List.nodup_append.1 hnodup).2.1).1

/-- The tree parent of the next pending node is registered. -/
theorem parent_notMem (h : gen.Filed analysis (id :: pending)) (hwf : gen.graph.WellFormed)
    {n : Node S} {parent : NodeId} (hn : gen.graph.get? id = some n) (hparent : n.parent = some parent) :
    parent ∉ id :: pending := by
  have hlt := (hwf.parent_link hn hparent).1
  have hascending : (gen.attached ++ id :: pending).Pairwise (· < ·) :=
    h.attached ▸ gen.graph.ids_ascending
  intro hmem
  rcases List.mem_cons.1 hmem with rfl | hmem
  · exact Nat.lt_irrefl _ hlt
  · exact Nat.lt_asymm hlt ((List.pairwise_cons.1 (List.pairwise_append.1 hascending).2.1).1 _ hmem)

/-! ### Changes between checks -/

theorem resetOnto (h : gen.Filed analysis pending) (copy : Nat) :
    (gen.resetOnto copy).Filed analysis pending :=
  h.of_writes rfl rfl rfl fun i => by
    simp [Generation.resetOnto, NodeMap.get?_mapWithId]

theorem releaseProvider (h : gen.Filed analysis pending) :
    gen.releaseProvider.Filed analysis pending :=
  h.of_writes rfl rfl rfl fun i => by
    simp [Generation.releaseProvider, NodeMap.get?_mapWithId]

end Filed

/-- What is found after the nodes of a list were filed. -/
theorem find_foldl_file (nodes : List (NodeId × Node S)) (buckets : Buckets K) (key : K) :
    (nodes.foldl (fun buckets entry => Buckets.file (analysis.key entry.2.state) entry.1 buckets)
      buckets).find key = buckets.find key ++
        (nodes.filter fun entry => analysis.key entry.2.state = key).map Prod.fst := by
  induction nodes generalizing buckets with
  | nil => simp
  | cons first rest ih =>
    rw [List.foldl_cons, ih, Buckets.find_file]
    by_cases hkey : analysis.key first.2.state = key
    · simp [hkey]
    · simp [hkey, Ne.symm hkey]

theorem keys_foldl_file_nodup (nodes : List (NodeId × Node S)) {buckets : Buckets K}
    (h : (buckets.map Prod.fst).Nodup) :
    ((nodes.foldl (fun buckets entry => Buckets.file (analysis.key entry.2.state) entry.1 buckets)
      buckets).map Prod.fst).Nodup := by
  induction nodes generalizing buckets with
  | nil => exact h
  | cons first rest ih => exact ih (Buckets.keys_file_nodup h _ _)

/-- The nodes with a key, told from the nodes themselves. -/
theorem map_filter_toList (g : Graph S) (key : K) :
    (g.toList.filter fun entry => analysis.key entry.2.state = key).map Prod.fst =
      g.ids.filter (g.hasKey analysis key) := by
  have hlist : ∀ l : List NodeId,
      ((l.filterMap fun id => (g.get? id).map (id, ·)).filter fun entry =>
        analysis.key entry.2.state = key).map Prod.fst =
          (l.filter g.contains).filter (g.hasKey analysis key) := by
    intro l
    induction l with
    | nil => rfl
    | cons i l ih =>
      cases hn : g.get? i with
      | none =>
        rw [List.filterMap_cons_none (by rw [hn]; rfl), ih,
          List.filter_cons_of_neg (by simp [Graph.contains_eq_false_iff.2 hn])]
      | some n =>
        rw [List.filterMap_cons_some (by rw [hn]; rfl),
          List.filter_cons_of_pos (p := g.contains) (Graph.contains_iff.2 ⟨n, hn⟩)]
        by_cases hkey : analysis.key n.state = key
        · rw [List.filter_cons_of_pos (by simpa using hkey), List.map_cons, ih,
            List.filter_cons_of_pos (by simp [Graph.hasKey, Graph.test, hn, hkey])]
        · rw [List.filter_cons_of_neg (by simpa using hkey), ih,
            List.filter_cons_of_neg (by simp [Graph.hasKey, Graph.test, hn, hkey])]
  exact hlist _

/-- **Search nodes of pruned nodes can be dropped**, and the others mirror the graph that is left. -/
theorem Filed.dropPruned (h : gen.Filed analysis []) {graph : Graph S} (prec : P)
    (hleft : ∀ {i n}, graph.get? i = some n → ∃ m, gen.graph.get? i = some m) :
    ∃ gen', Generation.dropPruned { gen with graph, prec } analysis = .ok gen' ∧
      gen'.Filed analysis [] := by
  have hattached : gen.attached = gen.graph.ids := by simpa using h.attached
  have hkept : ∀ i, (gen.searchNodes.filterIds graph.contains).contains i = graph.contains i := by
    intro i
    rw [NodeMap.contains, NodeMap.get?_filterIds]
    cases hi : graph.contains i with
    | false => rfl
    | true =>
      obtain ⟨n, hn⟩ := Graph.contains_iff.1 hi
      obtain ⟨m, hm⟩ := hleft hn
      obtain ⟨k, hk⟩ := h.registered hm List.not_mem_nil
      simp [hk]
  have hall : graph.ids.forM (fun id =>
      demand ((gen.searchNodes.filterIds graph.contains).contains id) (.noSearchNode id)) = .ok () :=
    forM_eq_ok.2 fun i hi =>
      demand_eq_ok.2 ((hkept i).trans (Graph.contains_iff.2 (Graph.mem_ids.1 hi)))
  have hids : gen.attached.filter (gen.searchNodes.filterIds graph.contains).contains = graph.ids := by
    refine Graph.eq_ids ?_ fun i => ?_
    · exact (hattached ▸ gen.graph.ids_ascending).filter _
    · rw [List.mem_filter, hkept, hattached, Graph.contains_iff, Graph.mem_ids]
      exact and_iff_right_of_imp fun hi => hi.elim fun _ hn => hleft hn
  refine ⟨_, bind_eq_ok.2 ⟨(), hall, rfl⟩, ?_, fun {i} => ?_, ?_, fun key => ?_⟩
  · simpa using hids
  · refine Iff.trans ?_ (hids ▸ Graph.mem_ids.symm)
    rw [← Graph.contains_iff, ← hkept i]
    exact Option.isSome_iff_exists.symm
  · exact keys_foldl_file_nodup _ List.nodup_nil
  · refine (find_foldl_file _ _ _).trans ?_
    rw [map_filter_toList, ← hids]
    rfl

end Generation

end GuidedReach
