import GuidedReach.Abstractor.Tally
import GuidedReach.Proofs.Generation.Exhaustive
import GuidedReach.Proofs.Graph.Leaves

/-!
# How many nodes pass a test

Covering a node makes just this node count as covered, although others may move to a new coverer with
it. Expanding a node makes just this node count as expanded.

* `Graph.count_eq_add_one` — one more node passes the test.
* `Graph.WellFormed.count_isCovered_of_cover`, `Graph.count_isExpanded_of_cover` — covering.
* `Graph.count_isExpanded_of_expand`, `Graph.AddedLeaves.count_isCovered` — adding leaves.
* `Generation.countP_settled` — nodes whose distances are known.
* `History.count_set` — the nodes of all generations, when one of these is written.
-/

namespace GuidedReach

/-- One more element passes a test that otherwise stays the same. -/
theorem countP_eq_add_one {α : Type} [DecidableEq α] {l : List α} {p q : α → Bool} {a : α}
    (hl : l.Nodup) (ha : a ∈ l) (hp : p a = false) (hq : q a = true) (hsame : ∀ b ≠ a, q b = p b) :
    l.countP q = l.countP p + 1 := by
  have hperm := List.perm_cons_erase ha
  have hrest : (l.erase a).countP q = (l.erase a).countP p :=
    List.countP_congr fun b hb => by rw [hsame b (hl.mem_erase_iff.1 hb).1]
  rw [hperm.countP_eq, hperm.countP_eq, List.countP_cons_of_pos hq,
    List.countP_cons_of_neg (by simp [hp]), hrest]

/-- Numbers beyond a bound do not count if they never pass the test. -/
theorem countP_range_of_le {bound m : Nat} {p : Nat → Bool} (hle : bound ≤ m)
    (h : ∀ i, p i = true → i < bound) :
    (List.range m).countP p = (List.range bound).countP p := by
  obtain ⟨k, rfl⟩ := Nat.exists_eq_add_of_le hle
  have hnone : ((List.range k).map (bound + ·)).countP p = 0 := by
    refine List.countP_eq_zero.2 fun i hi hp => ?_
    obtain ⟨j, -, rfl⟩ := List.mem_map.1 hi
    have hlt : bound + j < bound := h _ hp
    omega
  rw [List.range_add, List.countP_append, hnone, Nat.add_zero]

namespace NodeMap

variable {α : Type} {nodes : NodeMap α} {m : Nat}

theorem countP_toList (p : α → Bool) (hm : nodes.slotCount ≤ m) :
    nodes.toList.countP (p ·.2) =
      (List.range m).countP fun i => (nodes.get? i).any p := by
  rw [countP_range_of_le hm fun i hi => ?_, toList, List.countP_filterMap]
  · refine List.countP_congr fun i _ => ?_
    cases hi : nodes.get? i <;> simp
  · obtain ⟨_, ha, -⟩ := (Option.any_eq_true _ _).1 hi
    exact lt_slotCount_of_get? ha

theorem countP_ids {p : NodeId → Bool} (hm : nodes.slotCount ≤ m) :
    nodes.ids.countP p = (List.range m).countP fun i => p i && nodes.contains i := by
  rw [countP_range_of_le hm fun i hi => ?_, ids, List.countP_filter]
  obtain ⟨_, ha⟩ := Option.isSome_iff_exists.1 (Bool.and_eq_true_iff.1 hi).2
  exact lt_slotCount_of_get? ha

end NodeMap

namespace Graph

variable {S P K : Type} {g g' : Graph S} {id : NodeId} {p : Node S → Bool}

theorem count_eq_countP {m : Nat} (hm : g.nodes.slotCount ≤ m) :
    g.count p = (List.range m).countP (g.test p) :=
  NodeMap.countP_toList p hm

/-- As many nodes pass the test. -/
theorem count_congr (h : ∀ i, g'.test p i = g.test p i) : g'.count p = g.count p := by
  rw [count_eq_countP (Nat.le_max_left _ g.nodes.slotCount),
    count_eq_countP (Nat.le_max_right g'.nodes.slotCount _), funext h]

/-- **One more node passes the test.** -/
theorem count_eq_add_one (id : NodeId) (hid : g.test p id = false) (hid' : g'.test p id = true)
    (h : ∀ i ≠ id, g'.test p i = g.test p i) : g'.count p = g.count p + 1 := by
  rw [count_eq_countP (Nat.le_max_left _ g.nodes.slotCount),
    count_eq_countP (Nat.le_max_right g'.nodes.slotCount _)]
  obtain ⟨n, hn, -⟩ := (Option.any_eq_true _ _).1 hid'
  have hlt := Nat.lt_of_lt_of_le (lt_slotCount hn) (Nat.le_max_left _ g.nodes.slotCount)
  exact countP_eq_add_one List.nodup_range (List.mem_range.2 hlt) hid hid' h

/-! ## Covering -/

variable {coverer : NodeId} {u : Unit}

/-- **Covering a node makes one more node count as covered**, although others are moved. -/
theorem WellFormed.count_isCovered_of_cover (hwf : g.WellFormed)
    (h : (Graph.cover id coverer).run g = .ok u g') :
    g'.count Node.isCovered = g.count Node.isCovered + 1 := by
  obtain ⟨-, a, _, ha, hfree, -, -, hrewritten⟩ := cover_ok hwf h
  refine count_eq_add_one id (by simp [test, ha, Node.isCovered, hfree])
    (by simp [test, hrewritten.get?, ha, coverNode, Node.isCovered]) fun i hne => ?_
  rw [test, test, hrewritten.get?, Option.any_map]
  congr 1
  funext n
  by_cases hmoved : n.covering = some id <;> simp [coverNode, Node.isCovered, hne, hmoved]

theorem WellFormed.count_isExpanded_of_cover (hwf : g.WellFormed)
    (h : (Graph.cover id coverer).run g = .ok u g') :
    g'.count (·.isExpanded) = g.count (·.isExpanded) := by
  obtain ⟨-, _, _, -, -, -, -, hrewritten⟩ := cover_ok hwf h
  refine count_congr fun i => ?_
  rw [test, test, hrewritten.get?, Option.any_map]
  rfl

/-! ## Adding leaves -/

variable {parent : Option NodeId} {new : List NodeId}

/-- New leaves are not covered. -/
theorem AddedLeaves.count_isCovered (h : AddedLeaves parent new g g') :
    g'.count Node.isCovered = g.count Node.isCovered := by
  refine count_congr fun i => ?_
  by_cases hi : i ∈ new
  · obtain ⟨hnone, n, hn, -, -, hfree, -⟩ := h.new hi
    simp [test, hnone, hn, Node.isCovered, hfree]
  · cases hn' : g'.get? i with
    | none =>
      cases hn : g.get? i with
      | none => simp [test, hn, hn']
      | some n =>
        obtain ⟨_, hsome, -⟩ := h.grows.node hn
        simp [hn'] at hsome
    | some n' =>
      obtain ⟨n, hn, hcovering, -⟩ := h.old hi hn'
      simp [test, hn, hn', Node.isCovered, hcovering]

/-- New leaves are not expanded. -/
theorem AddedLeaves.test_isExpanded (h : AddedLeaves parent new g g') {i : NodeId}
    (hne : some i ≠ parent) : g'.test (·.isExpanded) i = g.test (·.isExpanded) i := by
  by_cases hi : i ∈ new
  · obtain ⟨hnone, n, hn, -, -, -, hopen⟩ := h.new hi
    simp [test, hnone, hn, hopen]
  · cases hn' : g'.get? i with
    | none =>
      cases hn : g.get? i with
      | none => simp [test, hn, hn']
      | some n =>
        obtain ⟨_, hsome, -⟩ := h.grows.node hn
        simp [hn'] at hsome
    | some n' =>
      obtain ⟨n, hn, -, hlinks⟩ := h.old hi hn'
      simp [test, hn, hn', (hlinks hne).2]

variable [DecidableEq S] {analysis : Analysis S P K} {prec : P} {n : Node S}

/-- **Expanding an open node makes one more node count as expanded.** -/
theorem count_isExpanded_of_expand (hn : g.get? id = some n) (hopen : n.isExpanded = false)
    (h : (expand analysis id prec).run g = .ok new g') :
    g'.count (·.isExpanded) = g.count (·.isExpanded) + 1 := by
  obtain ⟨hadded, n', hn', hexpanded⟩ := expand_leaves hn hopen h
  exact count_eq_add_one id (by simp [test, hn, hopen]) (by simp [test, hn', hexpanded])
    fun i hne => hadded.test_isExpanded (by simpa using hne)

end Graph

/-! ## Distances -/

namespace Generation

variable {S P K : Type} {gen : Generation S P K}

/-- **A node whose distance is known counts as one with a finite or an infinite distance.** -/
theorem countP_settled
    (hheld : ∀ {i k}, gen.searchNodes.get? i = some k → ∃ n, gen.graph.get? i = some n) :
    gen.searchNodes.toList.countP (·.2.distance.isFinite) +
        gen.searchNodes.toList.countP (·.2.distance.isInfinite) =
      gen.graph.ids.countP gen.settled := by
  have hone (d : Distance) : (if d.isFinite then 1 else 0) + (if d.isInfinite then 1 else 0) =
      if d.isKnown then 1 else 0 := by
    cases d <;> rfl
  have hknown (entries : List (NodeId × SearchNode)) :
      entries.countP (·.2.distance.isFinite) + entries.countP (·.2.distance.isInfinite) =
        entries.countP (·.2.distance.isKnown) := by
    induction entries with
    | nil => rfl
    | cons entry entries ih =>
      have hentry := hone entry.2.distance
      simp only [List.countP_cons]
      omega
  have hsettled : gen.searchNodes.toList.countP (·.2.distance.isKnown) =
      (List.range (max gen.searchNodes.slotCount gen.graph.nodes.slotCount)).countP gen.settled :=
    NodeMap.countP_toList (fun known : SearchNode => known.distance.isKnown) (Nat.le_max_left _ _)
  rw [hknown, hsettled, Graph.ids, NodeMap.countP_ids (Nat.le_max_right gen.searchNodes.slotCount _)]
  refine List.countP_congr fun i _ => ?_
  cases hk : gen.searchNodes.get? i with
  | none => simp [settled, hk]
  | some k =>
    obtain ⟨n, hn⟩ := hheld hk
    have hcontains : gen.graph.nodes.contains i = true := Option.isSome_iff_exists.2 ⟨n, hn⟩
    simp [settled, hk, hcontains]

end Generation

/-! ## Several generations -/

namespace History

variable {S P K : Type} {history history' : History S P K} {index : Nat}
variable {gen : Generation S P K}
variable {p : Node S → Bool}

theorem sum_map_set {α : Type} {l : List α} {f : α → Nat} {i : Nat} {a b : α}
    (h : l[i]? = some a) :
    ((l.set i b).map f).sum + f a = (l.map f).sum + f b := by
  induction l generalizing i with
  | nil => simp at h
  | cons c l ih =>
    cases i with
    | zero =>
      obtain rfl : c = a := by simpa using h
      simp only [List.set_cons_zero, List.map_cons, List.sum_cons]
      omega
    | succ i =>
      have hrest := ih (by simpa using h)
      simp only [List.set_cons_succ, List.map_cons, List.sum_cons]
      omega

/-- Only the nodes of the generation that is written count differently. -/
theorem count_set (p : Node S → Bool) (gen' : Generation S P K)
    (hgen : history.get? index = some gen) :
    (history.set index gen').count p + gen.graph.count p = history.count p + gen'.graph.count p := by
  have hslot : history.slots.toList[index]? = some (some gen) := by
    rw [Array.getElem?_toList]
    exact Option.join_eq_some_iff.1 hgen
  have hset := sum_map_set (f := fun slot : Option (Generation S P K) =>
    (slot.elim [] (·.graph.toList)).countP (p ·.2)) (b := some gen') hslot
  simpa [count, Graph.count, List.countP_flatMap, Function.comp_def, set,
    Array.toList_setIfInBounds] using hset

/-- The generations that are held decide on the count. -/
theorem count_congr (hlength : history'.length = history.length)
    (hget : ∀ i, history'.get? i = history.get? i) : history'.count p = history.count p := by
  have hslots : history'.slots = history.slots := Array.ext hlength fun i hi hi' => by
    simpa [get?, hi, hi'] using hget i
  rw [count, count, hslots]

end History

end GuidedReach
