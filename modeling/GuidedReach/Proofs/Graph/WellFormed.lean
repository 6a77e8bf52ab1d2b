import GuidedReach.Proofs.Graph.Links

/-!
# Links keep agreeing

Every change of a graph but pruning is shown here to keep `Graph.WellFormed`, and the changes of
covering edges are described node by node on the way.

* `Graph.cover_ok`, `Graph.uncover_ok`, `Graph.clearCovered_ok` — the nodes after each change.
* `Graph.WellFormed.cover`, `Graph.WellFormed.uncover`, `Graph.WellFormed.clearCovered`.
* `Graph.WellFormed.createInit`, `Graph.WellFormed.createSucc`, `Graph.WellFormed.setExpanded`.
-/

namespace GuidedReach.Graph

variable {S : Type} {g g' : Graph S}

namespace WellFormed

theorem empty : ({} : Graph S).WellFormed := by
  constructor <;> simp [Graph.get?, NodeMap.get?_empty]

/-- A node covers exactly the nodes that it lists. -/
theorem mem_covered_iff (hwf : g.WellFormed) {c n : NodeId} {b : Node S} (hc : g.get? c = some b) :
    n ∈ b.covered ↔ ∃ a, g.get? n = some a ∧ a.covering = some c := by
  constructor
  · exact hwf.covered_link hc
  · rintro ⟨a, ha, hcov⟩
    obtain ⟨-, b', hb', -, hcount⟩ := hwf.covering_link ha hcov
    obtain rfl : b' = b := by simpa [hc] using hb'.symm
    exact List.count_pos_iff.1 (by omega)

/-- Only the coverer of a node lists it as covered. -/
theorem filter_covered (hwf : g.WellFormed) {id i : NodeId} {a n : Node S} (ha : g.get? id = some a)
    (hi : g.get? i = some n) (hne : a.covering ≠ some i) :
    n.covered.filter (· != id) = n.covered := by
  refine List.filter_eq_self.2 fun x hx => ?_
  obtain ⟨a', ha', hcov⟩ := hwf.covered_link hi hx
  simp only [bne_iff_ne, ne_eq]
  rintro rfl
  exact hne (Option.some.inj (ha.symm.trans ha') ▸ hcov)

/-- A tree parent is in the graph. -/
theorem exists_parent (hwf : g.WellFormed) {c p : NodeId} {n : Node S} (hc : g.get? c = some n)
    (hp : n.parent = some p) : ∃ m, g.get? p = some m ∧ c ∈ m.succs := by
  obtain ⟨-, m, hm, -, hcount⟩ := hwf.parent_link hc hp
  exact ⟨m, hm, List.count_pos_iff.1 (by omega)⟩

/-- A node is listed as a successor by its parent and by no other node. -/
theorem mem_succs_iff (hwf : g.WellFormed) {i id : NodeId} {m n : Node S} (hm : g.get? i = some m)
    (hn : g.get? id = some n) : id ∈ m.succs ↔ n.parent = some i := by
  constructor
  · intro hmem
    obtain ⟨n', hn', hparent⟩ := hwf.succ_link hm hmem
    rwa [Option.some.inj (hn.symm.trans hn')]
  · intro hparent
    obtain ⟨m', hm', hmem⟩ := hwf.exists_parent hn hparent
    rwa [Option.some.inj (hm.symm.trans hm')]

/-- A node is listed as an init node when it has no parent. -/
theorem mem_initNodes_iff (hwf : g.WellFormed) {id : NodeId} {n : Node S}
    (hn : g.get? id = some n) : id ∈ g.initNodes ↔ n.parent = none := by
  constructor
  · intro hmem
    obtain ⟨n', hn', hparent⟩ := hwf.init_parentless hmem
    rwa [Option.some.inj (hn.symm.trans hn')]
  · intro hparent
    have := (hwf.init_link hn hparent).1
    exact List.count_pos_iff.1 (by omega)

/-- No init node is listed twice. -/
theorem initNodes_nodup (hwf : g.WellFormed) : g.initNodes.Nodup := by
  refine List.nodup_iff_count.2 fun i => ?_
  by_cases hi : i ∈ g.initNodes
  · obtain ⟨n, hn, hparent⟩ := hwf.init_parentless hi
    exact Nat.le_of_eq (hwf.init_link hn hparent).1
  · simp [List.count_eq_zero_of_not_mem hi]

/-- Every node hangs on an init node, so without one there is no node. -/
theorem get?_eq_none (hwf : g.WellFormed) (hnil : g.initNodes = []) (i : NodeId) :
    g.get? i = none := by
  induction i using Nat.strong_induction_on with
  | _ i ih =>
    refine Option.eq_none_iff_forall_ne_some.2 fun n hn => ?_
    cases hparent : n.parent with
    | none => simpa [hnil] using (hwf.mem_initNodes_iff hn).2 hparent
    | some p =>
      obtain ⟨hlt, m, hm, -⟩ := hwf.parent_link hn hparent
      simp [ih p hlt] at hm

/-- A tree successor is in the graph and younger. -/
theorem lt_child (hwf : g.WellFormed) {p c : NodeId} {m : Node S} (hp : g.get? p = some m)
    (hc : c ∈ m.succs) : p < c ∧ ∃ n, g.get? c = some n ∧ n.parent = some p := by
  obtain ⟨n, hn, hparent⟩ := hwf.succ_link hp hc
  exact ⟨(hwf.parent_link hn hparent).1, n, hn, hparent⟩

/-- A change that leaves the tree alone only has to keep the covering edges in agreement. -/
theorem of_rewritten {f : NodeId → Node S → Node S} (hwf : g.WellFormed) (h : Rewritten f g g')
    (htree : ∀ i n, (f i n).parent = n.parent ∧ (f i n).depth = n.depth ∧ (f i n).succs = n.succs)
    (hcovering : ∀ {n a c}, g'.get? n = some a → a.covering = some c →
      n ≠ c ∧ ∃ b, g'.get? c = some b ∧ b.covering = none ∧ b.covered.count n = 1)
    (hcovered : ∀ {c b n}, g'.get? c = some b → n ∈ b.covered →
      ∃ a, g'.get? n = some a ∧ a.covering = some c) : g'.WellFormed where
  parent_link := by
    intro c n p hc hp
    obtain ⟨n, hn, rfl⟩ := h.exists_of_get? hc
    rw [(htree c n).1] at hp
    obtain ⟨hlt, m, hm, hdepth, hcount⟩ := hwf.parent_link hn hp
    refine ⟨hlt, f p m, h.get?_of_get? hm, ?_, ?_⟩
    · rw [(htree c n).2.1, (htree p m).2.1, hdepth]
    · rw [(htree p m).2.2, hcount]
  succ_link := by
    intro p m c hp hc
    obtain ⟨m, hm, rfl⟩ := h.exists_of_get? hp
    rw [(htree p m).2.2] at hc
    obtain ⟨n, hn, hparent⟩ := hwf.succ_link hm hc
    exact ⟨f c n, h.get?_of_get? hn, by rw [(htree c n).1, hparent]⟩
  init_link := by
    intro i n hi hparent
    obtain ⟨n, hn, rfl⟩ := h.exists_of_get? hi
    rw [(htree i n).1] at hparent
    rw [h.initNodes, (htree i n).2.1]
    exact hwf.init_link hn hparent
  init_parentless := by
    intro i hi
    rw [h.initNodes] at hi
    obtain ⟨n, hn, hparent⟩ := hwf.init_parentless hi
    exact ⟨f i n, h.get?_of_get? hn, by rw [(htree i n).1, hparent]⟩
  covering_link := hcovering
  covered_link := hcovered

end WellFormed

/-! ## Covering edges -/

/-- A node after `id` was covered by `coverer`, with the nodes `moved` that `id` covered before. -/
def coverNode (id coverer : NodeId) (moved : List NodeId) (i : NodeId) (n : Node S) : Node S :=
  { n with
    covering := if i = id ∨ n.covering = some id then some coverer else n.covering
    covered :=
      if i = id then [] else if i = coverer then n.covered ++ moved ++ [id] else n.covered }

/-- Nodes stay covered. -/
theorem isCovered_coverNode {id coverer i : NodeId} {moved : List NodeId} {n : Node S}
    (h : n.isCovered = true) : (coverNode id coverer moved i n).isCovered = true := by
  simp only [Node.isCovered, coverNode]
  split
  · rfl
  · exact h

/-- A node after the covering edge that leaves `id` was removed. -/
def uncoverNode (id : NodeId) (i : NodeId) (n : Node S) : Node S :=
  { n with
    covering := if i = id then none else n.covering
    covered := n.covered.filter (· != id) }

/-- A node after the covering edges that enter `id` were removed. -/
def clearNode (id : NodeId) (i : NodeId) (n : Node S) : Node S :=
  { n with
    covering := if n.covering = some id then none else n.covering
    covered := if i = id then [] else n.covered }

theorem cover_ok (hwf : g.WellFormed) {id coverer : NodeId} {u : Unit}
    (h : (cover id coverer).run g = .ok u g') :
    id ≠ coverer ∧ ∃ a b, g.get? id = some a ∧ a.covering = none ∧ g.get? coverer = some b ∧
      b.covering = none ∧ Rewritten (coverNode id coverer a.covered) g g' := by
  simp only [cover, Edit.run_bind_ok, Edit.run_lift_ok, demand_eq_ok, run_readNode_ok] at h
  obtain ⟨_, _, ⟨hne, rfl⟩, a, _, ⟨ha, rfl⟩, _, _, ⟨hua, rfl⟩, b, _, ⟨hb, rfl⟩, _, _, ⟨hub, rfl⟩,
    _, _, ⟨ha', rfl⟩, _, g₁, h₁, _, g₂, h₂, _, g₃, h₃, h₄⟩ := h
  obtain rfl := Option.some.inj (ha.symm.trans ha')
  simp only [bne_iff_ne, ne_eq, Node.isCovered, Bool.not_eq_true', Option.isSome_eq_false_iff,
    Option.isNone_iff_eq_none] at hne hua hub
  have hrewritten := (((rewritten_of_updateNode h₁).2.trans
    (rewritten_of_forM_updateNode (by simp) h₂).2).trans (rewritten_of_updateNode h₃).2).trans
    (rewritten_of_updateNode h₄).2
  refine ⟨hne, a, b, ha, hua, hb, hub, hrewritten.congr fun i n hi => ?_⟩
  have hmoved : i ∈ a.covered ↔ n.covering = some id := by
    rw [hwf.mem_covered_iff ha]
    simp [hi]
  have hid : ¬ id ∈ a.covered := by
    rw [hwf.mem_covered_iff ha]
    simp [ha, hua]
  rcases eq_or_ne i id with rfl | hii
  · simp [coverNode, hid, hne]
  rcases eq_or_ne i coverer with rfl | hic
  · by_cases him : n.covering = some id <;> simp [coverNode, hii, him, hmoved]
  · by_cases him : n.covering = some id <;> simp [coverNode, hii, hic, him, hmoved]

theorem uncover_ok (hwf : g.WellFormed) {id : NodeId} {u : Unit}
    (h : (uncover id).run g = .ok u g') :
    ∃ a, g.get? id = some a ∧ Rewritten (uncoverNode id) g g' := by
  simp only [uncover, Edit.run_bind_ok, run_readNode_ok] at h
  obtain ⟨a, _, ⟨ha, rfl⟩, h⟩ := h
  refine ⟨a, ha, ?_⟩
  split at h
  · rename_i hnone
    obtain ⟨-, rfl⟩ := Edit.run_pure_ok.1 h
    refine (Rewritten.refl g).congr fun i n hi => ?_
    have hfilter := hwf.filter_covered ha hi (by simp [hnone])
    rcases eq_or_ne i id with rfl | hne
    · obtain rfl := Option.some.inj (ha.symm.trans hi)
      simp only [uncoverNode, if_true, hfilter, ← hnone]
    · simp [uncoverNode, hne, hfilter]
  · rename_i coverer hcoverer
    obtain ⟨_, t, h₁, h₂⟩ := Edit.run_bind_ok.1 h
    refine ((rewritten_of_updateNode h₁).2.trans (rewritten_of_updateNode h₂).2).congr
      fun i n hi => ?_
    have hself := (hwf.covering_link ha hcoverer).1
    rcases eq_or_ne i coverer with rfl | hne
    · simp [uncoverNode, hself.symm]
    · have hfilter := hwf.filter_covered ha hi (by simpa [hcoverer] using hne.symm)
      rcases eq_or_ne i id with rfl | hid
      · simp [uncoverNode, hne, hfilter]
      · simp [uncoverNode, hne, hid, hfilter]

theorem clearCovered_ok (hwf : g.WellFormed) {id : NodeId} {u : Unit}
    (h : (clearCovered id).run g = .ok u g') :
    ∃ a, g.get? id = some a ∧ Rewritten (clearNode id) g g' := by
  simp only [clearCovered, Edit.run_bind_ok, run_readNode_ok] at h
  obtain ⟨a, _, ⟨ha, rfl⟩, _, t, h₁, h₂⟩ := h
  refine ⟨a, ha, ((rewritten_of_updateNode h₁).2.trans
    (rewritten_of_forM_updateNode (by simp) h₂).2).congr fun i n hi => ?_⟩
  have hmem : i ∈ a.covered ↔ n.covering = some id := by
    rw [hwf.mem_covered_iff ha]
    simp [hi]
  rcases eq_or_ne i id with rfl | hid
  · obtain rfl := Option.some.inj (ha.symm.trans hi)
    by_cases hcov : a.covering = some i <;> simp [clearNode, hmem, hcov]
  · by_cases hcov : n.covering = some id <;> simp [clearNode, hid, hmem, hcov]

namespace WellFormed

theorem cover (hwf : g.WellFormed) {id coverer : NodeId} {u : Unit}
    (h : (Graph.cover id coverer).run g = .ok u g') : g'.WellFormed := by
  obtain ⟨hne, a, b, ha, hua, hb, hub, hrewritten⟩ := cover_ok hwf h
  have hidb : id ∉ b.covered := by
    rw [hwf.mem_covered_iff hb]
    simp [ha, hua]
  have hida : id ∉ a.covered := by
    rw [hwf.mem_covered_iff ha]
    simp [ha, hua]
  have hcoverer := hrewritten.get?_of_get? hb
  refine hwf.of_rewritten hrewritten (fun i n => ⟨rfl, rfl, rfl⟩) ?_ ?_
  · intro n x c hn hcov
    obtain ⟨x, hx, rfl⟩ := hrewritten.exists_of_get? hn
    simp only [coverNode] at hcov
    split at hcov
    · rename_i hmoved
      obtain rfl : coverer = c := by simpa using hcov
      refine ⟨?_, _, hcoverer, by simp [coverNode, hne.symm, hub], ?_⟩
      · rintro rfl
        obtain rfl := Option.some.inj (hb.symm.trans hx)
        simp [hne.symm, hub] at hmoved
      · simp only [coverNode, if_neg hne.symm, if_true, List.count_append]
        rcases hmoved with rfl | hmoved
        · simp [List.count_eq_zero_of_not_mem hidb, List.count_eq_zero_of_not_mem hida]
        · obtain ⟨hself, a', ha', -, hcount⟩ := hwf.covering_link hx hmoved
          obtain rfl := Option.some.inj (ha.symm.trans ha')
          have hnb : n ∉ b.covered := by
            rw [hwf.mem_covered_iff hb]
            simpa [hx, hmoved] using hne
          simp [List.count_eq_zero_of_not_mem hnb, hcount, hself.symm]
    · rename_i hkept
      rw [not_or] at hkept
      obtain ⟨hself, y, hy, hyc, hcount⟩ := hwf.covering_link hx hcov
      have hc : c ≠ id := by
        rintro rfl
        exact hkept.2 hcov
      refine ⟨hself, _, hrewritten.get?_of_get? hy, by simp [coverNode, hc, hyc], ?_⟩
      have hna : n ∉ a.covered := by
        rw [hwf.mem_covered_iff ha]
        simpa [hx] using hkept.2
      by_cases hcc : c = coverer
      · simp [coverNode, hcc, hne.symm, hcount, List.count_eq_zero_of_not_mem hna, Ne.symm hkept.1]
      · simp [coverNode, hcc, hc, hcount]
  · intro c y n hc hmem
    obtain ⟨y, hy, rfl⟩ := hrewritten.exists_of_get? hc
    simp only [coverNode] at hmem
    split at hmem
    · simp at hmem
    · rename_i hcid
      split at hmem
      · rename_i hcc
        subst hcc
        obtain rfl := Option.some.inj (hb.symm.trans hy)
        rcases List.mem_append.1 hmem with hmem | hmem
        · rcases List.mem_append.1 hmem with hmem | hmem
          · obtain ⟨x, hx, hxc⟩ := hwf.covered_link hy hmem
            exact ⟨_, hrewritten.get?_of_get? hx, by simp [coverNode, hxc]⟩
          · obtain ⟨x, hx, hxc⟩ := hwf.covered_link ha hmem
            exact ⟨_, hrewritten.get?_of_get? hx, by simp [coverNode, hxc]⟩
        · obtain rfl : n = id := by simpa using hmem
          exact ⟨_, hrewritten.get?_of_get? ha, by simp [coverNode]⟩
      · obtain ⟨x, hx, hxc⟩ := hwf.covered_link hy hmem
        have hn : n ≠ id := by
          rintro rfl
          obtain rfl := Option.some.inj (ha.symm.trans hx)
          simp [hua] at hxc
        exact ⟨_, hrewritten.get?_of_get? hx, by simp [coverNode, hxc, hn, hcid]⟩

theorem uncover (hwf : g.WellFormed) {id : NodeId} {u : Unit}
    (h : (Graph.uncover id).run g = .ok u g') : g'.WellFormed := by
  obtain ⟨a, ha, hrewritten⟩ := uncover_ok hwf h
  refine hwf.of_rewritten hrewritten (fun i n => ⟨rfl, rfl, rfl⟩) ?_ ?_
  · intro n x c hn hcov
    obtain ⟨x, hx, rfl⟩ := hrewritten.exists_of_get? hn
    have hne : n ≠ id := by
      rintro rfl
      simp [uncoverNode] at hcov
    simp only [uncoverNode, if_neg hne] at hcov
    obtain ⟨hself, y, hy, hyc, hcount⟩ := hwf.covering_link hx hcov
    refine ⟨hself, _, hrewritten.get?_of_get? hy, by simp [uncoverNode, hyc], ?_⟩
    rw [← hcount]
    exact List.count_filter (by simpa using hne)
  · intro c y n hc hmem
    obtain ⟨y, hy, rfl⟩ := hrewritten.exists_of_get? hc
    obtain ⟨hmem, hne⟩ := List.mem_filter.1 hmem
    obtain ⟨x, hx, hxc⟩ := hwf.covered_link hy hmem
    exact ⟨_, hrewritten.get?_of_get? hx, by simpa [uncoverNode, hxc] using hne⟩

theorem clearCovered (hwf : g.WellFormed) {id : NodeId} {u : Unit}
    (h : (Graph.clearCovered id).run g = .ok u g') : g'.WellFormed := by
  obtain ⟨a, ha, hrewritten⟩ := clearCovered_ok hwf h
  refine hwf.of_rewritten hrewritten (fun i n => ⟨rfl, rfl, rfl⟩) ?_ ?_
  · intro n x c hn hcov
    obtain ⟨x, hx, rfl⟩ := hrewritten.exists_of_get? hn
    simp only [clearNode] at hcov
    split at hcov
    · simp at hcov
    · rename_i hkept
      obtain ⟨hself, y, hy, hyc, hcount⟩ := hwf.covering_link hx hcov
      have hne : c ≠ id := by
        rintro rfl
        exact hkept hcov
      exact ⟨hself, _, hrewritten.get?_of_get? hy, by simp [clearNode, hyc],
        by simp [clearNode, hne, hcount]⟩
  · intro c y n hc hmem
    obtain ⟨y, hy, rfl⟩ := hrewritten.exists_of_get? hc
    simp only [clearNode] at hmem
    split at hmem
    · simp at hmem
    · rename_i hne
      obtain ⟨x, hx, hxc⟩ := hwf.covered_link hy hmem
      exact ⟨_, hrewritten.get?_of_get? hx, by simp [clearNode, hxc, hne]⟩

theorem setExpanded (hwf : g.WellFormed) {id : NodeId} {isExpanded : Bool} {u : Unit}
    (h : (Graph.setExpanded id isExpanded).run g = .ok u g') : g'.WellFormed := by
  obtain ⟨-, hrewritten⟩ := rewritten_of_setExpanded h
  refine hwf.of_rewritten hrewritten (fun i n => by split <;> simp) ?_ ?_
  · intro n x c hn hcov
    obtain ⟨x, hx, rfl⟩ := hrewritten.exists_of_get? hn
    have hcov : x.covering = some c := by split at hcov <;> exact hcov
    obtain ⟨hself, y, hy, hyc, hcount⟩ := hwf.covering_link hx hcov
    exact ⟨hself, _, hrewritten.get?_of_get? hy, by split <;> exact hyc, by split <;> exact hcount⟩
  · intro c y n hc hmem
    obtain ⟨y, hy, rfl⟩ := hrewritten.exists_of_get? hc
    have hmem : n ∈ y.covered := by split at hmem <;> exact hmem
    obtain ⟨x, hx, hxc⟩ := hwf.covered_link hy hmem
    exact ⟨_, hrewritten.get?_of_get? hx, by split <;> exact hxc⟩

theorem createInit (hwf : g.WellFormed) {state : S} {isTarget isFeasible : Bool} {id : NodeId}
    (h : (Graph.createInit state isTarget isFeasible).run g = .ok id g') : g'.WellFormed := by
  obtain ⟨hnew, hinit, -⟩ := createInit_ok h
  have hunlisted : id ∉ g.initNodes := fun hmem => by
    obtain ⟨n, hn, -⟩ := hwf.init_parentless hmem
    exact hnew.ne_id hn rfl
  constructor
  · intro c n p hc hp
    obtain ⟨rfl, rfl⟩ | ⟨n, hn, rfl⟩ := hnew.cases_of_get? hc
    · simp at hp
    · obtain ⟨hlt, m, hm, hlinks⟩ := hwf.parent_link hn hp
      exact ⟨hlt, m, hnew.get?_of_get? hm, hlinks⟩
  · intro p m c hp hc
    obtain ⟨rfl, rfl⟩ | ⟨m, hm, rfl⟩ := hnew.cases_of_get? hp
    · simp at hc
    · obtain ⟨n, hn, hparent⟩ := hwf.succ_link hm hc
      exact ⟨n, hnew.get?_of_get? hn, hparent⟩
  · intro i n hi hparent
    rw [hinit, List.count_append]
    obtain ⟨rfl, rfl⟩ | ⟨n, hn, rfl⟩ := hnew.cases_of_get? hi
    · simp [List.count_eq_zero_of_not_mem hunlisted]
    · obtain ⟨hcount, hdepth⟩ := hwf.init_link hn hparent
      simp [hcount, hdepth, (hnew.ne_id hn).symm]
  · intro i hi
    rw [hinit, List.mem_append, List.mem_singleton] at hi
    obtain hi | rfl := hi
    · obtain ⟨n, hn, hparent⟩ := hwf.init_parentless hi
      exact ⟨n, hnew.get?_of_get? hn, hparent⟩
    · exact ⟨_, hnew.get?_id, rfl⟩
  · intro n a c hn hcov
    obtain ⟨rfl, rfl⟩ | ⟨a, ha, rfl⟩ := hnew.cases_of_get? hn
    · simp at hcov
    · obtain ⟨hself, b, hb, hlinks⟩ := hwf.covering_link ha hcov
      exact ⟨hself, b, hnew.get?_of_get? hb, hlinks⟩
  · intro c b n hc hmem
    obtain ⟨rfl, rfl⟩ | ⟨b, hb, rfl⟩ := hnew.cases_of_get? hc
    · simp at hmem
    · obtain ⟨a, ha, hcov⟩ := hwf.covered_link hb hmem
      exact ⟨a, hnew.get?_of_get? ha, hcov⟩

theorem createSucc (hwf : g.WellFormed) {parent id : NodeId} {state : S}
    {isTarget isFeasible : Bool}
    (h : (Graph.createSucc parent state isTarget isFeasible).run g = .ok id g') :
    g'.WellFormed := by
  obtain ⟨above, habove, -, hnew, hinit, -⟩ := createSucc_ok h
  -- an old node differs at most in its successors
  have hsame : ∀ i (n : Node S), (addChild parent id i n).parent = n.parent ∧
      (addChild parent id i n).depth = n.depth ∧ (addChild parent id i n).covering = n.covering ∧
      (addChild parent id i n).covered = n.covered := by
    intro i n
    unfold addChild
    split <;> simp
  have hunlisted : ∀ {i n}, g.get? i = some n → id ∉ n.succs := fun hi hmem => by
    obtain ⟨n, hn, -⟩ := hwf.succ_link hi hmem
    exact hnew.ne_id hn rfl
  constructor
  · intro c n p hc hp
    obtain ⟨rfl, rfl⟩ | ⟨n, hn, rfl⟩ := hnew.cases_of_get? hc
    · obtain rfl : parent = p := by simpa using hp
      refine ⟨hnew.lt_id habove, _, hnew.get?_of_get? habove, by simp [addChild], ?_⟩
      simp [addChild, List.count_eq_zero_of_not_mem (hunlisted habove)]
    · rw [(hsame c n).1] at hp
      obtain ⟨hlt, m, hm, hdepth, hcount⟩ := hwf.parent_link hn hp
      refine ⟨hlt, _, hnew.get?_of_get? hm, ?_, ?_⟩
      · rw [(hsame c n).2.1, (hsame p m).2.1, hdepth]
      · unfold addChild
        split <;> simp [hcount, (hnew.ne_id hn).symm]
  · intro p m c hp hc
    obtain ⟨rfl, rfl⟩ | ⟨m, hm, rfl⟩ := hnew.cases_of_get? hp
    · simp at hc
    · unfold addChild at hc
      split at hc
      · rename_i hpp
        rcases List.mem_append.1 hc with hc | hc
        · obtain ⟨n, hn, hparent⟩ := hwf.succ_link hm hc
          exact ⟨_, hnew.get?_of_get? hn, by rw [(hsame c n).1, hparent]⟩
        · obtain rfl : c = id := by simpa using hc
          exact ⟨_, hnew.get?_id, by rw [hpp]⟩
      · obtain ⟨n, hn, hparent⟩ := hwf.succ_link hm hc
        exact ⟨_, hnew.get?_of_get? hn, by rw [(hsame c n).1, hparent]⟩
  · intro i n hi hparent
    obtain ⟨rfl, rfl⟩ | ⟨n, hn, rfl⟩ := hnew.cases_of_get? hi
    · simp at hparent
    · rw [(hsame i n).1] at hparent
      rw [hinit, (hsame i n).2.1]
      exact hwf.init_link hn hparent
  · intro i hi
    rw [hinit] at hi
    obtain ⟨n, hn, hparent⟩ := hwf.init_parentless hi
    exact ⟨_, hnew.get?_of_get? hn, by rw [(hsame i n).1, hparent]⟩
  · intro n a c hn hcov
    obtain ⟨rfl, rfl⟩ | ⟨a, ha, rfl⟩ := hnew.cases_of_get? hn
    · simp at hcov
    · rw [(hsame n a).2.2.1] at hcov
      obtain ⟨hself, b, hb, hnone, hcount⟩ := hwf.covering_link ha hcov
      exact ⟨hself, _, hnew.get?_of_get? hb, by rw [(hsame c b).2.2.1, hnone],
        by rw [(hsame c b).2.2.2, hcount]⟩
  · intro c b n hc hmem
    obtain ⟨rfl, rfl⟩ | ⟨b, hb, rfl⟩ := hnew.cases_of_get? hc
    · simp at hmem
    · rw [(hsame c b).2.2.2] at hmem
      obtain ⟨a, ha, hcov⟩ := hwf.covered_link hb hmem
      exact ⟨_, hnew.get?_of_get? ha, by rw [(hsame n a).2.2.1, hcov]⟩

end WellFormed

end GuidedReach.Graph
