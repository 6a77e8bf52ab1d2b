import GuidedReach.Proofs.Graph.WellFormed

/-!
# Removing covering edges

Covering edges can be removed one by one or all at once: the result is the same graph, in which the
edges that are left keep their places.

* `Graph.sever` — a graph without the covering edges that a test picks out.
* `Graph.Rewritten.eq_mapNodes` — a graph with changed nodes is determined by the change.
* `Graph.sever_sever`, `Graph.WellFormed.sever_congr` — severing twice, and which pairs matter.
* `Graph.uncover_eq_sever` — removing the one edge that leaves a node.
-/

namespace GuidedReach

namespace Graph

variable {S : Type} {g g' : Graph S} {cut cut' : NodeId → NodeId → Bool}

/-- The graph with all its nodes changed. -/
def mapNodes (f : NodeId → Node S → Node S) (g : Graph S) : Graph S :=
  { g with nodes := g.nodes.mapWithId f }

theorem rewritten_mapNodes (f : NodeId → Node S → Node S) (g : Graph S) :
    Rewritten f g (g.mapNodes f) :=
  ⟨NodeMap.get?_mapWithId f g.nodes, rfl, rfl, NodeMap.slotCount_mapWithId f g.nodes⟩

/-- **A graph with changed nodes is determined by the change.** -/
theorem Rewritten.eq_mapNodes {f : NodeId → Node S → Node S} (h : Rewritten f g g') :
    g' = g.mapNodes f := by
  have hnodes : g'.nodes = g.nodes.mapWithId f := NodeMap.ext_get?
    (h.slotCount.trans (NodeMap.slotCount_mapWithId f g.nodes).symm)
    fun i => (h.get? i).trans (NodeMap.get?_mapWithId f g.nodes i).symm
  cases g'
  simp_all [mapNodes, h.initNodes.symm, h.isInitialized.symm]

/-- A node without the covering edges that are picked out. -/
def severNode (cut : NodeId → NodeId → Bool) (id : NodeId) (n : Node S) : Node S :=
  { n with
    covering := n.covering.filter fun coverer => !cut id coverer
    covered := n.covered.filter fun other => !cut other id }

/-- The graph without the covering edges, from a node to its coverer, that are picked out. The nodes
that stay covered keep their order. -/
def sever (cut : (id coverer : NodeId) → Bool) (g : Graph S) : Graph S :=
  g.mapNodes (severNode cut)

theorem rewritten_sever (cut : NodeId → NodeId → Bool) (g : Graph S) :
    Rewritten (severNode cut) g (g.sever cut) :=
  rewritten_mapNodes _ g

theorem sever_sever (cut cut' : NodeId → NodeId → Bool) (g : Graph S) :
    (g.sever cut).sever cut' = g.sever fun id coverer => cut id coverer || cut' id coverer := by
  refine (((rewritten_sever cut g).trans (rewritten_sever cut' _)).congr fun i n _ => ?_).eq_mapNodes
  have hcovering : ((n.covering.filter fun c => !cut i c).filter fun c => !cut' i c) =
      n.covering.filter fun c => !(cut i c || cut' i c) := by
    rw [Option.filter_filter]
    simp only [Bool.not_or]
  have hcovered : ((n.covered.filter fun c => !cut c i).filter fun c => !cut' c i) =
      n.covered.filter fun c => !(cut c i || cut' c i) := by
    rw [List.filter_filter]
    simp only [Bool.not_or, Bool.and_comm]
  simp only [severNode, hcovering, hcovered]

theorem sever_nothing (g : Graph S) : (g.sever fun _ _ => false) = g := by
  refine Eq.symm (((Rewritten.refl g).congr fun i n _ => ?_).eq_mapNodes)
  have hcovering : (n.covering.filter fun _ => true) = n.covering := by cases n.covering <;> rfl
  simp [severNode, hcovering]

namespace WellFormed

variable (hwf : g.WellFormed)

include hwf

/-- Only the covering edges of the graph matter. -/
theorem sever_congr (h : ∀ {i n c}, g.get? i = some n → n.covering = some c → cut i c = cut' i c) :
    g.sever cut = g.sever cut' := by
  refine ((rewritten_sever cut g).congr fun i n hn => ?_).eq_mapNodes
  have hcovering : (n.covering.filter fun c => !cut i c) = n.covering.filter fun c => !cut' i c := by
    cases hc : n.covering with
    | none => rfl
    | some c => simp [Option.filter, h hn hc]
  have hcovered : (n.covered.filter fun other => !cut other i) =
      n.covered.filter fun other => !cut' other i := by
    refine List.filter_congr fun other hother => ?_
    obtain ⟨a, ha, hc⟩ := hwf.covered_link hn hother
    rw [h ha hc]
  simp only [severNode, hcovering, hcovered]

/-- Without an edge to cut the graph stays as it is. -/
theorem sever_eq_self (h : ∀ {i n c}, g.get? i = some n → n.covering = some c → cut i c = false) :
    g.sever cut = g :=
  (hwf.sever_congr h).trans (sever_nothing g)

/-- **Removing the covering edge that leaves a node** is severing it. -/
theorem uncover_eq_sever {id : NodeId} {u : Unit} (h : (Graph.uncover id).run g = .ok u g') :
    g' = g.sever fun i _ => i == id := by
  obtain ⟨a, ha, hrewritten⟩ := uncover_ok hwf h
  refine (hrewritten.congr fun i n hn => ?_).eq_mapNodes
  have hcovering : (if i = id then none else n.covering) = n.covering.filter fun _ => !(i == id) := by
    by_cases hi : i = id
    · simp [hi]
    · rw [if_neg hi, beq_eq_false_iff_ne.2 hi]
      cases n.covering <;> rfl
  simp only [uncoverNode, severNode, hcovering, bne]

theorem sever (cut : NodeId → NodeId → Bool) : (g.sever cut).WellFormed := by
  have hrewritten := rewritten_sever cut g
  refine hwf.of_rewritten hrewritten (fun i n => ⟨rfl, rfl, rfl⟩) ?_ ?_
  · intro i n c hn hc
    obtain ⟨m, hm, rfl⟩ := hrewritten.exists_of_get? hn
    obtain ⟨hc, hkept⟩ := Option.filter_eq_some_iff.1 hc
    obtain ⟨hne, b, hb, hfree, hcount⟩ := hwf.covering_link hm hc
    refine ⟨hne, _, hrewritten.get?_of_get? hb, by simp [severNode, hfree], ?_⟩
    rw [← hcount]
    exact List.count_filter (by simpa using hkept)
  · intro c b i hb hi
    obtain ⟨m, hm, rfl⟩ := hrewritten.exists_of_get? hb
    obtain ⟨hi, hkept⟩ := List.mem_filter.1 hi
    obtain ⟨a, ha, hc⟩ := hwf.covered_link hm hi
    exact ⟨_, hrewritten.get?_of_get? ha, Option.filter_eq_some_iff.2 ⟨hc, hkept⟩⟩

end WellFormed

end Graph

end GuidedReach
