import GuidedReach.Graph.Path
import GuidedReach.Proofs.Graph.Growth

/-!
# Paths to targets outlive growth

A path from a node to a target keeps its length while the graph below grows. When a node is covered,
the nodes that it covered move on to the new coverer; a path through the old edge ended right there, at
a target, and then the new coverer is a target as well.

* `Graph.Edge.of_addedLeaves`, `Graph.edge_of_cover` — the edges after a change, and where they come
  from.
* `Graph.ReachesTarget.of_addedLeaves` — new leaves do not cut paths.
* `Graph.ReachesTarget.of_cover` — nor does covering an open leaf.
* `Graph.NearestTarget`, `Graph.ExploredTo` — how far the nearest target is, and that nothing nearer is
  left open.
-/

namespace GuidedReach.Graph

variable {S : Type} {g g' : Graph S} {id coverer i length : Nat}

/-- An edge leads from one node of the graph to another. -/
theorem Edge.exists_nodes {j w : Nat} (h : g.Edge i j w) (hwf : g.WellFormed) :
    (∃ n, g.get? i = some n) ∧ ∃ n, g.get? j = some n := by
  cases h with
  | tree hc hparent =>
    obtain ⟨m, hm, -⟩ := hwf.exists_parent hc hparent
    exact ⟨⟨m, hm⟩, _, hc⟩
  | covering ha hcovering =>
    obtain ⟨-, m, hm, -⟩ := hwf.covering_link ha hcovering
    exact ⟨⟨_, ha⟩, m, hm⟩

theorem ReachesTarget.of_isTarget {n : Node S} (hn : g.get? i = some n) (htarget : n.isTarget = true) :
    g.ReachesTarget i 0 :=
  ⟨i, n, .refl i, hn, htarget⟩

/-- A path from a node that is no target begins with an edge. -/
theorem ReachesTarget.exists_edge (h : g.ReachesTarget i length) {n : Node S} (hn : g.get? i = some n)
    (htarget : n.isTarget = false) :
    ∃ j w rest, g.Edge i j w ∧ g.ReachesTarget j rest ∧ length = w + rest := by
  obtain ⟨target, m, hpath, hm, hmtarget⟩ := h
  cases hpath with
  | refl =>
    rw [hn] at hm
    cases hm
    rw [htarget] at hmtarget
    cases hmtarget
  | step hedge hrest => exact ⟨_, _, _, hedge, ⟨target, m, hrest, hm, hmtarget⟩, rfl⟩

/-- A graph with the same edges and targets has the same paths. -/
theorem ReachesTarget.mono (h : g.ReachesTarget i length)
    (hedge : ∀ {a b w}, g.Edge a b w → g'.Edge a b w)
    (htarget : ∀ {j n}, g.get? j = some n → n.isTarget = true →
      ∃ n', g'.get? j = some n' ∧ n'.isTarget = true) : g'.ReachesTarget i length := by
  obtain ⟨target, n, hpath, hn, hn'⟩ := h
  obtain ⟨m, hm, hm'⟩ := htarget hn hn'
  refine ⟨target, m, ?_, hm, hm'⟩
  clear hn hm
  induction hpath with
  | refl => exact .refl _
  | step h _ ih => exact .step (hedge h) ih

/-- New leaves leave the edges as they are. -/
theorem Edge.of_addedLeaves {parent : Option NodeId} {new : List NodeId} {j w : Nat}
    (h : g.Edge i j w) (hadded : AddedLeaves parent new g g') : g'.Edge i j w := by
  cases h with
  | tree hn hparent =>
    obtain ⟨n', hn', hgrows⟩ := hadded.grows.node hn
    exact .tree hn' (hgrows.parent.trans hparent)
  | covering hn hcovering =>
    obtain ⟨n', hn', -⟩ := hadded.grows.node hn
    obtain ⟨m, hm, hsame, -⟩ := hadded.old (hadded.notMem hn) hn'
    obtain rfl := Option.some.inj (hn.symm.trans hm)
    exact .covering hn' (hsame.trans hcovering)

/-- The only new edges lead to new leaves. -/
theorem edge_of_addedLeaves {parent : Option NodeId} {new : List NodeId} {j w : Nat}
    (h : g'.Edge i j w) (hadded : AddedLeaves parent new g g') :
    g.Edge i j w ∨ j ∈ new ∧ w = 1 ∧ parent = some i := by
  cases h with
  | tree hn hparent =>
    by_cases hnew : j ∈ new
    · exact .inr ⟨hnew, rfl, (hadded.parent_eq hnew hn).symm.trans hparent⟩
    · obtain ⟨m, hm, hgrows, -⟩ := hadded.exists_old hnew hn
      exact .inl (.tree hm (hgrows.parent.symm.trans hparent))
  | covering hn hcovering =>
    by_cases hnew : i ∈ new
    · simp [(hadded.isOpen_of_mem hnew hn).2.1] at hcovering
    · obtain ⟨m, hm, hsame, -⟩ := hadded.old hnew hn
      exact .inl (.covering hm (hsame.symm.trans hcovering))

/-- New leaves do not cut paths. -/
theorem ReachesTarget.of_addedLeaves {parent : Option NodeId} {new : List NodeId}
    (h : g.ReachesTarget i length) (hadded : AddedLeaves parent new g g') :
    g'.ReachesTarget i length := by
  refine h.mono (fun hedge => hedge.of_addedLeaves hadded) fun {j n} hn htarget => ?_
  obtain ⟨n', hn', hgrows⟩ := hadded.grows.node hn
  exact ⟨n', hn', hgrows.isTarget.trans htarget⟩

/-- No edge leaves an uncovered leaf. -/
theorem not_edge_of_leaf (hwf : g.WellFormed) {a : Node S} (ha : g.get? id = some a)
    (hfree : a.covering = none) (hleaf : a.succs = []) {j w : Nat} : ¬ g.Edge id j w := by
  intro hedge
  cases hedge with
  | tree hn hparent =>
    obtain ⟨m, hm, -, hcount⟩ := (hwf.parent_link hn hparent).2
    obtain rfl := Option.some.inj (ha.symm.trans hm)
    simp [hleaf] at hcount
  | covering hn hcovering =>
    obtain rfl := Option.some.inj (ha.symm.trans hn)
    simp [hfree] at hcovering

section

variable {a : Node S} (ha : g.get? id = some a)
variable {moved : List NodeId} (hrewritten : Rewritten (coverNode id coverer moved) g g')

include ha hrewritten

/-- After a node was covered, what led to it by a covering edge leads to the new coverer. -/
theorem Edge.of_cover (hfree : a.covering = none) {j w : Nat} (h : g.Edge i j w) :
    g'.Edge i j w ∨ j = id ∧ w = 0 ∧ g'.Edge i coverer 0 := by
  cases h with
  | tree hn hparent => exact .inl (.tree (hrewritten.get?_of_get? hn) hparent)
  | covering hn hcovering =>
    by_cases hmoved : j = id
    · refine .inr ⟨hmoved, rfl, .covering (hrewritten.get?_of_get? hn) ?_⟩
      simp [coverNode, hcovering, hmoved]
    · refine .inl (.covering (hrewritten.get?_of_get? hn) ?_)
      have hne : i ≠ id := by
        rintro rfl
        obtain rfl := Option.some.inj (ha.symm.trans hn)
        simp [hfree] at hcovering
      simp [coverNode, hcovering, hne, hmoved]

omit ha in
/-- Where the edges come from after a node was covered. -/
theorem edge_of_cover {j w : Nat} (h : g'.Edge i j w) :
    g.Edge i j w ∨ j = coverer ∧ w = 0 ∧ (i = id ∨ g.Edge i id 0) := by
  cases h with
  | tree hn' hparent =>
    obtain ⟨n, hn, rfl⟩ := hrewritten.exists_of_get? hn'
    exact .inl (.tree hn hparent)
  | covering hn' hcovering =>
    obtain ⟨n, hn, rfl⟩ := hrewritten.exists_of_get? hn'
    simp only [coverNode] at hcovering
    split at hcovering
    · rename_i hmoved
      exact .inr ⟨(Option.some.inj hcovering).symm, rfl, hmoved.imp_right (.covering hn)⟩
    · exact .inl (.covering hn hcovering)

end

/-- **Covering an open leaf does not cut paths**: what led to the leaf now leads to its coverer, and if
the leaf is a target then so is the coverer. -/
theorem ReachesTarget.of_cover (h : g.ReachesTarget i length) (hwf : g.WellFormed) {a b : Node S}
    (ha : g.get? id = some a) (hb : g.get? coverer = some b) (hleaf : a.succs = [])
    (htarget : a.isTarget = true → b.isTarget = true) {u : Unit}
    (hcover : (cover id coverer).run g = .ok u g') : g'.ReachesTarget i length := by
  obtain ⟨-, a', b', ha', hfree, hb', -, hrewritten⟩ := cover_ok hwf hcover
  obtain rfl := Option.some.inj (ha.symm.trans ha')
  obtain rfl := Option.some.inj (hb.symm.trans hb')
  obtain ⟨target, n, hpath, hn, hn'⟩ := h
  induction hpath with
  | refl i => exact .of_isTarget (hrewritten.get?_of_get? hn) hn'
  | @step i next target w length hedge hpath ih =>
    rcases hedge.of_cover ha hrewritten hfree with hsame | ⟨rfl, rfl, hmoved⟩
    · exact .step hsame (ih hn)
    · -- the path ended at the leaf
      obtain ⟨rfl, rfl⟩ : target = next ∧ length = 0 := by
        cases hpath with
        | refl => exact ⟨rfl, rfl⟩
        | step hedge _ => exact absurd hedge (not_edge_of_leaf hwf ha hfree hleaf)
      obtain rfl := Option.some.inj (ha.symm.trans hn)
      exact .step hmoved (.of_isTarget (hrewritten.get?_of_get? hb) (htarget hn'))

/-! ## The nearest target -/

/-- The length of a shortest path from one of some nodes to a target, if there is a path at all. -/
def NearestTarget (g : Graph S) (start : List NodeId) : Option Nat → Prop
  | none => ∀ s ∈ start, ∀ length, ¬ g.ReachesTarget s length
  | some nearest => IsLeast {length | ∃ s ∈ start, g.ReachesTarget s length} nearest

/-- Whatever a path from one of some nodes leads to was explored, if the path is shorter than a
bound. -/
def ExploredTo (g : Graph S) (start : List NodeId) (bound : Option Nat) : Prop :=
  ∀ s ∈ start, ∀ {i length n}, g.Path s i length → (∀ d, bound = some d → length < d) →
    g.get? i = some n → n.isCovered = true ∨ n.isExpanded = true ∨ n.isFeasible = false

end GuidedReach.Graph
