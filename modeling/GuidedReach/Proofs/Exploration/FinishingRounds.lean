import GuidedReach.Proofs.Exploration.Finishing

/-!
# Rounds come to an end

A target whose successors are needed is opened in several attempts, each of which covers one more
node. With that, all that is asked of older generations finishes, by induction on their index: it is
an exploration of an older generation itself. So the work on the live generation finishes as well.

* `Exploration.Covered` — nodes that are covered; there are only so many of them.
* `Exploration.openTarget_finishes` — opening a target finishes.
* `Exploration.below_ends` — work on older generations finishes.
* `Exploration.solveLive_finishes`, `Exploration.resumeLive_finishes` — so does work on the live one.
-/

namespace GuidedReach.Exploration

open Explore

variable {S P K : Type}

/-! ## Nodes that are covered -/

/-- Nodes of a graph, all different, that are covered. -/
structure Covered (g : Graph S) (covered : List NodeId) : Prop where
  nodup : covered.Nodup
  covering : ∀ i ∈ covered, ∃ n, g.get? i = some n ∧ n.covering ≠ none

namespace Covered

variable {g g' : Graph S} {covered : List NodeId} {id coverer : NodeId} {n : Node S}

theorem length_le (h : Covered g covered) : covered.length ≤ g.size :=
  g.length_le_size h.nodup fun i hi => (h.covering i hi).imp fun _ h => h.1

theorem not_mem (h : Covered g covered) (hn : g.get? id = some n) (hfree : n.covering = none) :
    id ∉ covered := by
  intro hid
  obtain ⟨m, hm, hcovering⟩ := h.covering id hid
  exact hcovering (Option.some.inj (hn.symm.trans hm) ▸ hfree)

/-- A node that is free is not one of those that are covered. -/
theorem length_lt (h : Covered g covered) (hn : g.get? id = some n) (hfree : n.covering = none) :
    covered.length < g.size := by
  have hlength := g.length_le_size (List.nodup_cons.2 ⟨h.not_mem hn hfree, h.nodup⟩)
    (List.forall_mem_cons.2 ⟨⟨n, hn⟩, fun i hi => (h.covering i hi).imp fun _ h => h.1⟩)
  simpa using hlength

/-- Covering one more node leaves the others covered. -/
theorem cons (h : Covered g covered) (hn : g.get? id = some n) (hfree : n.covering = none)
    (hcovered : CoveredBy id (some coverer) g g') : Covered g' (id :: covered) := by
  obtain ⟨a, -, hrewritten⟩ := hcovered
  refine ⟨List.nodup_cons.2 ⟨h.not_mem hn hfree, h.nodup⟩,
    List.forall_mem_cons.2 ⟨⟨_, hrewritten.get?_of_get? hn, by simp [Graph.coverNode]⟩, fun i hi => ?_⟩⟩
  obtain ⟨m, hm, hcovering⟩ := h.covering i hi
  refine ⟨_, hrewritten.get?_of_get? hm, ?_⟩
  unfold Graph.coverNode
  split
  · simp
  · exact hcovering

end Covered

/-! ## Targets whose successors are needed -/

variable [DecidableEq S] [DecidableEq K]
variable {setup : Setup S P K} {older : Older S P K} {index size : Nat} {allowed : P → Prop}
variable {p : Progress S P K} {gen : Generation S P K} {id : NodeId} {stop : StopCriterion}

section

variable (hlaws : setup.analysis.Lawful) (hends : older.Ends setup allowed size index)
variable (hp : Confined setup allowed size p) (holder : older.Lawful setup allowed index)

include hlaws hends hp holder

theorem expandTarget_finishes (hgen : p.history.get? index = some gen) {n : Node S}
    (hn : gen.graph.get? id = some n) (hfree : n.covering = none) (hopen : n.isExpanded = false)
    (htarget : n.isTarget = true) {d : Distance} (hd : gen.heuristic id = .ok d)
    (hknown : d.isKnown = true) (hclosed : gen.Uncoverable setup.analysis id) :
    (expandTarget setup older index id).Finishes p := by
  unfold expandTarget
  refine finishes_bind expand_finishes fun new q hexpand => ?_
  obtain ⟨hquiet, gen', -, hq, -, -, -, hparent⟩ := expand_added hlaws hp.faithful hgen hn hfree
    hopen (.inl htarget) hd hknown (.inl htarget) hclosed hexpand
  have hp' := hp.works hlaws hquiet.works
  refine finishes_forM fun before succ after r heq hrun => ?_
  obtain ⟨hupto, -⟩ := forM_settleNew_ok hlaws hp'.faithful hq holder
    (fun i hi => hparent i (heq ▸ List.mem_append_left _ hi)) hrun
  refine finishes_bind (createSearchNode_finishes hends (hp'.works hlaws hupto.works)) fun _ _ _ => ?_
  refine finishes_node_bind fun _ m _ _ => ?_
  split
  · exact finishes_bind finishes_setHeuristic fun _ _ _ => finishes_setDistance
  · exact finishes_pure

/-- **Opening a target finishes**: each time that it is closed one more node is covered, and what
covers a node is not covered itself. -/
theorem openTarget_finishes (hgen : p.history.get? index = some gen) {n : Node S}
    (hn : gen.graph.get? id = some n) (htarget : n.isTarget = true) {covered : List NodeId}
    (hcovered : Covered gen.graph covered) {fuel : Nat} (hfuel : 2 * size ≤ 2 * covered.length + fuel)
    (hmore : n.covering ≠ none → 2 * size < 2 * covered.length + fuel) :
    (openTarget setup older index fuel id).Finishes p := by
  have hsize := hp.size_le (.refl p) hgen
  induction fuel generalizing p gen id n covered with
  | zero =>
    by_cases hfree : n.covering = none
    · have hlength := hcovered.length_lt hn hfree
      omega
    · have hlength := hcovered.length_le
      have hlt := hmore hfree
      omega
  | succ fuel ih =>
    unfold openTarget
    refine finishes_node_bind fun _ n' hgen' hn' => ?_
    obtain rfl := Option.some.inj (hgen.symm.trans hgen')
    obtain rfl := Option.some.inj (hn.symm.trans hn')
    split
    · rename_i coverer hcovering
      obtain ⟨-, b, hb, hfree, -⟩ :=
        (hp.faithful index gen hgen).1.wellFormed.covering_link hn hcovering
      refine finishes_node_bind fun _ m hgen' hm => finishes_lift_bind fun _ hdemand => ?_
      obtain rfl := Option.some.inj (hgen.symm.trans hgen')
      obtain rfl := Option.some.inj (hm.symm.trans hb)
      have hlt := hmore (by simp [hcovering])
      exact ih hp hgen hm (demand_eq_ok.1 hdemand) hcovered (by omega)
        (fun hcov => absurd hfree hcov) hsize
    · rename_i hfree
      split
      · exact finishes_pure
      · rename_i hopen
        refine finishes_bind (ensureHeuristic_finishes hlaws hends fun _ => hp) fun d q hensure => ?_
        obtain ⟨hquiet, hknown, gen₁, hgen₁, hgraph, -, hd⟩ :=
          ensureHeuristic_ok holder hp.faithful hgen hensure
        have hq := hp.works hlaws hquiet.works
        rw [← hgraph] at hn hcovered
        refine finishes_bind (close_finishes hlaws hends hq holder) fun result r hclose => ?_
        obtain ⟨hquiet', gen₂, hgen₂, hcoveredBy, huncoverable⟩ :=
          close_ok holder hq.faithful hlaws hgen₁
            (fun a ha => .inl (Option.some.inj (hn.symm.trans ha) ▸ htarget)) hclose
        have hr := hq.works hlaws hquiet'.works
        cases result with
        | some coverer =>
          have hcovered' := hcovered.cons hn hfree hcoveredBy
          obtain ⟨a, -, hrewritten⟩ := hcoveredBy
          refine ih hr hgen₂ (hrewritten.get?_of_get? hn) htarget hcovered' ?_ (fun _ => ?_)
            (hr.size_le (.refl r) hgen₂)
          · rw [List.length_cons]
            omega
          · rw [List.length_cons]
            omega
        | none =>
          obtain ⟨-, gen₂', hgen₂', hkept, -⟩ := hquiet'.generation hlaws hq.faithful hgen₁
          obtain rfl := Option.some.inj (hgen₂.symm.trans hgen₂')
          have hgraph' : gen₂.graph = gen₁.graph := hcoveredBy
          exact expandTarget_finishes hlaws hends hr holder hgen₂ (hgraph' ▸ hn) hfree
            (by simpa using hopen) htarget (hkept.heuristic hd hknown) hknown (huncoverable rfl)

theorem openProvider_finishes (hfuel : 2 * size < setup.fuel) :
    (openProvider setup older index id).Finishes p := by
  have hopen : ∀ {gen : Generation S P K} {id : NodeId} {n : Node S},
      p.history.get? index = some gen → gen.graph.get? id = some n → n.isTarget = true →
      (openTarget setup older index setup.fuel id).Finishes p := fun hgen hn htarget =>
    openTarget_finishes hlaws hends hp holder hgen hn htarget ⟨List.nodup_nil, by simp⟩
      (by simpa using Nat.le_of_lt hfuel) fun _ => by simpa using hfuel
  unfold openProvider
  refine finishes_node_bind fun gen n hgen hn => ?_
  split
  · rename_i htarget
    exact hopen hgen hn htarget
  · split
    · refine finishes_node_bind fun gen m hgen hm => ?_
      split
      · rename_i htarget
        exact hopen hgen hm htarget
      · exact finishes_lift
    · exact finishes_lift

end

/-! ## Older generations -/

/-- **Work on older generations finishes**, by induction on their index. -/
theorem below_ends (hlaws : setup.analysis.Lawful) (hfuel : 2 * size < setup.fuel) (bound : Nat) :
    (below setup bound).Ends setup allowed size bound := by
  induction bound with
  | zero => exact ⟨fun _ _ _ _ _ hlt => by omega, fun _ _ _ _ hlt => by omega⟩
  | succ bound ih =>
    refine ⟨fun _ index start stop p hlt hp => ?_, fun _ index id p hlt hp => ?_⟩
    · exact solve_finishes hlaws (ih.mono (Nat.le_of_lt_succ hlt)) hp
        ((below_lawful hlaws bound).mono (Nat.le_of_lt_succ hlt)) (by omega)
    · exact openProvider_finishes hlaws (ih.mono (Nat.le_of_lt_succ hlt)) hp
        ((below_lawful hlaws bound).mono (Nat.le_of_lt_succ hlt)) hfuel

/-! ## The live generation -/

section

variable (hlaws : setup.analysis.Lawful) (hp : Confined setup allowed size p)
variable (hfuel : 2 * size < setup.fuel)

include hlaws hp hfuel

theorem ensureInitialized_finishes : (ensureInitialized setup index).Finishes p := by
  unfold ensureInitialized
  refine finishes_generation_bind fun gen hgen => ?_
  split
  · exact finishes_pure
  · rename_i hopen
    have hopen : gen.graph.isInitialized = false := by simpa using hopen
    refine finishes_bind finishes_editGraph fun new q hedit => ?_
    obtain ⟨_, graph, hgen', hseed, rfl⟩ := run_editGraph_ok.1 hedit
    obtain rfl := Option.some.inj (hgen.symm.trans hgen')
    obtain ⟨hfaithful, hprec⟩ := hp.faithful index gen hgen
    obtain ⟨-, hadded, -⟩ := Graph.seed_ok hfaithful hopen hprec hseed
    have hstep : Step setup index p (p.put index { gen with graph }) := .seed hgen hopen hseed
    exact forM_createSearchNode_finishes hlaws (below_ends hlaws hfuel index)
      (hp.works hlaws hstep.works) (below_lawful hlaws index) (Progress.get?_put_self hgen)
      fun i hi n parent hn hparent => by simp [hadded.parent_eq hi hn] at hparent

/-- **Solving the live generation finishes**, all of whose nodes have search nodes. -/
theorem solveLive_finishes (hgen : p.history.get? index = some gen) :
    (solveLive setup index [] stop).Finishes p := by
  unfold solveLive
  refine finishes_bind finishes_pure fun _ q hnone => ?_
  obtain ⟨-, rfl⟩ : _ ∧ p = q := run_pure_ok.1 hnone
  refine finishes_bind (ensureInitialized_finishes hlaws hp hfuel) fun _ q hbegun => ?_
  obtain ⟨hquiet, -⟩ := ensureInitialized_ok hlaws hp.faithful hgen hbegun
  exact finishes_generation_bind fun _ _ => solve_finishes hlaws (below_ends hlaws hfuel index)
    (hp.works hlaws hquiet.works) (below_lawful hlaws index) (by omega)

end

omit [DecidableEq S] [DecidableEq K] in
theorem loosen_finishes : (loosen index id : Explore S P K Unit).Finishes p := by
  unfold loosen
  refine finishes_generation_bind fun gen _ => finishes_lift_bind fun n _ => ?_
  split
  · refine finishes_lift_bind fun _ _ => finishes_lift_bind fun _ _ =>
      finishes_lift_bind fun less _ => ?_
    split
    · exact finishes_editGraph
    · exact finishes_pure
  · exact finishes_pure

/-- **Preparing the next round finishes**: decreasing heuristics need no older generations. -/
theorem resumeLive_finishes (hlaws : setup.analysis.Lawful) :
    (resumeLive setup index).Finishes p := by
  unfold resumeLive
  split
  · rename_i hdecreasing
    have hends : (below setup index).Ends setup (fun _ => True) 0 index :=
      ⟨fun hsemi => by simp [hdecreasing] at hsemi, fun hsemi => by simp [hdecreasing] at hsemi⟩
    refine finishes_generation_bind fun gen _ => finishes_bind ?_ fun _ _ _ => ?_
    · exact finishes_forM fun _ _ _ _ _ _ => finishes_bind
        (ensureHeuristic_finishes hlaws hends fun hsemi => by simp [hdecreasing] at hsemi)
        fun _ _ _ => finishes_pure
    · exact finishes_forM fun _ _ _ _ _ _ => loosen_finishes
  · exact finishes_pure

end GuidedReach.Exploration
