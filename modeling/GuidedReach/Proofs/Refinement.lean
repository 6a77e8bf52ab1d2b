import GuidedReach.Proofs.Abstractor.Guarded
import GuidedReach.Proofs.Partition.Blocks
import GuidedReach.Proofs.TransitionSystem.Replay
import GuidedReach.Refinement

/-!
# Refining decides the shallowest counterexample

A graph that is not safe has a shallowest counterexample. Its trace starts at a node without a parent.
If the block of that node shares a state with the init states, then the replay of the trace has a last
step to split at, and refining meets no fault.

* `Graph.Shallowest`, `Graph.exists_shallowest` — the shallowest open target, the oldest of several.
* `Graph.WellFormed.exists_traceTo` — a trace starts at a node without a parent.
* `TransitionSystem.RefinesAlong` — what refining along the trace to a node comes to.
* `TransitionSystem.exists_refinesAlong` — **refining does just that**.
* `TransitionSystem.exists_refine_feasible` — it finds a counterexample if an init node is a target.
-/

namespace GuidedReach

/-! ## Shallowest nodes -/

namespace Graph

variable {S P K : Type} {g : Graph S} {id : NodeId} {n : Node S}

/-- The node is an open target of least depth, and the oldest one at that depth. -/
structure Shallowest (g : Graph S) (id : NodeId) : Prop where
  mem : id ∈ g.unsafeNodes
  least : ∀ {j n m}, j ∈ g.unsafeNodes → g.get? id = some n → g.get? j = some m →
    n.depth < m.depth ∨ n.depth = m.depth ∧ id ≤ j

/-- Of ascending numbers, the first one with the least value is chosen. -/
theorem foldl_shallowest (depth : NodeId → Nat) (best : NodeId) (rest : List NodeId)
    (hascending : (best :: rest).Pairwise (· < ·)) :
    ∃ id ∈ best :: rest,
      rest.foldl (fun best id => if depth id < depth best then id else best) best = id ∧
      ∀ j ∈ best :: rest, depth id < depth j ∨ depth id = depth j ∧ id ≤ j := by
  induction rest generalizing best with
  | nil => exact ⟨best, List.mem_cons_self, rfl, by simp⟩
  | cons next rest ih =>
    obtain ⟨hbest, hrest⟩ := List.pairwise_cons.1 hascending
    have hnext : best < next := hbest next List.mem_cons_self
    rw [List.foldl_cons]
    split
    · rename_i hlt
      obtain ⟨id, hid, hfold, hleast⟩ := ih next hrest
      refine ⟨id, List.mem_cons_of_mem _ hid, hfold, fun j hj => ?_⟩
      rcases List.mem_cons.1 hj with rfl | hj
      · have := hleast next List.mem_cons_self
        exact .inl (by omega)
      · exact hleast j hj
    · rename_i hge
      obtain ⟨id, hid, hfold, hleast⟩ :=
        ih best (hascending.sublist ((List.sublist_cons_self next rest).cons_cons best))
      refine ⟨id, ?_, hfold, fun j hj => ?_⟩
      · rcases List.mem_cons.1 hid with rfl | hid
        · exact List.mem_cons_self
        · exact List.mem_cons_of_mem _ (List.mem_cons_of_mem _ hid)
      · rcases List.mem_cons.1 hj with rfl | hj
        · exact hleast j List.mem_cons_self
        · rcases List.mem_cons.1 hj with rfl | hj
          · have hle : depth best ≤ depth j := Nat.le_of_not_lt hge
            rcases hleast best List.mem_cons_self with hlt | ⟨heq, hid⟩
            · exact .inl (hlt.trans_le hle)
            · rw [heq]
              exact hle.lt_or_eq.imp_right fun h => ⟨h, hid.trans hnext.le⟩
          · exact hleast j (List.mem_cons_of_mem _ hj)

/-- A graph that is not safe has a shallowest open target. -/
theorem exists_shallowest (hopen : g.isSafe = false) :
    ∃ id, g.shallowest? g.unsafeNodes = some id ∧ g.Shallowest id := by
  have hascending : g.unsafeNodes.Pairwise (· < ·) := (List.pairwise_lt_range.filter _).filter _
  cases hids : g.unsafeNodes with
  | nil =>
    rw [isSafe, hids] at hopen
    cases hopen
  | cons first rest =>
    obtain ⟨id, hid, hfold, hleast⟩ :=
      foldl_shallowest (fun id => ((g.get? id).map (·.depth)).getD 0) first rest (hids ▸ hascending)
    refine ⟨id, congrArg some hfold, hids ▸ hid, fun {j n m} hj hn hm => ?_⟩
    simpa [hn, hm] using hleast j (hids ▸ hj)

/-! ## Traces -/

/-- The ancestors of a node go up to one without a parent, since numbers decrease on the way up. -/
theorem WellFormed.exists_ancestorsWithin (hwf : g.WellFormed) {steps : Nat}
    (hn : g.get? id = some n) (hsteps : id ≤ steps) :
    ∃ root m below, g.ancestorsWithin steps id = below ++ [root] ∧ g.get? root = some m ∧
      m.parent = none := by
  induction steps generalizing id n with
  | zero =>
    refine ⟨id, n, [], rfl, hn, ?_⟩
    cases hparent : n.parent with
    | none => rfl
    | some p =>
      obtain ⟨hlt, -⟩ := hwf.parent_link hn hparent
      exact absurd (Nat.lt_of_lt_of_le hlt hsteps) (Nat.not_lt_zero p)
  | succ steps ih =>
    simp only [ancestorsWithin, hn, Option.bind_some]
    cases hparent : n.parent with
    | none => exact ⟨id, n, [], rfl, hn, hparent⟩
    | some p =>
      obtain ⟨hlt, m, hm, -⟩ := hwf.parent_link hn hparent
      obtain ⟨root, m', below, heq, hm', hroot⟩ := ih hm (Nat.le_of_lt_succ (Nat.lt_of_lt_of_le hlt hsteps))
      exact ⟨root, m', id :: below, by simp [heq], hm', hroot⟩

/-- **A trace starts at a node without a parent**, and all its nodes are in the graph. -/
theorem WellFormed.exists_traceTo (hwf : g.WellFormed) (hn : g.get? id = some n) :
    (∃ root m rest, g.traceTo id = root :: rest ∧ g.get? root = some m ∧ m.parent = none) ∧
      ∀ i ∈ g.traceTo id, ∃ m, g.get? i = some m := by
  constructor
  · obtain ⟨root, m, below, heq, hm, hroot⟩ := hwf.exists_ancestorsWithin hn (Nat.le_refl id)
    exact ⟨root, m, below.reverse, by simp [traceTo, ancestors, heq], hm, hroot⟩
  · intro i hi
    rcases above_of_mem_ancestorsWithin (List.mem_reverse.1 hi) with rfl | habove
    · exact ⟨n, hn⟩
    · obtain ⟨-, m, hm, -⟩ := habove.not_leaf hwf
      exact ⟨m, hm⟩

/-- The trace to a node without a parent is the node itself. -/
theorem traceTo_of_parentless (hn : g.get? id = some n) (hroot : n.parent = none) :
    g.traceTo id = [id] := by
  unfold traceTo ancestors
  cases id <;> simp [ancestorsWithin, hn, hroot]

end Graph

/-! ## Refining -/

namespace TransitionSystem

variable {system : TransitionSystem} {partition : Partition} {allowed : Partition → Prop}
variable {g : Graph StateSet}

/-- What refining along the trace to a node comes to. -/
inductive RefinesAlong (system : TransitionSystem) (partition : Partition) (g : Graph StateSet)
    (target : NodeId) : Refinement → Graph StateSet → Prop where
  /-- A path through the blocks of the trace to a target; the graph stays as it is. -/
  | feasible {path : List Nat} :
    system.FeasibleAlong (g.statesOf (g.traceTo target)) path →
      RefinesAlong system partition g target (.feasible path) g
  /-- There is none. The longest paths through blocks of the trace get to a pivot; the partition is
  split by the states in which they end, and the graph loses the subtree of the pivot. -/
  | spurious {step : Nat} {pivot : NodeId} {states : StateSet} {g' : Graph StateSet} :
    (∀ path, ¬ system.FeasibleAlong (g.statesOf (g.traceTo target)) path) →
      system.LongestRealized (g.statesOf (g.traceTo target)) (step + 1) →
      (g.traceTo target)[step]? = some pivot → (∃ s, s ∈ states) →
      (∀ s, s ∈ states ↔ system.CanEnd ((g.statesOf (g.traceTo target)).take (step + 1)) s) →
      (Graph.prune pivot).run g = .ok () g' → Graph.Pruned pivot (g.descendants pivot) g g' →
      RefinesAlong system partition g target (.spurious (partition.split states)) g'

/-- A path through the blocks of the trace to a target is found just in case there is one. -/
theorem RefinesAlong.feasible_iff {target : NodeId} {refinement : Refinement} {g' : Graph StateSet}
    (h : system.RefinesAlong partition g target refinement g') :
    (∃ path, refinement = .feasible path) ↔
      ∃ path, system.FeasibleAlong (g.statesOf (g.traceTo target)) path := by
  cases h with
  | @feasible path hpath => exact ⟨fun _ => ⟨path, hpath⟩, fun _ => ⟨path, rfl⟩⟩
  | spurious hnone =>
    refine ⟨?_, fun ⟨path, hpath⟩ => absurd hpath (hnone path)⟩
    rintro ⟨_, ⟨⟩⟩

/-- A counterexample that a path matches is reported, and the graph stays as it is. -/
theorem run_refine_of_concreteTrace (partition : Partition) {target : NodeId} {trace : List Nat}
    (hshallowest : g.shallowest? g.unsafeNodes = some target)
    (htrace : system.concreteTrace (g.statesOf (g.traceTo target)) = some trace) :
    (system.refine partition).run g = .ok (.feasible trace) g := by
  simp only [refine, Edit.run_bind_ok, Edit.run_get_ok]
  refine ⟨g, g, ⟨rfl, rfl⟩, ?_⟩
  rw [hshallowest]
  dsimp only
  rw [htrace]
  rfl

/-- Without such a path, the partition is split where the replay ends. -/
theorem run_refine_of_stuck (partition : Partition) {target pivot : NodeId} {reach : List StateSet}
    {states : StateSet} {g' : Graph StateSet}
    (hshallowest : g.shallowest? g.unsafeNodes = some target)
    (hnone : system.concreteTrace (g.statesOf (g.traceTo target)) = none)
    (hreach : reach =
      (system.replay (g.statesOf (g.traceTo target))).takeWhile fun set => !set.isEmpty)
    (hlast : reach.getLast? = some states) (hpivot : (g.traceTo target)[reach.length - 1]? = some pivot)
    (hprune : (Graph.prune pivot).run g = .ok () g') :
    (system.refine partition).run g = .ok (.spurious (partition.split states)) g' := by
  simp only [refine, Edit.run_bind_ok, Edit.run_get_ok]
  refine ⟨g, g, ⟨rfl, rfl⟩, ?_⟩
  rw [hshallowest]
  dsimp only
  rw [hnone]
  dsimp only
  rw [← hreach, hlast, hpivot]
  exact Edit.run_bind_ok.2 ⟨(), g', hprune, rfl⟩

/-- There is nothing to refine in a safe graph. -/
theorem isSafe_of_refine {refinement : Refinement} {g' : Graph StateSet}
    (h : (system.refine partition).run g = .ok refinement g') : g.isSafe = false := by
  refine Bool.eq_false_iff.2 fun hsafe => ?_
  have hnone : g.shallowest? g.unsafeNodes = none := by
    rw [List.isEmpty_iff.1 hsafe]
    rfl
  simp only [refine, Edit.run_bind_ok, Edit.run_get_ok] at h
  obtain ⟨_, _, ⟨rfl, rfl⟩, h⟩ := h
  simp [hnone] at h

/-- **Refining decides the shallowest counterexample.** It meets no fault if every init block has an
init state. -/
theorem exists_refinesAlong (partition : Partition) (hwf : g.WellFormed)
    (hrooted : ∀ {i n}, g.get? i = some n → n.parent = none → ∃ s, s ∈ system.init ∧ s ∈ n.state)
    (hopen : g.isSafe = false) :
    ∃ target refinement g', g.Shallowest target ∧
      (system.refine partition).run g = .ok refinement g' ∧
      system.RefinesAlong partition g target refinement g' := by
  obtain ⟨target, hshallowest, htarget⟩ := Graph.exists_shallowest hopen
  obtain ⟨n, hn, -⟩ := Graph.mem_unsafeNodes.1 htarget.mem
  obtain ⟨⟨root, m, rest, htrace, hm, hroot⟩, hnodes⟩ := hwf.exists_traceTo hn
  have hblocks : g.statesOf (g.traceTo target) = m.state :: g.statesOf rest := by
    rw [htrace, Graph.statesOf_cons hm]
  cases hconcrete : system.concreteTrace (g.statesOf (g.traceTo target)) with
  | some path =>
    exact ⟨target, .feasible path, g, htarget,
      run_refine_of_concreteTrace partition hshallowest hconcrete,
      .feasible (feasibleAlong_of_concreteTrace hconcrete)⟩
  | none =>
    obtain ⟨step, states, hstep, hlast, hsome, hstates, hlongest⟩ :=
      exists_longestRealized (hrooted hm hroot) rfl
    rw [← hblocks] at hstep hlast hstates hlongest
    obtain ⟨pivot, hpivot⟩ : ∃ pivot, (g.traceTo target)[step]? = some pivot := by
      refine ⟨_, List.getElem?_eq_getElem ?_⟩
      rw [← Graph.length_statesOf hnodes]
      exact hlongest.1.1
    obtain ⟨a, ha⟩ := hnodes pivot (List.mem_of_getElem? hpivot)
    obtain ⟨g', hprune⟩ := Graph.exists_prune hwf ha
    have hnone : ∀ path, ¬ system.FeasibleAlong (g.statesOf (g.traceTo target)) path := by
      intro path hpath
      obtain ⟨trace, htrace⟩ := hpath.exists_concreteTrace
      rw [hconcrete] at htrace
      cases htrace
    refine ⟨target, .spurious (partition.split states), g', htarget, ?_,
      .spurious hnone hlongest hpivot hsome hstates hprune (Graph.prune_ok hwf hprune)⟩
    refine run_refine_of_stuck partition hshallowest hconcrete rfl hlast ?_ hprune
    rw [hstep, Nat.add_sub_cancel]
    exact hpivot

/-! ## Refining after exhaustive searches -/

section

variable (partition : Partition) (hg : g.Grounded system.blockAnalysis allowed)

include hg

/-- The block of a root shares a state with the init states. -/
theorem exists_init_of_grounded {i : NodeId} {n : Node StateSet} (hn : g.get? i = some n)
    (hroot : n.parent = none) : ∃ s, s ∈ system.init ∧ s ∈ n.state := by
  obtain ⟨_, -, hinit⟩ := hg.rooted hn hroot
  obtain ⟨-, s, hs, hsinit⟩ := Partition.mem_meeting.1 hinit
  exact ⟨s, hsinit, hs⟩

/-- **Refining a graph that is not safe meets no fault.** A spurious counterexample is pruned. -/
theorem exists_refine (hopen : g.isSafe = false) :
    ∃ refinement g', (system.refine partition).run g = .ok refinement g' ∧
      ∀ finer, refinement = .spurious finer →
        (∃ states, finer = partition.split states) ∧ ∃ id, (Graph.prune id).run g = .ok () g' := by
  obtain ⟨target, refinement, g', -, hrun, hrefines⟩ :=
    exists_refinesAlong partition hg.faithful.wellFormed (exists_init_of_grounded hg) hopen
  refine ⟨refinement, g', hrun, ?_⟩
  rintro finer rfl
  cases hrefines with
  | spurious _ _ _ _ _ hprune => exact ⟨⟨_, rfl⟩, _, hprune⟩

/-- **If an init node is a target, refining finds a counterexample**: the trace to the shallowest
target is a single node then. -/
theorem exists_refine_feasible (hvalid : ∀ q, allowed q → q.Valid system)
    (htarget : g.HasInitTarget) :
    ∃ trace, (system.refine partition).run g = .ok (.feasible trace) g := by
  have hwf := hg.faithful.wellFormed
  obtain ⟨i, n, hn, hparent, hfree, hisTarget⟩ := htarget
  have hopen : i ∈ g.unsafeNodes :=
    hg.faithful.mem_unsafeNodes system.blockAnalysis_lawful hn hisTarget hfree
  have hunsafe : g.isSafe = false := Graph.isSafe_eq_false_iff.2 ⟨i, hopen⟩
  obtain ⟨target, refinement, g', hshallowest, hrun, hrefines⟩ :=
    exists_refinesAlong partition hwf (exists_init_of_grounded hg) hunsafe
  obtain ⟨m, hm, hisTarget', -⟩ := Graph.mem_unsafeNodes.1 hshallowest.mem
  have hroot : m.parent = none := by
    cases hparent' : m.parent with
    | none => rfl
    | some p =>
      obtain ⟨-, a, -, hdepth, -⟩ := hwf.parent_link hm hparent'
      have hdepth' := (hwf.init_link hn hparent).2
      have := hshallowest.least hopen hm hn
      omega
  -- the block of the target is one of a partition, which does not mix targets with other states
  obtain ⟨q, hq, hinit⟩ := hg.rooted hm hroot
  obtain ⟨s, hsinit, hs⟩ := exists_init_of_grounded hg hm hroot
  have hmember : s ∈ system.targets := targets_of_isTarget (hvalid q hq)
    (Partition.mem_meeting.1 hinit).1 ((hg.faithful.isTarget hm).symm.trans hisTarget') hs
  have hpath : system.FeasibleAlong (g.statesOf (g.traceTo target)) [s] := by
    rw [Graph.traceTo_of_parentless hm hroot, Graph.statesOf_cons hm]
    exact ⟨realizes_singleton.2 ⟨s, rfl, hsinit, hs⟩, s, rfl, hmember⟩
  cases hrefines with
  | feasible => exact ⟨_, hrun⟩
  | spurious hnone => exact absurd hpath (hnone [s])

end

end TransitionSystem

end GuidedReach
