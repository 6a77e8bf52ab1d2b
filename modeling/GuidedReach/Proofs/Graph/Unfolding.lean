import GuidedReach.Proofs.Graph.Grown
import GuidedReach.Proofs.Graph.Paths
import GuidedReach.Proofs.Graph.Refutation

/-!
# Graphs that unfold a state space

If a state is covered by none but equal ones, then a graph that grew out of nothing is an unfolding of
the states: its paths are walks along successors, and as far as it was explored every walk is a path. So
the nearest target of the graph is as far away as a breadth-first search over the states finds one.

* `Analysis.Step`, `Analysis.Walk` — steps from state to state, and sequences of them.
* `Analysis.ReachesTarget`, `Analysis.NearestTarget` — how far the init states are from a target.
* `Graph.UnfoldingOf` — what a graph and an analysis have to agree in.
* `Graph.UnfoldingOf.walk`, `Graph.UnfoldingOf.reachesTarget` — paths are walks, and walks are paths.
* `Graph.UnfoldingOf.nearestTarget` — the nearest target of the graph is that of the states.
* `Graph.UnfoldingOf.isSafe_eq_false_iff` — the graph is unsafe if a target can be reached.
-/

namespace GuidedReach

variable {S P K : Type}

/-! ## Walks from state to state -/

/-- A step to a successor. No step leaves an empty state. -/
def Analysis.Step (analysis : Analysis S P K) (prec : P) (source dest : S) : Prop :=
  analysis.isBottom source = false ∧ dest ∈ analysis.succStates source prec

instance [DecidableEq S] (analysis : Analysis S P K) (prec : P) (source dest : S) :
    Decidable (analysis.Step prec source dest) :=
  inferInstanceAs (Decidable (_ ∧ _))

/-- A sequence of steps with its length. -/
inductive Analysis.Walk (analysis : Analysis S P K) (prec : P) : S → S → Nat → Prop where
  | refl (s : S) : Walk analysis prec s s 0
  | step {s t u : S} {length : Nat} :
    analysis.Step prec s t → Walk analysis prec t u length → Walk analysis prec s u (length + 1)

/-- A walk of the given length leads from an init state to a target. -/
def Analysis.ReachesTarget (analysis : Analysis S P K) (prec : P) (length : Nat) : Prop :=
  ∃ s ∈ analysis.initStates prec, ∃ target, analysis.Walk prec s target length ∧
    analysis.isTarget target = true

/-- The least number of steps from an init state to a target, if there is a walk at all. -/
def Analysis.NearestTarget (analysis : Analysis S P K) (prec : P) : Option Nat → Prop
  | none => ∀ length, ¬ analysis.ReachesTarget prec length
  | some nearest => IsLeast {length | analysis.ReachesTarget prec length} nearest

namespace Graph

variable {g : Graph S} {analysis : Analysis S P K} {prec : P} {start : List NodeId}
variable {nearest : Option Nat} {i j root length : Nat} {n m : Node S} {t : S}

/-! ## Roots -/

/-- Every node hangs below an init node. The induction is on the number of the node. -/
theorem WellFormed.exists_root (hwf : g.WellFormed) (hn : g.get? i = some n) :
    ∃ root ∈ g.initNodes, g.Path root i n.depth := by
  induction i using Nat.strongRecOn generalizing n with
  | ind i ih =>
    cases hparent : n.parent with
    | none =>
      obtain ⟨hcount, hdepth⟩ := hwf.init_link hn hparent
      rw [hdepth]
      exact ⟨i, List.count_pos_iff.1 (by omega), .refl i⟩
    | some p =>
      obtain ⟨hlt, m, hm, hdepth, -⟩ := hwf.parent_link hn hparent
      obtain ⟨root, hroot, hpath⟩ := ih p hlt hm
      rw [hdepth]
      exact ⟨root, hroot, hpath.trans (.step (.tree hn hparent) (.refl i))⟩

/-! ## Graphs and states -/

/-- A graph that agrees with an analysis in what its nodes are, where covering nodes have equal states
and each child was added below a state that leads to it. -/
structure UnfoldingOf (analysis : Analysis S P K) (prec : P) (g : Graph S) : Prop where
  faithful : g.Faithful analysis (· = prec)
  grown : ({} : Graph S).GrownFrom analysis prec g
  equal : ∀ {a b}, analysis.isLeq a b = true → a = b

namespace UnfoldingOf

variable (h : g.UnfoldingOf analysis prec)

include h

/-- A child has a state that is a successor of its parent's. -/
theorem step (hn : g.get? i = some n) (hparent : n.parent = some j) (hm : g.get? j = some m) :
    analysis.Step prec m.state n.state :=
  ⟨h.faithful.not_isBottom_of_parent hn hparent hm,
    h.grown.child hn (NodeMap.get?_empty i) hparent hm⟩

/-- What covers a node has its state. -/
theorem coverer {c : NodeId} (hn : g.get? i = some n) (hcovering : n.covering = some c) :
    ∃ m, g.get? c = some m ∧ m.state = n.state ∧ m.covering = none := by
  obtain ⟨-, m, hm, hfree, -⟩ := h.faithful.wellFormed.covering_link hn hcovering
  obtain ⟨-, -, m', hm', hleq⟩ := h.faithful.covering hn hcovering
  obtain rfl := Option.some.inj (hm.symm.trans hm')
  exact ⟨m, hm, (h.equal hleq).symm, hfree⟩

/-- **A path of the graph is a walk** from state to state. -/
theorem walk (hpath : g.Path i j length) (hn : g.get? i = some n) (hm : g.get? j = some m) :
    analysis.Walk prec n.state m.state length := by
  induction hpath generalizing n with
  | refl =>
    obtain rfl := Option.some.inj (hn.symm.trans hm)
    exact .refl _
  | step hedge _ ih =>
    cases hedge with
    | tree hchild hparent =>
      rw [Nat.add_comm]
      exact .step (h.step hchild hparent hn) (ih hchild hm)
    | covering hcovered hcovering =>
      obtain rfl := Option.some.inj (hn.symm.trans hcovered)
      obtain ⟨c, hc, hstate, -⟩ := h.coverer hn hcovering
      rw [Nat.zero_add, ← hstate]
      exact ih hc hm

/-- A target that can be reached in the graph can be reached from an init state. -/
theorem reachesTarget_states (hroot : root ∈ g.initNodes) (hreaches : g.ReachesTarget root length) :
    analysis.ReachesTarget prec length := by
  obtain ⟨target, m, hpath, hm, htarget⟩ := hreaches
  obtain ⟨n, hn, hparent⟩ := h.faithful.wellFormed.init_parentless hroot
  exact ⟨n.state, h.grown.root hn (NodeMap.get?_empty root) hparent, m.state, h.walk hpath hn hm,
    (h.faithful.isTarget hm).symm.trans htarget⟩

/-! ## Walks in the graph -/

/-- Whatever a path leads to, one of the same length leads to a node with that state that is not
covered. -/
theorem exists_uncovered (hpath : g.Path root i length) (hn : g.get? i = some n) :
    ∃ j m, g.Path root j length ∧ g.get? j = some m ∧ m.state = n.state ∧ m.covering = none := by
  cases hcovering : n.covering with
  | none => exact ⟨i, n, hpath, hn, rfl, hcovering⟩
  | some c =>
    obtain ⟨m, hm, hstate, hfree⟩ := h.coverer hn hcovering
    exact ⟨c, m, hpath.trans (.step (.covering hn hcovering) (.refl c)), hm, hstate, hfree⟩

/-- Where a step leads to, an edge leads to, if the node was explored. -/
theorem exists_child (hexplored : n.isCovered = true ∨ n.isExpanded = true ∨ n.isFeasible = false)
    (hn : g.get? i = some n) (hfree : n.covering = none) (hstep : analysis.Step prec n.state t) :
    ∃ c m, g.Edge i c 1 ∧ g.get? c = some m ∧ m.state = t := by
  have hexpanded : n.isExpanded = true := by
    refine (hexplored.resolve_left (by simp [Node.isCovered, hfree])).resolve_right ?_
    simp [h.faithful.isFeasible hn, hstep.1]
  obtain ⟨_, rfl, hsuccs⟩ := h.faithful.expanded hn hexpanded
  obtain ⟨c, m, hc, hm, hstate⟩ := mem_statesOf.1 (hsuccs t hstep.2)
  obtain ⟨m', hm', hparent⟩ := h.faithful.wellFormed.succ_link hn hc
  exact ⟨c, m, .tree hm' hparent, hm, hstate⟩

/-- **A walk to a target is a path of the graph**, if it goes no farther than the graph was explored.
The induction is on the walk: the node that it has come to is not covered, or else its coverer has the
same state. -/
theorem reachesTarget (hexplored : g.ExploredTo start nearest) (hroot : root ∈ start) {behind : Nat}
    (hpath : g.Path root i behind) (hn : g.get? i = some n)
    (hwalk : analysis.Walk prec n.state t length) (htarget : analysis.isTarget t = true)
    (hnear : ∀ d, nearest = some d → behind + length ≤ d) :
    g.ReachesTarget root (behind + length) := by
  generalize hs : n.state = s at hwalk
  induction hwalk generalizing i n behind with
  | refl s => exact ⟨i, n, hpath, hn, by rw [h.faithful.isTarget hn, hs, htarget]⟩
  | @step s s' t length hstep _ ih =>
    obtain ⟨j, m, hpath, hm, hstate, hfree⟩ := h.exists_uncovered hpath hn
    have hhandled := hexplored root hroot hpath
      (fun d hd => by have := hnear d hd; omega) hm
    rw [← hs, ← hstate] at hstep
    obtain ⟨c, k, hedge, hk, hnext⟩ := h.exists_child hhandled hm hfree hstep
    have hfurther : behind + (length + 1) = behind + (1 + 0) + length := by omega
    rw [hfurther]
    exact ih (hpath.trans (.step hedge (.refl c))) hk htarget
      (fun d hd => by have := hnear d hd; omega) hnext

/-- Every init state is that of an init node. -/
theorem exists_initNode (hinitialized : g.isInitialized = true) {s : S}
    (hs : s ∈ analysis.initStates prec) :
    ∃ root n, root ∈ g.initNodes ∧ g.get? root = some n ∧ n.state = s := by
  obtain ⟨_, rfl, hinit⟩ := h.faithful.initialized hinitialized
  exact mem_statesOf.1 (hinit s hs)

/-- A walk from an init state to a target is a path of the graph. -/
theorem reachesTarget_of_states (hinitialized : g.isInitialized = true)
    (hexplored : g.ExploredTo g.initNodes nearest) (hreaches : analysis.ReachesTarget prec length)
    (hnear : ∀ d, nearest = some d → length ≤ d) :
    ∃ root ∈ g.initNodes, g.ReachesTarget root length := by
  obtain ⟨s, hs, t, hwalk, htarget⟩ := hreaches
  obtain ⟨root, n, hroot, hn, rfl⟩ := h.exists_initNode hinitialized hs
  have hreaches := h.reachesTarget hexplored hroot (.refl root) hn hwalk htarget
    (fun d hd => by simpa using hnear d hd)
  exact ⟨root, hroot, by simpa using hreaches⟩

/-- **The nearest target of the graph is that of the states**, if whatever is nearer was explored. -/
theorem nearestTarget (hinitialized : g.isInitialized = true)
    (hexplored : g.ExploredTo g.initNodes nearest) (hnearest : g.NearestTarget g.initNodes nearest) :
    analysis.NearestTarget prec nearest := by
  cases nearest with
  | none =>
    intro length hreaches
    obtain ⟨root, hroot, hreaches⟩ :=
      h.reachesTarget_of_states hinitialized hexplored hreaches (by simp)
    exact hnearest root hroot length hreaches
  | some nearest =>
    obtain ⟨⟨root, hroot, hreaches⟩, hleast⟩ := hnearest
    refine ⟨h.reachesTarget_states hroot hreaches, fun length hreaches => ?_⟩
    by_contra hlt
    exact hlt (hleast (h.reachesTarget_of_states hinitialized hexplored hreaches
      fun d hd => by cases hd; omega))

/-- **The graph is unsafe if and only if one of its init nodes reaches a target.** -/
theorem isSafe_eq_false_iff (hlaws : analysis.Lawful) :
    g.isSafe = false ↔ ∃ root ∈ g.initNodes, ∃ length, g.ReachesTarget root length := by
  constructor
  · intro hunsafe
    obtain ⟨i, hi⟩ := Graph.isSafe_eq_false_iff.1 hunsafe
    obtain ⟨n, hn, htarget, -⟩ := mem_unsafeNodes.1 hi
    obtain ⟨root, hroot, hpath⟩ := h.faithful.wellFormed.exists_root hn
    exact ⟨root, hroot, n.depth, i, n, hpath, hn, htarget⟩
  · rintro ⟨_, -, _, target, n, -, hn, htarget⟩
    by_contra hsafe
    simp [h.faithful.not_isTarget_of_isSafe hlaws (by simpa using hsafe) hn] at htarget

end UnfoldingOf

end Graph

end GuidedReach
