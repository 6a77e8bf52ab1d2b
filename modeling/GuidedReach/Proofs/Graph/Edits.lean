import GuidedReach.Proofs.Ensures
import GuidedReach.Proofs.Graph.Growth

/-!
# Changes of a graph that succeed

In a graph whose links agree, a change only fails when a node is missing or when a covering edge may
not be drawn.

* `Graph.exists_cover`, `Graph.exists_uncover`, `Graph.exists_prune` — changes of what is there.
* `Graph.exists_seed`, `Graph.exists_expand` — growing by an analysis.
* `Graph.seed_new`, `Graph.expand_new` — the new nodes are distinct and have the states asked for.
* `Graph.seed_initNodes`, `Graph.expand_succs` — where they are listed, and how many there can be.
-/

namespace GuidedReach.Graph

variable {S P K : Type} {g g' g'' : Graph S} {id coverer : NodeId} {a b n : Node S}

/-! ## Rewriting nodes -/

/-- Both graphs have nodes under the same numbers. -/
def SameIds (g g' : Graph S) : Prop := ∀ i, (∃ n, g'.get? i = some n) ↔ ∃ n, g.get? i = some n

theorem SameIds.refl (g : Graph S) : g.SameIds g := fun _ => Iff.rfl

theorem SameIds.trans (h : g.SameIds g') (h' : g'.SameIds g'') : g.SameIds g'' :=
  fun i => (h' i).trans (h i)

theorem Rewritten.sameIds {f : NodeId → Node S → Node S} (h : Rewritten f g g') : g.SameIds g' := by
  intro i
  rw [h.get?]
  cases g.get? i <;> simp

theorem exists_updateNode (hn : ∃ n, g.get? id = some n) (f : Node S → Node S) :
    ∃ g', (updateNode id f).run g = .ok () g' ∧ g.SameIds g' := by
  obtain ⟨n, hn⟩ := hn
  have hrun : (updateNode id f).run g = .ok () _ := run_updateNode_ok.2 ⟨n, hn, rfl⟩
  exact ⟨_, hrun, (rewritten_of_updateNode hrun).2.sameIds⟩

theorem exists_forM_updateNode {l : List NodeId} (hl : ∀ i ∈ l, ∃ n, g.get? i = some n)
    (f : Node S → Node S) :
    ∃ g', (l.forM fun i => updateNode i f).run g = .ok () g' ∧ g.SameIds g' := by
  refine (Edit.exists_run_forM (motive := fun rest t =>
    g.SameIds t ∧ ∀ i ∈ rest, ∃ n, g.get? i = some n) ?_ ⟨.refl g, hl⟩).imp fun _ h => ⟨h.1, h.2.1⟩
  rintro i rest t ⟨hsame, hrest⟩
  rw [List.forall_mem_cons] at hrest
  obtain ⟨t', ht', hsame'⟩ := exists_updateNode ((hsame i).2 hrest.1) f
  exact ⟨t', ht', hsame.trans hsame', hrest.2⟩

/-! ## Covering edges -/

theorem exists_cover (hwf : g.WellFormed) (ha : g.get? id = some a) (hb : g.get? coverer = some b)
    (hne : id ≠ coverer) (hua : a.covering = none) (hub : b.covering = none) :
    ∃ g', (cover id coverer).run g = .ok () g' := by
  have hmoved : ∀ i ∈ a.covered, ∃ n, g.get? i = some n := fun i hi => by
    obtain ⟨n, hn, -⟩ := hwf.covered_link ha hi
    exact ⟨n, hn⟩
  obtain ⟨g₁, h₁, hs₁⟩ := exists_updateNode ⟨a, ha⟩ fun node => { node with covered := [] }
  obtain ⟨g₂, h₂, hs₂⟩ := exists_forM_updateNode (fun i hi => (hs₁ i).2 (hmoved i hi))
    fun node => { node with covering := some coverer }
  obtain ⟨g₃, h₃, hs₃⟩ := exists_updateNode ((hs₁.trans hs₂ coverer).2 ⟨b, hb⟩)
    fun node => { node with covered := node.covered ++ a.covered ++ [id] }
  obtain ⟨g₄, h₄, -⟩ := exists_updateNode (((hs₁.trans hs₂).trans hs₃ id).2 ⟨a, ha⟩)
    fun node => { node with covering := some coverer }
  refine ⟨g₄, ?_⟩
  simp only [cover, Edit.run_bind_ok, Edit.run_lift_ok, demand_eq_ok, run_readNode_ok]
  exact ⟨(), g, ⟨by simpa using hne, rfl⟩, a, g, ⟨ha, rfl⟩, (), g, ⟨by simp [Node.isCovered, hua],
    rfl⟩, b, g, ⟨hb, rfl⟩, (), g, ⟨by simp [Node.isCovered, hub], rfl⟩, a, g, ⟨ha, rfl⟩, (), g₁, h₁,
    (), g₂, h₂, (), g₃, h₃, h₄⟩

theorem exists_uncover (hwf : g.WellFormed) (ha : g.get? id = some a) :
    ∃ g', (uncover id).run g = .ok () g' := by
  simp only [uncover, Edit.run_bind_ok, run_readNode_ok]
  cases hcov : a.covering with
  | none => exact ⟨g, a, g, ⟨ha, rfl⟩, by rw [hcov]; exact Edit.run_pure_ok.2 ⟨rfl, rfl⟩⟩
  | some coverer =>
    obtain ⟨-, b, hb, -⟩ := hwf.covering_link ha hcov
    obtain ⟨g₁, h₁, hs₁⟩ := exists_updateNode ⟨a, ha⟩ fun node => { node with covering := none }
    obtain ⟨g₂, h₂, -⟩ := exists_updateNode ((hs₁ coverer).2 ⟨b, hb⟩)
      fun node => { node with covered := node.covered.filter (· != id) }
    exact ⟨g₂, a, g, ⟨ha, rfl⟩, by rw [hcov]; exact Edit.run_bind_ok.2 ⟨(), g₁, h₁, h₂⟩⟩

theorem exists_clearCovered (hwf : g.WellFormed) (ha : g.get? id = some a) :
    ∃ g', (clearCovered id).run g = .ok () g' := by
  have hcovered : ∀ i ∈ a.covered, ∃ n, g.get? i = some n := fun i hi => by
    obtain ⟨n, hn, -⟩ := hwf.covered_link ha hi
    exact ⟨n, hn⟩
  obtain ⟨g₁, h₁, hs₁⟩ := exists_updateNode ⟨a, ha⟩ fun node => { node with covered := [] }
  obtain ⟨g₂, h₂, -⟩ := exists_forM_updateNode (fun i hi => (hs₁ i).2 (hcovered i hi))
    fun node => { node with covering := none }
  refine ⟨g₂, ?_⟩
  simp only [clearCovered, Edit.run_bind_ok, run_readNode_ok]
  exact ⟨a, g, ⟨ha, rfl⟩, (), g₁, h₁, h₂⟩

/-! ## Pruning -/

theorem exists_prune (hwf : g.WellFormed) (hn : g.get? id = some n) :
    ∃ g', (prune id).run g = .ok () g' := by
  have hsubtree : ∀ i ∈ g.descendants id, ∃ m, g.get? i = some m := by
    intro i hi
    rcases eq_or_ne i id with rfl | hne
    · exact ⟨n, hn⟩
    · obtain ⟨p, k, -, hk, hc⟩ := (subtree_descendants hwf hn).parent_mem hi hne
      obtain ⟨m, hm, -⟩ := hwf.succ_link hk hc
      exact ⟨m, hm⟩
  obtain ⟨t, hcut, hwft, hsame, -⟩ := Edit.exists_run_forM
    (f := fun n : NodeId => do uncover n; clearCovered n)
    (motive := fun rest (t : Graph S) =>
      t.WellFormed ∧ g.SameIds t ∧ ∀ i ∈ rest, ∃ m, g.get? i = some m)
    (fun i rest t ⟨hwf, hsame, hrest⟩ => by
      rw [List.forall_mem_cons] at hrest
      obtain ⟨m, hm⟩ := (hsame i).2 hrest.1
      obtain ⟨t₁, h₁⟩ := exists_uncover hwf hm
      obtain ⟨-, -, hrewritten⟩ := uncover_ok hwf h₁
      have hwf₁ := hwf.uncover h₁
      obtain ⟨t₂, h₂⟩ := exists_clearCovered hwf₁ (hrewritten.get?_of_get? hm)
      obtain ⟨-, -, hrewritten'⟩ := clearCovered_ok hwf₁ h₂
      exact ⟨t₂, Edit.run_bind_ok.2 ⟨(), t₁, h₁, h₂⟩, hwf₁.clearCovered h₂,
        (hsame.trans hrewritten.sameIds).trans hrewritten'.sameIds, hrest.2⟩)
    ⟨hwf, .refl g, hsubtree⟩
  obtain ⟨m, hm⟩ := (hsame id).2 ⟨n, hn⟩
  have hdetach : ∃ s, (detach id).run t = .ok () s := by
    simp only [detach, Edit.run_bind_ok, run_readNode_ok]
    cases hparent : m.parent with
    | none => exact ⟨_, m, t, ⟨hm, rfl⟩, by rw [hparent]; exact Edit.run_modify_ok.2 rfl⟩
    | some parent =>
      obtain ⟨-, above, habove, -⟩ := hwft.parent_link hm hparent
      obtain ⟨s, hs, -⟩ := exists_updateNode ⟨above, habove⟩ fun node : Node S =>
        { node with succs := node.succs.filter (· != id), isExpanded := false }
      exact ⟨s, m, t, ⟨hm, rfl⟩, by rw [hparent]; exact hs⟩
  obtain ⟨s, hs⟩ := hdetach
  refine ⟨{ s with nodes := (g.descendants id).foldl NodeMap.erase s.nodes }, ?_⟩
  simp only [prune, Edit.run_bind_ok, run_readNode_ok, Edit.run_get_ok]
  exact ⟨n, g, ⟨hn, rfl⟩, g, g, ⟨rfl, rfl⟩, (), t, hcut, (), s, hs, Edit.run_modify_ok.2 rfl⟩

/-! ## Growing -/

theorem exists_createSucc (ha : g.get? id = some a) (hfree : a.covering = none) (state : S)
    (isTarget isFeasible : Bool) :
    ∃ new g', (createSucc id state isTarget isFeasible).run g = .ok new g' := by
  have hpush : ∃ n, Graph.get? ⟨g.nodes.push ⟨state, a.depth + 1, isTarget, isFeasible, some id, [],
      none, [], false⟩, g.initNodes, g.isInitialized⟩ id = some n :=
    ⟨a, by rw [get?_push, if_neg (Nat.ne_of_lt (lt_slotCount ha)), ha]⟩
  obtain ⟨g', hg', -⟩ := exists_updateNode hpush
    fun node => { node with succs := node.succs ++ [g.nodes.slotCount] }
  refine ⟨g.nodes.slotCount, g', ?_⟩
  simp only [createSucc, Edit.run_bind_ok, run_readNode_ok, Edit.run_lift_ok, demand_eq_ok,
    run_allocate_ok, Edit.run_pure_ok]
  exact ⟨a, g, ⟨ha, rfl⟩, (), g, ⟨by simp [Node.isCovered, hfree], rfl⟩, _, _, ⟨rfl, rfl⟩, (), g',
    hg', rfl, rfl⟩

variable [DecidableEq S] {analysis : Analysis S P K} {allowed : P → Prop} {prec : P}

theorem exists_addSuccStates (states : List S) (ha : g.get? id = some a) (hfree : a.covering = none) :
    ∃ new g', (addSuccStates analysis id states).run g = .ok new g' ∧ ∃ n, g'.get? id = some n := by
  induction states generalizing g a with
  | nil => exact ⟨[], g, Edit.run_pure_ok.2 ⟨rfl, rfl⟩, a, ha⟩
  | cons s states ih =>
    simp only [addSuccStates, Edit.run_bind_ok, Edit.run_get_ok, run_readNode_ok]
    by_cases hs : s ∈ g.statesOf a.succs
    · obtain ⟨new, g', hrun, hid⟩ := ih ha hfree
      exact ⟨new, g', ⟨a, g, ⟨ha, rfl⟩, g, g, ⟨rfl, rfl⟩, by rw [if_pos hs]; exact hrun⟩, hid⟩
    · obtain ⟨child, t, ht⟩ := exists_createSucc ha hfree s (analysis.isTarget s)
        (!analysis.isBottom s)
      obtain ⟨_, ha', -, hnew, -⟩ := createSucc_ok ht
      have hfree' : (addChild id child id a).covering = none := by simp [addChild, hfree]
      obtain ⟨new, g', hrun, hid⟩ := ih (hnew.get?_of_get? ha) hfree'
      exact ⟨child :: new, g', ⟨a, g, ⟨ha, rfl⟩, g, g, ⟨rfl, rfl⟩, by
        rw [if_neg hs]
        exact Edit.run_bind_ok.2 ⟨child, t, ht, Edit.run_bind_ok.2
          ⟨new, g', hrun, Edit.run_pure_ok.2 ⟨rfl, rfl⟩⟩⟩⟩, hid⟩

theorem exists_expand (prec : P) (ha : g.get? id = some a) (hfree : a.covering = none)
    (hdomain : analysis.inDomain a.state = true) :
    ∃ new g', (expand analysis id prec).run g = .ok new g' := by
  obtain ⟨new, t, ht, hid⟩ := exists_addSuccStates (analysis.succStates a.state prec) ha hfree
  obtain ⟨g', hg', -⟩ := exists_updateNode hid fun node => { node with isExpanded := true }
  refine ⟨new, g', ?_⟩
  simp only [expand, Edit.run_bind_ok, run_readNode_ok, Edit.run_lift_ok, Edit.run_pure_ok,
    Analysis.successors?, bind_eq_ok, demand_eq_ok, pure_eq_ok]
  exact ⟨a, g, ⟨ha, rfl⟩, _, g, ⟨⟨(), hdomain, rfl⟩, rfl⟩, new, t, ht, (), g', hg', rfl, rfl⟩

theorem exists_addInitStates (analysis : Analysis S P K) (states : List S) (g : Graph S) :
    ∃ new g', (addInitStates analysis states).run g = .ok new g' := by
  induction states generalizing g with
  | nil => exact ⟨[], g, Edit.run_pure_ok.2 ⟨rfl, rfl⟩⟩
  | cons s states ih =>
    simp only [addInitStates, Edit.run_bind_ok, Edit.run_get_ok]
    by_cases hs : s ∈ g.statesOf g.initNodes
    · obtain ⟨new, g', hrun⟩ := ih g
      exact ⟨new, g', g, g, ⟨rfl, rfl⟩, by rw [if_pos hs]; exact hrun⟩
    · have hcreate : ∃ child t, (createInit s (analysis.isTarget s)
          (!analysis.isBottom s)).run g = .ok child t := by
        simp only [createInit, Edit.run_bind_ok, run_allocate_ok, Edit.run_modify_ok,
          Edit.run_pure_ok]
        exact ⟨_, _, _, _, ⟨rfl, rfl⟩, ⟨⟩, _, rfl, rfl, rfl⟩
      obtain ⟨child, t, ht⟩ := hcreate
      obtain ⟨new, g', hrun⟩ := ih t
      exact ⟨child :: new, g', g, g, ⟨rfl, rfl⟩, by
        rw [if_neg hs]
        exact Edit.run_bind_ok.2 ⟨child, t, ht, Edit.run_bind_ok.2
          ⟨new, g', hrun, Edit.run_pure_ok.2 ⟨rfl, rfl⟩⟩⟩⟩

theorem exists_seed (analysis : Analysis S P K) (prec : P) (g : Graph S) :
    ∃ new g', (seed analysis prec).run g = .ok new g' := by
  obtain ⟨new, t, ht⟩ := exists_addInitStates analysis (analysis.initStates prec) g
  refine ⟨new, { t with isInitialized := true }, ?_⟩
  simp only [seed, Edit.run_bind_ok, Edit.run_pure_ok]
  exact ⟨new, t, ht, (), _, Edit.run_modify_ok.2 rfl, rfl, rfl⟩

/-! ## The states of new nodes -/

/-- The nodes are distinct, and their states are in a list. -/
def HaveStates (g : Graph S) (ids : List NodeId) (states : List S) : Prop :=
  ids.Nodup ∧ ∀ i ∈ ids, ∃ n, g.get? i = some n ∧ n.state ∈ states

theorem addSuccStates_new (hg : g.Faithful analysis allowed) (ha : g.get? id = some a)
    (hfeasible : a.isFeasible = true) (hopen : a.isExpanded = false) {states : List S}
    {new : List NodeId} (h : (addSuccStates analysis id states).run g = .ok new g') :
    g'.HaveStates new states := by
  induction states generalizing g a new with
  | nil =>
    obtain ⟨rfl, rfl⟩ := Edit.run_pure_ok.1 h
    exact ⟨.nil, by simp⟩
  | cons s states ih =>
    simp only [addSuccStates, Edit.run_bind_ok, Edit.run_get_ok, run_readNode_ok] at h
    obtain ⟨a', _, ⟨ha', rfl⟩, _, _, ⟨rfl, rfl⟩, h⟩ := h
    obtain rfl := Option.some.inj (ha.symm.trans ha')
    split at h
    · obtain ⟨hnodup, hstates⟩ := ih hg ha hfeasible hopen h
      refine ⟨hnodup, fun i hi => ?_⟩
      obtain ⟨n, hn, hs⟩ := hstates i hi
      exact ⟨n, hn, List.mem_cons_of_mem _ hs⟩
    · simp only [Edit.run_bind_ok, Edit.run_pure_ok] at h
      obtain ⟨child, t, hchild, rest, _, hrest, rfl, rfl⟩ := h
      obtain ⟨_, -, -, hnew, -⟩ := createSucc_ok hchild
      have ht := hg.createSucc ha hfeasible hchild
      have ha' := hnew.get?_of_get? ha
      have hopen' : (addChild id child id a).isExpanded = false := by simp [addChild, hopen]
      have hfeasible' : (addChild id child id a).isFeasible = true := by simp [addChild, hfeasible]
      obtain ⟨hnodup, hstates⟩ := ih ht ha' hfeasible' hopen' hrest
      obtain ⟨-, hadded, -⟩ := addSuccStates_ok ht ha' hfeasible' hopen' hrest
      obtain ⟨n, hn, hgrows⟩ := hadded.grows.node hnew.get?_id
      refine ⟨List.nodup_cons.2 ⟨fun hmem => ?_, hnodup⟩, List.forall_mem_cons.2
        ⟨⟨n, hn, by simp [hgrows.state]⟩, fun i hi => ?_⟩⟩
      · simpa [hnew.get?_id] using (hadded.new hmem).1
      · obtain ⟨n, hn, hs⟩ := hstates i hi
        exact ⟨n, hn, List.mem_cons_of_mem _ hs⟩

/-- New children are listed after the old ones, and there are at most as many as states. -/
theorem addSuccStates_succs (ha : g.get? id = some a) {states : List S} {new : List NodeId}
    (h : (addSuccStates analysis id states).run g = .ok new g') :
    new.length ≤ states.length ∧ (∃ a', g'.get? id = some a' ∧ a'.succs = a.succs ++ new) ∧
      g'.initNodes = g.initNodes ∧ g'.isInitialized = g.isInitialized := by
  induction states generalizing g a new with
  | nil =>
    obtain ⟨rfl, rfl⟩ := Edit.run_pure_ok.1 h
    exact ⟨Nat.le_refl 0, ⟨a, ha, (List.append_nil _).symm⟩, rfl, rfl⟩
  | cons s states ih =>
    simp only [addSuccStates, Edit.run_bind_ok, Edit.run_get_ok, run_readNode_ok] at h
    obtain ⟨a', _, ⟨ha', rfl⟩, _, _, ⟨rfl, rfl⟩, h⟩ := h
    obtain rfl := Option.some.inj (ha.symm.trans ha')
    split at h
    · obtain ⟨hlength, hrest⟩ := ih ha h
      exact ⟨Nat.le_succ_of_le hlength, hrest⟩
    · simp only [Edit.run_bind_ok, Edit.run_pure_ok] at h
      obtain ⟨child, t, hchild, rest, _, hrest, rfl, rfl⟩ := h
      obtain ⟨_, -, -, hnew, hinit, hinitialized⟩ := createSucc_ok hchild
      obtain ⟨hlength, ⟨a'', ha'', hsuccs⟩, hinit', hinitialized'⟩ :=
        ih (hnew.get?_of_get? ha) hrest
      refine ⟨Nat.succ_le_succ hlength, ⟨a'', ha'', ?_⟩, hinit'.trans hinit,
        hinitialized'.trans hinitialized⟩
      rw [hsuccs, addChild, if_pos rfl, List.append_assoc, List.singleton_append]

theorem expand_succs (ha : g.get? id = some a) {new : List NodeId}
    (h : (expand analysis id prec).run g = .ok new g') :
    new.length ≤ (analysis.succStates a.state prec).length ∧
      (∃ a', g'.get? id = some a' ∧ a'.succs = a.succs ++ new) ∧
      g'.initNodes = g.initNodes ∧ g'.isInitialized = g.isInitialized := by
  simp only [expand, Edit.run_bind_ok, run_readNode_ok, Edit.run_lift_ok, Edit.run_pure_ok,
    Analysis.successors?, bind_eq_ok, pure_eq_ok] at h
  obtain ⟨a', _, ⟨ha', rfl⟩, _, _, ⟨⟨_, -, rfl⟩, rfl⟩, _, t, hadd, _, _, hset, rfl, rfl⟩ := h
  obtain rfl := Option.some.inj (ha.symm.trans ha')
  obtain ⟨hlength, ⟨b, hb, hsuccs⟩, hinit, hinitialized⟩ := addSuccStates_succs ha hadd
  obtain ⟨-, hrewritten⟩ := rewritten_of_setExpanded hset
  refine ⟨hlength, ⟨_, hrewritten.get?_of_get? hb, ?_⟩, hrewritten.initNodes.trans hinit,
    hrewritten.isInitialized.trans hinitialized⟩
  rw [if_pos rfl]
  exact hsuccs

/-- The new children of a node are distinct, and each has a successor of its state. -/
theorem expand_new (hg : g.Faithful analysis allowed) (ha : g.get? id = some a)
    (hfeasible : a.isFeasible = true) (hopen : a.isExpanded = false) {new : List NodeId}
    (h : (expand analysis id prec).run g = .ok new g') :
    g'.HaveStates new (analysis.succStates a.state prec) := by
  simp only [expand, Edit.run_bind_ok, run_readNode_ok, Edit.run_lift_ok, Edit.run_pure_ok,
    Analysis.successors?, bind_eq_ok, pure_eq_ok] at h
  obtain ⟨a', _, ⟨ha', rfl⟩, _, _, ⟨⟨_, -, rfl⟩, rfl⟩, _, t, hadd, _, _, hset, rfl, rfl⟩ := h
  obtain rfl := Option.some.inj (ha.symm.trans ha')
  obtain ⟨hnodup, hstates⟩ := addSuccStates_new hg ha hfeasible hopen hadd
  obtain ⟨-, hrewritten⟩ := rewritten_of_setExpanded hset
  refine ⟨hnodup, fun i hi => ?_⟩
  obtain ⟨n, hn, hs⟩ := hstates i hi
  exact ⟨_, hrewritten.get?_of_get? hn, by split <;> exact hs⟩

theorem addInitStates_new (hg : g.Faithful analysis allowed) (hopen : g.isInitialized = false)
    {states : List S} {new : List NodeId}
    (h : (addInitStates analysis states).run g = .ok new g') : g'.HaveStates new states := by
  induction states generalizing g new with
  | nil =>
    obtain ⟨rfl, rfl⟩ := Edit.run_pure_ok.1 h
    exact ⟨.nil, by simp⟩
  | cons s states ih =>
    simp only [addInitStates, Edit.run_bind_ok, Edit.run_get_ok] at h
    obtain ⟨_, _, ⟨rfl, rfl⟩, h⟩ := h
    split at h
    · obtain ⟨hnodup, hstates⟩ := ih hg hopen h
      refine ⟨hnodup, fun i hi => ?_⟩
      obtain ⟨n, hn, hs⟩ := hstates i hi
      exact ⟨n, hn, List.mem_cons_of_mem _ hs⟩
    · simp only [Edit.run_bind_ok, Edit.run_pure_ok] at h
      obtain ⟨child, t, hchild, rest, _, hrest, rfl, rfl⟩ := h
      obtain ⟨hnew, -, hsame⟩ := createInit_ok hchild
      have ht := hg.createInit hchild
      obtain ⟨hnodup, hstates⟩ := ih ht (hsame.trans hopen) hrest
      obtain ⟨-, hadded, -⟩ := addInitStates_ok ht (hsame.trans hopen) hrest
      obtain ⟨n, hn, hgrows⟩ := hadded.grows.node hnew.get?_id
      refine ⟨List.nodup_cons.2 ⟨fun hmem => ?_, hnodup⟩, List.forall_mem_cons.2
        ⟨⟨n, hn, by simp [hgrows.state]⟩, fun i hi => ?_⟩⟩
      · simpa [hnew.get?_id] using (hadded.new hmem).1
      · obtain ⟨n, hn, hs⟩ := hstates i hi
        exact ⟨n, hn, List.mem_cons_of_mem _ hs⟩

/-- New init nodes are listed after the old ones, and there are at most as many as states. -/
theorem addInitStates_initNodes {states : List S} {new : List NodeId}
    (h : (addInitStates analysis states).run g = .ok new g') :
    new.length ≤ states.length ∧ g'.initNodes = g.initNodes ++ new := by
  induction states generalizing g new with
  | nil =>
    obtain ⟨rfl, rfl⟩ := Edit.run_pure_ok.1 h
    exact ⟨Nat.le_refl 0, (List.append_nil _).symm⟩
  | cons s states ih =>
    simp only [addInitStates, Edit.run_bind_ok, Edit.run_get_ok] at h
    obtain ⟨_, _, ⟨rfl, rfl⟩, h⟩ := h
    split at h
    · obtain ⟨hlength, hinit⟩ := ih h
      exact ⟨Nat.le_succ_of_le hlength, hinit⟩
    · simp only [Edit.run_bind_ok, Edit.run_pure_ok] at h
      obtain ⟨child, t, hchild, rest, _, hrest, rfl, rfl⟩ := h
      obtain ⟨-, hinit, -⟩ := createInit_ok hchild
      obtain ⟨hlength, hinit'⟩ := ih hrest
      refine ⟨Nat.succ_le_succ hlength, ?_⟩
      rw [hinit', hinit, List.append_assoc, List.singleton_append]

theorem seed_initNodes {new : List NodeId} (h : (seed analysis prec).run g = .ok new g') :
    new.length ≤ (analysis.initStates prec).length ∧ g'.initNodes = g.initNodes ++ new := by
  simp only [seed, Edit.run_bind_ok, Edit.run_pure_ok] at h
  obtain ⟨_, t, hadd, _, _, hset, rfl, rfl⟩ := h
  obtain rfl := Edit.run_modify_ok.1 hset
  have hnew : _ ∧ t.initNodes = _ := addInitStates_initNodes hadd
  exact hnew

/-- The new init nodes are distinct, and each has an init state. -/
theorem seed_new (hg : g.Faithful analysis allowed) (hopen : g.isInitialized = false)
    {new : List NodeId} (h : (seed analysis prec).run g = .ok new g') :
    g'.HaveStates new (analysis.initStates prec) := by
  simp only [seed, Edit.run_bind_ok, Edit.run_pure_ok] at h
  obtain ⟨_, t, hadd, _, _, hset, rfl, rfl⟩ := h
  obtain rfl := Edit.run_modify_ok.1 hset
  have hnew : t.HaveStates _ _ := addInitStates_new hg hopen hadd
  exact hnew

end GuidedReach.Graph
