import GuidedReach.Proofs.Graph.Growth

/-!
# New leaves under any analysis

Adding init nodes and expanding nodes keeps a graph in order whatever the analysis is like: neither
laws of subsumption nor agreement of the graph with the analysis are needed.

* `Graph.seed_leaves`, `Graph.expand_leaves` — what is added are leaves.
* `Graph.WellFormed.seed`, `Graph.WellFormed.expand` — and the links still agree.
-/

namespace GuidedReach.Graph

variable {S P K : Type} [DecidableEq S] {analysis : Analysis S P K} {g g' : Graph S} {prec : P}
variable {id : NodeId} {n : Node S} {states : List S} {new : List NodeId}

/-! ## Init nodes -/

theorem addInitStates_leaves (hopen : g.isInitialized = false)
    (h : (addInitStates analysis states).run g = .ok new g') : AddedLeaves none new g g' := by
  induction states generalizing g new with
  | nil =>
    obtain ⟨rfl, rfl⟩ := Edit.run_pure_ok.1 h
    exact .refl none g
  | cons s states ih =>
    simp only [addInitStates, Edit.run_bind_ok, Edit.run_get_ok] at h
    obtain ⟨_, _, ⟨rfl, rfl⟩, h⟩ := h
    split at h
    · exact ih hopen h
    · simp only [Edit.run_bind_ok, Edit.run_pure_ok] at h
      obtain ⟨id, t, hid, rest, _, hrest, rfl, rfl⟩ := h
      obtain ⟨-, -, hsame⟩ := createInit_ok hid
      exact (AddedLeaves.of_createInit hopen hid).trans (by simp) (ih (hsame.trans hopen) hrest)

theorem seed_leaves (hopen : g.isInitialized = false)
    (h : (seed analysis prec).run g = .ok new g') : AddedLeaves none new g g' := by
  simp only [seed, Edit.run_bind_ok, Edit.run_pure_ok] at h
  obtain ⟨_, t, hadd, _, _, hset, rfl, rfl⟩ := h
  obtain rfl := Edit.run_modify_ok.1 hset
  have hadded := addInitStates_leaves hopen hadd
  exact ⟨⟨hadded.grows.node, hadded.grows.initNodes, by simp [hopen]⟩, hadded.old, hadded.new⟩

theorem WellFormed.addInitStates (hwf : g.WellFormed)
    (h : (addInitStates analysis states).run g = .ok new g') : g'.WellFormed := by
  induction states generalizing g new with
  | nil =>
    obtain ⟨rfl, rfl⟩ := Edit.run_pure_ok.1 h
    exact hwf
  | cons s states ih =>
    simp only [Graph.addInitStates, Edit.run_bind_ok, Edit.run_get_ok] at h
    obtain ⟨_, _, ⟨rfl, rfl⟩, h⟩ := h
    split at h
    · exact ih hwf h
    · simp only [Edit.run_bind_ok, Edit.run_pure_ok] at h
      obtain ⟨id, t, hid, rest, _, hrest, rfl, rfl⟩ := h
      exact ih (hwf.createInit hid) hrest

theorem WellFormed.seed (hwf : g.WellFormed) (h : (seed analysis prec).run g = .ok new g') :
    g'.WellFormed := by
  simp only [Graph.seed, Edit.run_bind_ok, Edit.run_pure_ok] at h
  obtain ⟨_, t, hadd, _, _, hset, rfl, rfl⟩ := h
  obtain rfl := Edit.run_modify_ok.1 hset
  exact { hwf.addInitStates hadd with }

/-! ## Children -/

theorem addSuccStates_leaves (hn : g.get? id = some n) (hopen : n.isExpanded = false)
    (h : (addSuccStates analysis id states).run g = .ok new g') :
    AddedLeaves (some id) new g g' := by
  induction states generalizing g n new with
  | nil =>
    obtain ⟨rfl, rfl⟩ := Edit.run_pure_ok.1 h
    exact .refl _ g
  | cons s states ih =>
    simp only [addSuccStates, Edit.run_bind_ok, Edit.run_get_ok, run_readNode_ok] at h
    obtain ⟨n', _, ⟨hn', rfl⟩, _, _, ⟨rfl, rfl⟩, h⟩ := h
    obtain rfl := Option.some.inj (hn.symm.trans hn')
    split at h
    · exact ih hn hopen h
    · simp only [Edit.run_bind_ok, Edit.run_pure_ok] at h
      obtain ⟨child, t, hchild, rest, _, hrest, rfl, rfl⟩ := h
      obtain ⟨_, -, -, hnew, -⟩ := createSucc_ok hchild
      have hopen' : (addChild id child id n).isExpanded = false := by simp [addChild, hopen]
      exact (AddedLeaves.of_createSucc hn hopen hchild).trans
        (fun p hp => ⟨n, Option.some.inj hp ▸ hn⟩) (ih (hnew.get?_of_get? hn) hopen' hrest)

theorem expand_leaves (hn : g.get? id = some n) (hopen : n.isExpanded = false)
    (h : (expand analysis id prec).run g = .ok new g') :
    AddedLeaves (some id) new g g' ∧ ∃ n', g'.get? id = some n' ∧ n'.isExpanded = true := by
  simp only [expand, Edit.run_bind_ok, run_readNode_ok, Edit.run_lift_ok, Edit.run_pure_ok] at h
  obtain ⟨_, _, ⟨-, rfl⟩, _, _, ⟨-, rfl⟩, _, t, hadd, _, _, hset, rfl, rfl⟩ := h
  exact (addSuccStates_leaves hn hopen hadd).setExpanded hn hopen hset

theorem WellFormed.addSuccStates (hwf : g.WellFormed)
    (h : (addSuccStates analysis id states).run g = .ok new g') : g'.WellFormed := by
  induction states generalizing g new with
  | nil =>
    obtain ⟨rfl, rfl⟩ := Edit.run_pure_ok.1 h
    exact hwf
  | cons s states ih =>
    simp only [Graph.addSuccStates, Edit.run_bind_ok, Edit.run_get_ok, run_readNode_ok] at h
    obtain ⟨_, _, ⟨-, rfl⟩, _, _, ⟨rfl, rfl⟩, h⟩ := h
    split at h
    · exact ih hwf h
    · simp only [Edit.run_bind_ok, Edit.run_pure_ok] at h
      obtain ⟨child, t, hchild, rest, _, hrest, rfl, rfl⟩ := h
      exact ih (hwf.createSucc hchild) hrest

theorem WellFormed.expand (hwf : g.WellFormed) (h : (expand analysis id prec).run g = .ok new g') :
    g'.WellFormed := by
  simp only [Graph.expand, Edit.run_bind_ok, run_readNode_ok, Edit.run_lift_ok,
    Edit.run_pure_ok] at h
  obtain ⟨_, _, ⟨-, rfl⟩, _, _, ⟨-, rfl⟩, _, t, hadd, _, _, hset, rfl, rfl⟩ := h
  exact (hwf.addSuccStates hadd).setExpanded hset

end GuidedReach.Graph
