import GuidedReach.Proofs.Generation.Writes
import GuidedReach.SearchRun

/-!
# The waitlist of a search

What waits may be searched from, and whatever was found is waiting or was handed out.

* `Generation.Searchable`, `Generation.Hopeless` — whether anything may be found below a node.
* `SearchRun.Orderly` — what a search keeps true of its waitlist.
* `SearchRun.enqueue_ok` — an enqueued node is waiting, unless it is finished or hopeless.
* `SearchRun.next_ok` — handing out a node loses nothing.
* `SearchRun.next_counted` — each node is handed out once.
-/

namespace GuidedReach

variable {S P K : Type}

/-! ## Nodes -/

/-- A node has a known heuristic, and nothing rules out that it reaches a target. -/
def Generation.Searchable (gen : Generation S P K) (id : NodeId) : Prop :=
  ∃ d, gen.heuristic id = .ok d ∧ d.isKnown = true ∧ d ≠ .infinite ∧
    gen.distance id ≠ .ok .infinite

/-- No target can be reached from a node, judging by its heuristic or its distance. -/
def Generation.Hopeless (gen : Generation S P K) (id : NodeId) : Prop :=
  gen.heuristic id = .ok .infinite ∨ gen.distance id = .ok .infinite

namespace SearchRun

variable {gen : Generation S P K} {run run' : SearchRun} {id : NodeId}

/-- A node is waiting or was handed out. -/
def Sees (run : SearchRun) (id : NodeId) : Prop :=
  id ∈ run.finished ∨ ∃ e ∈ run.waitlist, e.node = id

/-- What waits may be searched from, and what was found is waiting or was handed out. -/
structure Orderly (run : SearchRun) (gen : Generation S P K) : Prop where
  searchable : ∀ e ∈ run.waitlist, gen.Searchable e.node
  found : ∀ {id depth}, run.depth? id = some depth → run.Sees id

/-! ## Letting nodes wait -/

theorem mem_insert {entry e : Entry} {entries : List Entry} :
    e ∈ entry.insert entries ↔ e = entry ∨ e ∈ entries := by
  induction entries with
  | nil => simp [Entry.insert]
  | cons first rest ih =>
    unfold Entry.insert
    split
    · simp
    · simp only [List.mem_cons, ih]
      exact ⟨fun h => h.elim (fun h => .inr (.inl h)) fun h => h.imp_right .inr,
        fun h => h.elim (fun h => .inr (.inl h)) fun h => h.imp_right .inr⟩

/-- The second run has more waiting, and is the first one otherwise. -/
structure Extends (run run' : SearchRun) : Prop where
  start : run'.start = run.start
  stop : run'.stop = run.stop
  finished : run'.finished = run.finished
  waitlist : ∀ e ∈ run.waitlist, e ∈ run'.waitlist

namespace Extends

theorem refl (run : SearchRun) : Extends run run :=
  ⟨rfl, rfl, rfl, fun _ => id⟩

theorem trans {run'' : SearchRun} (h : Extends run run') (h' : Extends run' run'') :
    Extends run run'' :=
  ⟨h'.start.trans h.start, h'.stop.trans h.stop, h'.finished.trans h.finished,
    fun e he => h'.waitlist e (h.waitlist e he)⟩

theorem sees (h : Extends run run') (hid : run.Sees id) : run'.Sees id :=
  hid.imp (fun hid => h.finished ▸ hid) fun ⟨e, he, hid⟩ => ⟨e, h.waitlist e he, hid⟩

end Extends

/-- A node that was found is either news, and recorded, or was seen before. -/
theorem find_ok (hrun : run.Orderly gen) {parent : Option NodeId} {depth : Nat} {isNew : Bool}
    (h : (find id parent depth).run run = .ok isNew run') :
    isNew = false ∧ run' = run ∧ run.Sees id ∨
      isNew = true ∧ run' = { run with
        depths := run.depths.insert id depth
        parents := run.parents.insert id parent } := by
  simp only [find, Edit.run_bind_ok, Edit.run_get_ok] at h
  obtain ⟨_, _, ⟨rfl, rfl⟩, h⟩ := h
  split at h
  · rename_i hfinished
    have hpure : isNew = false ∧ run' = run := by
      split at h
      · simp only [Edit.run_bind_ok, Edit.run_lift_ok, Edit.run_pure_ok] at h
        obtain ⟨_, _, ⟨-, rfl⟩, rfl, rfl⟩ := h
        exact ⟨rfl, rfl⟩
      · simp only [Edit.run_bind_ok, Edit.run_throw_ok, false_and, exists_false] at h
    exact .inl ⟨hpure.1, hpure.2, .inl (by simpa using hfinished)⟩
  · split at h
    · rename_i hfound
      obtain ⟨rfl, rfl⟩ := Edit.run_pure_ok.1 h
      obtain ⟨old, hold, -⟩ := (Option.any_eq_true _ _).1 hfound
      exact .inl ⟨rfl, rfl, hrun.found hold⟩
    · simp only [Edit.run_bind_ok, Edit.run_set_ok, Edit.run_pure_ok] at h
      obtain ⟨_, _, rfl, rfl, rfl⟩ := h
      exact .inr ⟨rfl, rfl⟩

/-- **An enqueued node is waiting**, unless it is finished or hopeless. -/
theorem enqueue_ok (hrun : run.Orderly gen) {parent : Option NodeId} {depth : Nat} {u : Unit}
    (h : (enqueue gen id parent depth).run run = .ok u run') :
    run'.Orderly gen ∧ run.Extends run' ∧ (run'.Sees id ∨ gen.Hopeless id) := by
  simp only [enqueue, Edit.run_bind_ok, Edit.run_lift_ok, Generation.searchNode_eq_ok,
    demand_eq_ok] at h
  obtain ⟨k, _, ⟨hk, rfl⟩, _, _, ⟨hknown, rfl⟩, h⟩ := h
  split at h
  · rename_i hhopeless
    obtain ⟨-, rfl⟩ := Edit.run_pure_ok.1 h
    refine ⟨hrun, .refl run, .inr ?_⟩
    simp only [Bool.or_eq_true, Distance.isInfinite_iff] at hhopeless
    exact hhopeless.imp (fun hd => Generation.heuristic_eq_ok.2 ⟨k, hk, hd⟩)
      fun hd => Generation.distance_eq_ok.2 ⟨k, hk, hd⟩
  · rename_i hhopeful
    simp only [Bool.or_eq_true, Distance.isInfinite_iff, not_or] at hhopeful
    obtain ⟨isNew, mid, hfind, hrest⟩ := Edit.run_bind_ok.1 h
    obtain ⟨rfl, rfl, hseen⟩ | ⟨rfl, rfl⟩ := find_ok hrun hfind
    · obtain ⟨-, rfl⟩ : () = u ∧ mid = run' := Edit.run_pure_ok.1 hrest
      exact ⟨hrun, .refl mid, .inl hseen⟩
    · simp only [if_true, Edit.run_bind_ok, Edit.run_lift_ok, Edit.run_modify_ok] at hrest
      obtain ⟨_, _, ⟨-, rfl⟩, _, _, ⟨-, rfl⟩, _, _, ⟨-, rfl⟩, _, _, ⟨-, rfl⟩, hrun'⟩ := hrest
      have hextends : run.Extends run' := by
        subst hrun'
        exact ⟨rfl, rfl, rfl, fun e he => mem_insert.2 (.inr he)⟩
      have hself : run'.Sees id := by
        subst hrun'
        exact .inr ⟨_, mem_insert.2 (.inl rfl), rfl⟩
      subst hrun'
      refine ⟨⟨fun e he => ?_, fun {i depth'} hi => ?_⟩, hextends, .inl hself⟩
      · obtain rfl | he := mem_insert.1 he
        · refine ⟨_, Generation.heuristic_eq_ok.2 ⟨k, hk, rfl⟩, hknown, hhopeful.1, fun hd => ?_⟩
          obtain ⟨k', hk', hd⟩ := Generation.distance_eq_ok.1 hd
          obtain rfl := Option.some.inj (hk.symm.trans hk')
          exact hhopeful.2 hd
        · exact hrun.searchable e he
      · simp only [depth?, NodeMap.get?_insert] at hi
        split at hi
        · rename_i heq
          exact heq ▸ hself
        · exact hextends.sees (hrun.found hi)

theorem forM_enqueue_ok (hrun : run.Orderly gen) {ids : List NodeId} {u : Unit}
    (h : (ids.forM fun id => enqueue gen id none 0).run run = .ok u run') :
    run'.Orderly gen ∧ run.Extends run' ∧ ∀ id ∈ ids, run'.Sees id ∨ gen.Hopeless id := by
  induction ids generalizing run with
  | nil =>
    obtain ⟨-, rfl⟩ : () = u ∧ run = run' := Edit.run_pure_ok.1 h
    exact ⟨hrun, .refl run, by simp⟩
  | cons id ids ih =>
    obtain ⟨mid, hfirst, h⟩ := Edit.run_forM_cons_ok.1 h
    obtain ⟨hmid, hextends, hid⟩ := enqueue_ok hrun hfirst
    obtain ⟨hrun', hextends', hids⟩ := ih hmid h
    exact ⟨hrun', hextends.trans hextends', List.forall_mem_cons.2 ⟨hid.imp_left hextends'.sees, hids⟩⟩

/-! ## Handing out nodes -/

/-- What the second run has handed out since the first, up to the next node to visit. -/
structure HandsOut (visitsReached : Bool) (next : Option (NodeId × Nat)) (run run' : SearchRun) :
    Prop where
  start : run'.start = run.start
  stop : run'.stop = run.stop
  depths : run'.depths = run.depths
  waitlist : ∀ e ∈ run'.waitlist, e ∈ run.waitlist
  sees : ∀ {id}, run.Sees id → run'.Sees id
  waited : ∀ {id depth}, next = some (id, depth) → ∃ e ∈ run.waitlist, e.node = id
  /-- Only a search that never stops early has to exhaust its waitlist. -/
  exhausted : run.stop = .fullExploration → next = none → run'.waitlist = []
  /-- Unless nodes are passed over, only the next one to visit is finished now. -/
  finished : visitsReached = true → ∀ {id}, id ∈ run'.finished →
    id ∈ run.finished ∨ ∃ depth, next = some (id, depth)

/-- The first entry is gone, and its node is finished. -/
theorem HandsOut.of_first {visitsReached : Bool} {next : Option (NodeId × Nat)} {entry : Entry}
    {rest : List Entry} {mid : SearchRun} (hwaitlist : run.waitlist = entry :: rest)
    (h : HandsOut visitsReached next mid run') (hstart : mid.start = run.start)
    (hstop : mid.stop = run.stop) (hdepths : mid.depths = run.depths) (hrest : mid.waitlist = rest)
    (hfinished : ∀ id ∈ run.finished, id ∈ mid.finished) (hentry : entry.node ∈ mid.finished)
    (hnew : visitsReached = true → ∀ id ∈ mid.finished, id ∈ run.finished) :
    HandsOut visitsReached next run run' where
  start := h.start.trans hstart
  stop := h.stop.trans hstop
  depths := h.depths.trans hdepths
  waitlist e he := hwaitlist ▸ List.mem_cons_of_mem _ (hrest ▸ h.waitlist e he)
  sees := by
    rintro id (hid | ⟨e, he, rfl⟩)
    · exact h.sees (.inl (hfinished id hid))
    · obtain rfl | he := List.mem_cons.1 (hwaitlist ▸ he)
      · exact h.sees (.inl hentry)
      · exact h.sees (.inr ⟨e, hrest ▸ he, rfl⟩)
  waited hnext := by
    obtain ⟨e, he, rfl⟩ := h.waited hnext
    exact ⟨e, hwaitlist ▸ List.mem_cons_of_mem _ (hrest ▸ he), rfl⟩
  exhausted hfull := h.exhausted (hstop.trans hfull)
  finished hvisits id hid := (h.finished hvisits hid).imp_left (hnew hvisits id)

theorem nextOf_ok {visitsReached : Bool} {entries : List Entry} {next : Option (NodeId × Nat)}
    (hwaitlist : run.waitlist = entries)
    (h : (nextOf gen visitsReached entries).run run = .ok next run') :
    HandsOut visitsReached next run run' := by
  induction entries generalizing run with
  | nil =>
    obtain ⟨rfl, rfl⟩ := Edit.run_pure_ok.1 h
    exact ⟨rfl, rfl, rfl, fun _ => id, id, by simp, fun _ _ => hwaitlist, fun _ _ => .inl⟩
  | cons entry rest ih =>
    simp only [nextOf, Edit.run_bind_ok, Edit.run_get_ok, Edit.run_lift_ok] at h
    obtain ⟨_, _, ⟨rfl, rfl⟩, stops, _, ⟨hstops, rfl⟩, h⟩ := h
    split at h
    · rename_i hstops'
      obtain ⟨rfl, rfl⟩ := Edit.run_pure_ok.1 h
      refine ⟨rfl, rfl, rfl, fun _ => id, id, by simp, fun hfull => ?_, fun _ _ => .inl⟩
      simp [stopsBefore, hfull, StopCriterion.canStop, hstops'] at hstops
    · simp only [Edit.run_bind_ok, Edit.run_modify_ok, Edit.run_get_ok] at h
      obtain ⟨_, _, rfl, _, _, ⟨rfl, rfl⟩, h⟩ := h
      split at h
      · rename_i hfinished
        exact (ih rfl h).of_first hwaitlist rfl rfl rfl rfl (fun _ => id) (by simpa using hfinished)
          fun _ _ => id
      · simp only [Edit.run_bind_ok, Edit.run_modify_ok, Edit.run_lift_ok] at h
        obtain ⟨_, _, rfl, reaches, _, ⟨-, rfl⟩, h⟩ := h
        have hnext : ∀ {mid : SearchRun}, mid.start = run.start → mid.stop = run.stop →
            mid.depths = run.depths → mid.waitlist = rest →
            mid.finished = run.finished ++ [entry.node] →
            HandsOut visitsReached (some (entry.node, entry.depth)) run mid := by
          intro mid hstart hstop hdepths hrest hfinished
          refine ⟨hstart, hstop, hdepths, fun e he => hwaitlist ▸ List.mem_cons_of_mem _ (hrest ▸ he),
            ?_, fun h => ?_, by simp, fun _ id hid => ?_⟩
          · rintro id (hid | ⟨e, he, rfl⟩)
            · exact .inl (hfinished ▸ List.mem_append_left _ hid)
            · obtain rfl | he := List.mem_cons.1 (hwaitlist ▸ he)
              · exact .inl (by simp [hfinished])
              · exact .inr ⟨e, hrest ▸ he, rfl⟩
          · cases h
            exact ⟨entry, by simp [hwaitlist], rfl⟩
          · obtain hid | hid := List.mem_append.1 (hfinished ▸ hid)
            · exact .inl hid
            · exact .inr ⟨entry.depth, by rw [List.mem_singleton.1 hid]⟩
        split at h
        · simp only [Edit.run_bind_ok, Edit.run_modify_ok] at h
          obtain ⟨_, _, rfl, h⟩ := h
          split at h
          · obtain ⟨rfl, rfl⟩ := Edit.run_pure_ok.1 h
            exact hnext rfl rfl rfl rfl rfl
          · rename_i hvisits
            exact (ih rfl h).of_first hwaitlist rfl rfl rfl rfl
              (fun id hid => List.mem_append_left _ hid) (by simp) fun hv => absurd hv hvisits
        · obtain ⟨rfl, rfl⟩ := Edit.run_pure_ok.1 h
          exact hnext rfl rfl rfl rfl rfl

/-- **Handing out a node loses nothing**: what was seen is still seen. -/
theorem next_ok {visitsReached : Bool} {next : Option (NodeId × Nat)}
    (h : (SearchRun.next gen visitsReached).run run = .ok next run') :
    HandsOut visitsReached next run run' := by
  simp only [SearchRun.next, Edit.run_bind_ok, Edit.run_get_ok] at h
  obtain ⟨_, _, ⟨rfl, rfl⟩, h⟩ := h
  exact nextOf_ok rfl h

/-- A search hands out nodes of a graph, each of them once. -/
structure Counted (run : SearchRun) (g : Graph S) : Prop where
  nodup : run.finished.Nodup
  held : ∀ id ∈ run.finished, ∃ n, g.get? id = some n

theorem Counted.length_le {g : Graph S} (h : run.Counted g) : run.finished.length ≤ g.size :=
  g.length_le_size h.nodup h.held

theorem nextOf_counted {visitsReached : Bool} {entries : List Entry} {next : Option (NodeId × Nat)}
    (hrun : run.Counted gen.graph)
    (h : (nextOf gen visitsReached entries).run run = .ok next run') :
    run'.Counted gen.graph ∧ run.finished.length + next.toList.length ≤ run'.finished.length := by
  induction entries generalizing run with
  | nil =>
    obtain ⟨rfl, rfl⟩ := Edit.run_pure_ok.1 h
    exact ⟨hrun, Nat.le_refl _⟩
  | cons entry rest ih =>
    simp only [nextOf, Edit.run_bind_ok, Edit.run_get_ok, Edit.run_lift_ok] at h
    obtain ⟨_, _, ⟨rfl, rfl⟩, stops, _, ⟨-, rfl⟩, h⟩ := h
    split at h
    · obtain ⟨rfl, rfl⟩ := Edit.run_pure_ok.1 h
      exact ⟨hrun, Nat.le_refl _⟩
    · simp only [Edit.run_bind_ok, Edit.run_modify_ok, Edit.run_get_ok] at h
      obtain ⟨_, _, rfl, _, _, ⟨rfl, rfl⟩, h⟩ := h
      split at h
      · have hrest : Counted { run with waitlist := rest } gen.graph := ⟨hrun.nodup, hrun.held⟩
        obtain ⟨hrun', hlength⟩ := ih hrest h
        exact ⟨hrun', hlength⟩
      · rename_i hnew
        simp only [Edit.run_bind_ok, Edit.run_modify_ok, Edit.run_lift_ok] at h
        obtain ⟨_, _, rfl, reaches, _, ⟨hreaches, rfl⟩, h⟩ := h
        -- the node that is finished now is in the graph and was not finished before
        have hcounted : ∀ {mid : SearchRun}, mid.finished = run.finished ++ [entry.node] →
            mid.Counted gen.graph := by
          intro mid hmid
          refine ⟨?_, fun id hid => ?_⟩
          · rw [hmid, ← List.concat_eq_append, List.nodup_concat]
            exact ⟨by simpa using hnew, hrun.nodup⟩
          · obtain hid | hid := List.mem_append.1 (hmid ▸ hid)
            · exact hrun.held id hid
            · obtain ⟨n, hn, -⟩ := bind_eq_ok.1 hreaches
              exact ⟨n, List.mem_singleton.1 hid ▸ Graph.node_eq_ok.1 hn⟩
        split at h
        · simp only [Edit.run_bind_ok, Edit.run_modify_ok] at h
          obtain ⟨_, _, rfl, h⟩ := h
          split at h
          · obtain ⟨rfl, rfl⟩ := Edit.run_pure_ok.1 h
            exact ⟨hcounted rfl, by simp⟩
          · obtain ⟨hrun', hlength⟩ := ih (hcounted rfl) h
            exact ⟨hrun', Nat.le_trans (by simp) hlength⟩
        · obtain ⟨rfl, rfl⟩ := Edit.run_pure_ok.1 h
          exact ⟨hcounted rfl, by simp⟩

/-- **Each node is handed out once.** -/
theorem next_counted {visitsReached : Bool} {next : Option (NodeId × Nat)}
    (hrun : run.Counted gen.graph)
    (h : (SearchRun.next gen visitsReached).run run = .ok next run') :
    run'.Counted gen.graph ∧ run.finished.length + next.toList.length ≤ run'.finished.length := by
  simp only [SearchRun.next, Edit.run_bind_ok, Edit.run_get_ok] at h
  obtain ⟨_, _, ⟨rfl, rfl⟩, h⟩ := h
  exact nextOf_counted hrun h

theorem HandsOut.orderly {visitsReached : Bool} {next : Option (NodeId × Nat)}
    (h : HandsOut visitsReached next run run') (hrun : run.Orderly gen) : run'.Orderly gen where
  searchable e he := hrun.searchable e (h.waitlist e he)
  found hid := h.sees (hrun.found (by rwa [depth?, ← h.depths]))

end SearchRun

end GuidedReach
