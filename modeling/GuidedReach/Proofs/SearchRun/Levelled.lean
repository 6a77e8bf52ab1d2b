import GuidedReach.Proofs.SearchRun.Paced

/-!
# Searches level by level

While all heuristics are 0, nodes wait with the depths at which they were found, and they are handed
out in the order of these depths. So no node is found again above the depth at which it was finished.

* `SearchRun.Notes` — what a search writes down when it finds nodes.
* `SearchRun.Levelled` — what a search without heuristics keeps true of its waitlist.
* `SearchRun.Levelled.exists_enqueue` — letting a node wait meets no fault.
* `SearchRun.Levelled.finish` — the first entry is the one to go on with.
-/

namespace GuidedReach.SearchRun

variable {S P K : Type} {gen : Generation S P K} {run mid run' : SearchRun} {pace depth : Nat}
variable {parent : Option NodeId} {id : NodeId} {ids : List NodeId}

/-! ## Found nodes -/

/-- Nodes were found from a parent, at a depth, and those that had not been found there or above were
written down. -/
structure Notes (parent : Option NodeId) (depth : Nat) (ids : List NodeId) (run run' : SearchRun) :
    Prop where
  start : run'.start = run.start
  stop : run'.stop = run.stop
  finished : run'.finished = run.finished
  reached : run'.reached = run.reached
  found : ∀ i ∈ ids, ∃ d ≤ depth, run'.depth? i = some d
  cases : ∀ i, (run'.depth? i = run.depth? i ∧ run'.parent? i = run.parent? i) ∨
    (i ∈ ids ∧ i ∉ run.finished ∧ (∀ d, run.depth? i = some d → depth < d) ∧
      run'.depth? i = some depth ∧ run'.parent? i = parent)

namespace Notes

theorem refl (parent : Option NodeId) (depth : Nat) (run : SearchRun) :
    Notes parent depth [] run run where
  start := rfl
  stop := rfl
  finished := rfl
  reached := rfl
  found := by simp
  cases i := .inl ⟨rfl, rfl⟩

theorem cons (h : Notes parent depth [id] run mid) (h' : Notes parent depth ids mid run') :
    Notes parent depth (id :: ids) run run' where
  start := h'.start.trans h.start
  stop := h'.stop.trans h.stop
  finished := h'.finished.trans h.finished
  reached := h'.reached.trans h.reached
  found := by
    refine List.forall_mem_cons.2 ⟨?_, h'.found⟩
    obtain ⟨d, hle, hd⟩ := h.found id List.mem_cons_self
    rcases h'.cases id with ⟨hsame, -⟩ | ⟨-, -, -, hnew, -⟩
    · exact ⟨d, hle, hsame.trans hd⟩
    · exact ⟨depth, Nat.le_refl _, hnew⟩
  cases := by
    intro i
    rcases h.cases i with ⟨hdepth, hparent⟩ | ⟨hmem, hopen, hnews, hdepth, hparent⟩
    · rcases h'.cases i with ⟨hdepth', hparent'⟩ | ⟨hmem', hopen', hnews', hdepth', hparent'⟩
      · exact .inl ⟨hdepth'.trans hdepth, hparent'.trans hparent⟩
      · exact .inr ⟨List.mem_cons_of_mem _ hmem', h.finished ▸ hopen',
          fun d hd => hnews' d (hdepth.trans hd), hdepth', hparent'⟩
    · have hmem : i ∈ id :: ids := by rw [List.mem_singleton.1 hmem]; exact List.mem_cons_self
      rcases h'.cases i with ⟨hdepth', hparent'⟩ | ⟨-, -, hnews', -⟩
      · exact .inr ⟨hmem, hopen, hnews, hdepth'.trans hdepth, hparent'.trans hparent⟩
      · exact absurd (hnews' depth hdepth) (Nat.lt_irrefl depth)

/-- Nothing is found again once it is finished. -/
theorem of_finished (h : Notes parent depth ids run run') {i : NodeId} (hi : i ∈ run.finished) :
    run'.depth? i = run.depth? i ∧ run'.parent? i = run.parent? i :=
  (h.cases i).resolve_right fun hnew => hnew.2.1 hi

/-- What was found stays found, maybe higher up. -/
theorem exists_depth (h : Notes parent depth ids run run') {i : NodeId} {d : Nat}
    (hd : run.depth? i = some d) : ∃ e ≤ d, run'.depth? i = some e := by
  rcases h.cases i with ⟨hsame, -⟩ | ⟨-, -, hnews, hnew, -⟩
  · exact ⟨d, Nat.le_refl d, hsame.trans hd⟩
  · exact ⟨depth, Nat.le_of_lt (hnews d hd), hnew⟩

end Notes

/-! ## The waitlist -/

/-- Entries wait in the order of their depths, and none of them above the pace; nothing was finished
below it. -/
structure Levelled (pace : Nat) (run : SearchRun) : Prop where
  sorted : run.waitlist.Pairwise fun a b => a.weight ≤ b.weight
  waiting : ∀ e ∈ run.waitlist, e.weight = e.depth ∧ pace ≤ e.depth ∧
    ∃ d ≤ e.depth, run.depth? e.node = some d
  found : ∀ {i d}, run.depth? i = some d →
    i ∈ run.finished ∨ ∃ e ∈ run.waitlist, e.node = i ∧ e.depth = d
  finished : ∀ i ∈ run.finished, ∃ d ≤ pace, run.depth? i = some d
  ordered : run.finished.Pairwise fun i j =>
    ∀ d e, run.depth? i = some d → run.depth? j = some e → d ≤ e

namespace Levelled

theorem start (ids : List NodeId) (stop : StopCriterion) :
    Levelled 0 { start := ids, stop } where
  sorted := .nil
  waiting := by simp
  found hd := by simp [depth?, NodeMap.get?_empty] at hd
  finished := by simp
  ordered := .nil

/-- Search parents do not matter for the order. -/
theorem forgetParent (h : run.Levelled pace) (id : NodeId) : (run.forgetParent id).Levelled pace where
  sorted := h.sorted
  waiting := h.waiting
  found := h.found
  finished := h.finished
  ordered := h.ordered

/-- The run after a node was found and its entry was made. -/
theorem insert (h : run.Levelled pace) (parent : Option NodeId) (entry : Entry) (serial : Nat)
    (hnew : entry.node ∉ run.finished)
    (hnews : ∀ d, run.depth? entry.node = some d → entry.depth < d)
    (hweight : entry.weight = entry.depth) (hpace : pace ≤ entry.depth) :
    Levelled pace { run with
      depths := run.depths.insert entry.node entry.depth
      parents := run.parents.insert entry.node parent
      waitlist := entry.insert run.waitlist
      serial } := by
  have hdepth : ∀ {i}, i ∈ run.finished →
      (run.depths.insert entry.node entry.depth).get? i = run.depth? i :=
    fun hi => depth_insert_of_finished hnew hi
  constructor
  · exact Entry.pairwise_insert h.sorted
  · intro e he
    rcases mem_insert.1 he with rfl | he
    · exact ⟨hweight, hpace, e.depth, Nat.le_refl _, by simp [depth?, NodeMap.get?_insert]⟩
    · obtain ⟨hweight', hpace', hfound⟩ := h.waiting e he
      exact ⟨hweight', hpace', exists_depth_insert hnews hfound⟩
  · intro i d hd
    simp only [depth?, NodeMap.get?_insert] at hd
    split at hd
    · rename_i heq
      exact .inr ⟨entry, mem_insert.2 (.inl rfl), heq.symm, Option.some.inj hd⟩
    · refine (h.found hd).imp_right ?_
      rintro ⟨e, he, hrest⟩
      exact ⟨e, mem_insert.2 (.inr he), hrest⟩
  · intro i hi
    obtain ⟨d, hle, hd⟩ := h.finished i hi
    exact ⟨d, hle, (hdepth hi).trans hd⟩
  · refine h.ordered.imp_of_mem fun hi hj hle d e hd he => hle d e ?_ ?_
    · rw [← hdepth hi]
      exact hd
    · rw [← hdepth hj]
      exact he

/-- **A node can be enqueued** that was found no higher than the pace. -/
theorem exists_enqueue (h : run.Levelled pace) (parent : Option NodeId) {n : Node S}
    {k : SearchNode} (hn : gen.graph.get? id = some n) (hk : gen.searchNodes.get? id = some k)
    (hheuristic : k.heuristic = .zero) (hdistance : k.distance = .unknown) (hpace : pace ≤ depth)
    (hlimit : depth ≤ Distance.limit) :
    ∃ run', (enqueue gen id parent depth).run run = .ok () run' ∧ run'.Levelled pace ∧
      Notes parent depth [id] run run' := by
  have hold : id ∈ run.finished → ∃ d ≤ depth, run.depth? id = some d := by
    intro hfinished
    obtain ⟨d, hle, hd⟩ := h.finished id hfinished
    exact ⟨d, hle.trans hpace, hd⟩
  rcases exists_find parent hold with ⟨hfound, hfind⟩ | ⟨hnew, hnews, hfind⟩
  · refine ⟨run, run_enqueue_of_not_find hk (by rw [hheuristic]; rfl) hfind, h,
      ⟨rfl, rfl, rfl, rfl, by simpa using hfound, fun i => .inl ⟨rfl, rfl⟩⟩⟩
  · refine ⟨_, run_enqueue_of_find hn hk hheuristic hdistance hlimit hfind,
      h.insert parent (run.entryOf id n.isTarget 0 depth) (run.serial + 1) hnew hnews rfl
        hpace, ⟨rfl, rfl, rfl, rfl, ?_, fun i => ?_⟩⟩
    · simp [depth?, NodeMap.get?_insert]
    · by_cases heq : i = id
      · subst heq
        exact .inr ⟨List.mem_singleton_self i, hnew, hnews, by simp [depth?, NodeMap.get?_insert],
          by simp [parent?, NodeMap.get?_insert]⟩
      · exact .inl ⟨by simp [depth?, NodeMap.get?_insert, heq],
          by simp [parent?, NodeMap.get?_insert, heq]⟩

/-! ## Handing out nodes -/

variable {entry : Entry} {rest : List Entry}

/-- A stale entry of a finished node may be passed over. -/
theorem skip (h : run.Levelled pace) (hwaitlist : run.waitlist = entry :: rest)
    (hentry : entry.node ∈ run.finished) : Levelled pace { run with waitlist := rest } where
  sorted := (List.pairwise_cons.1 (hwaitlist ▸ h.sorted)).2
  waiting e he := h.waiting e (hwaitlist ▸ List.mem_cons_of_mem _ he)
  found := by
    intro i d hd
    rcases h.found hd with hi | ⟨e, he, hnode, hdepth⟩
    · exact .inl hi
    · rw [hwaitlist] at he
      rcases List.mem_cons.1 he with rfl | he
      · exact .inl (hnode ▸ hentry)
      · exact .inr ⟨e, he, hnode, hdepth⟩
  finished := h.finished
  ordered := h.ordered

/-- The first entry of a node that is not finished yet waits at the depth of the node. -/
theorem depth_first (h : run.Levelled pace) (hwaitlist : run.waitlist = entry :: rest)
    (hopen : entry.node ∉ run.finished) : run.depth? entry.node = some entry.depth := by
  obtain ⟨hweight, -, d, hle, hd⟩ := h.waiting entry (hwaitlist ▸ List.mem_cons_self)
  obtain ⟨e, he, -, rfl⟩ := (h.found hd).resolve_left hopen
  obtain ⟨hweight', -⟩ := h.waiting e he
  have hsorted := hwaitlist ▸ h.sorted
  rw [hwaitlist] at he
  rcases List.mem_cons.1 he with rfl | he
  · exact hd
  · have := (List.pairwise_cons.1 hsorted).1 e he
    rwa [show entry.depth = e.depth by omega]

/-- **The first entry is finished**: its depth is the new pace. -/
theorem finish (h : run.Levelled pace) (hwaitlist : run.waitlist = entry :: rest)
    (hopen : entry.node ∉ run.finished) (reached : List NodeId) :
    Levelled entry.depth { run with
      waitlist := rest
      finished := run.finished ++ [entry.node]
      reached } := by
  have hdepth := h.depth_first hwaitlist hopen
  obtain ⟨hweight, hpace, -⟩ := h.waiting entry (hwaitlist ▸ List.mem_cons_self)
  obtain ⟨hfirst, hrest⟩ := List.pairwise_cons.1 (hwaitlist ▸ h.sorted)
  have hfinished : ∀ i ∈ run.finished, ∃ d ≤ entry.depth, run.depth? i = some d := by
    intro i hi
    obtain ⟨d, hle, hd⟩ := h.finished i hi
    exact ⟨d, hle.trans hpace, hd⟩
  constructor
  · exact hrest
  · intro e he
    obtain ⟨hweight', -, hfound⟩ := h.waiting e (hwaitlist ▸ List.mem_cons_of_mem _ he)
    have := hfirst e he
    exact ⟨hweight', by omega, hfound⟩
  · intro i d hd
    rcases h.found hd with hi | ⟨e, he, hnode, hdepth'⟩
    · exact .inl (List.mem_append_left _ hi)
    · rw [hwaitlist] at he
      rcases List.mem_cons.1 he with rfl | he
      · exact .inl (List.mem_append_right _ (List.mem_singleton.2 hnode.symm))
      · exact .inr ⟨e, he, hnode, hdepth'⟩
  · intro i hi
    rcases List.mem_append.1 hi with hi | hi
    · exact hfinished i hi
    · rw [List.mem_singleton.1 hi]
      exact ⟨entry.depth, Nat.le_refl _, hdepth⟩
  · refine List.pairwise_append.2 ⟨h.ordered, List.pairwise_singleton _ _, ?_⟩
    rintro i hi j hj d e (hd : run.depth? i = some d) (he : run.depth? j = some e)
    rw [List.mem_singleton.1 hj, hdepth] at he
    obtain ⟨d', hle, hd'⟩ := hfinished i hi
    rw [hd] at hd'
    cases hd'
    cases he
    exact hle

end Levelled

end GuidedReach.SearchRun
