import GuidedReach.Proofs.Exploration.Keeps
import GuidedReach.Proofs.SearchRun.Waitlist

/-!
# The pace of a search

An exhaustive search hands out nodes in the order of their weights: the depth at which a node was
found plus its heuristic. While heuristics are consistent, nothing waits with less than the weight of
the node handed out last, its *pace*, and no node was finished at more than that. So no node is found
again above the depth at which it was finished.

* `SearchRun.Paced` — what an exhaustive search keeps true of its waitlist.
* `SearchRun.Paced.exists_enqueue` — a node that is not behind the pace can be enqueued.
* `SearchRun.exists_next` — handing out a node meets no fault and does not lower the pace.
-/

namespace GuidedReach

variable {S P K : Type}

namespace Entry

variable {a b entry : Entry} {entries : List Entry}

theorem weight_le_of_before (h : a.before b = true) : a.weight ≤ b.weight := by
  unfold before at h
  split at h
  · exact Nat.le_of_lt (of_decide_eq_true h)
  · omega

theorem weight_le_of_not_before (h : a.before b = false) : b.weight ≤ a.weight := by
  unfold before at h
  split at h
  · exact Nat.le_of_not_lt (of_decide_eq_false h)
  · omega

/-- Putting an entry into its place keeps the waitlist in order. -/
theorem pairwise_insert (h : entries.Pairwise fun a b => a.weight ≤ b.weight) :
    (entry.insert entries).Pairwise fun a b => a.weight ≤ b.weight := by
  induction entries with
  | nil => simp [Entry.insert]
  | cons first rest ih =>
    obtain ⟨hfirst, hrest⟩ := List.pairwise_cons.1 h
    unfold Entry.insert
    split
    · rename_i hbefore
      have hle := weight_le_of_before hbefore
      exact List.pairwise_cons.2
        ⟨List.forall_mem_cons.2 ⟨hle, fun e he => hle.trans (hfirst e he)⟩, h⟩
    · rename_i hbefore
      refine List.pairwise_cons.2 ⟨fun e he => ?_, ih hrest⟩
      rcases SearchRun.mem_insert.1 he with rfl | he
      · exact weight_le_of_not_before (by simpa using hbefore)
      · exact hfirst e he

end Entry

/-- Whether a node reaches a target can be told from its values. -/
theorem Generation.reachesTarget_eq {gen : Generation S P K} {id : NodeId} {n : Node S}
    {k : SearchNode} (hn : gen.graph.get? id = some n) (hk : gen.searchNodes.get? id = some k) :
    gen.reachesTarget id = .ok (n.isTarget || k.distance.isFinite) := by
  have hd : gen.distance id = .ok k.distance := distance_eq_ok.2 ⟨k, hk, rfl⟩
  cases htarget : n.isTarget <;>
    simp [reachesTarget, Graph.node_eq_ok.2 hn, htarget, hd, bind, Except.bind, pure, Except.pure]

namespace SearchRun

variable {gen gen' : Generation S P K} {run run' : SearchRun} {pace depth : Nat} {id : NodeId}

/-- An entry of the waitlist is not behind the pace. -/
structure OnPace (gen : Generation S P K) (pace : Nat) (run : SearchRun) (e : Entry) : Prop where
  inGraph : ∃ n, gen.graph.get? e.node = some n
  weight : ∃ h, gen.heuristic e.node = .ok (.finite h) ∧ e.weight = e.depth + h
  pace_le : pace ≤ e.weight
  depth_le : e.depth ≤ run.finished.length
  found : ∃ d ≤ e.depth, run.depth? e.node = some d

/-- A node of the graph has a known heuristic. -/
def Judged (gen : Generation S P K) (id : NodeId) : Prop :=
  (∃ n, gen.graph.get? id = some n) ∧ ∃ d, gen.heuristic id = .ok d ∧ d.isKnown = true

/-- What an exhaustive search keeps true: entries wait in the order of their weights and not behind
the pace, and no node was finished at more than the pace. -/
structure Paced (gen : Generation S P K) (pace : Nat) (run : SearchRun) : Prop where
  stop : run.stop = .fullExploration
  sorted : run.waitlist.Pairwise fun a b => a.weight ≤ b.weight
  waiting : ∀ e ∈ run.waitlist, run.OnPace gen pace e
  finished : ∀ i ∈ run.finished, ∃ d h, run.depth? i = some d ∧
    gen.heuristic i = .ok (.finite h) ∧ d + h ≤ pace
  reached : ∀ i ∈ run.reached, ∃ n, gen.graph.get? i = some n ∧ n.isTarget = true
  parents : ∀ {i j}, run.parent? i = some j → Judged gen j

theorem Judged.keeps (h : Judged gen id) (hkeeps : gen.Keeps gen') : Judged gen' id := by
  obtain ⟨⟨n, hn⟩, d, hd, hknown⟩ := h
  obtain ⟨n', hn', -⟩ := hkeeps.grows.node hn
  exact ⟨⟨n', hn'⟩, d, hkeeps.heuristic hd hknown, hknown⟩

/-- A search keeps its pace while its generation grows. -/
theorem Paced.keeps (h : run.Paced gen pace) (hkeeps : gen.Keeps gen') : run.Paced gen' pace where
  stop := h.stop
  sorted := h.sorted
  waiting := by
    intro e he
    obtain ⟨⟨n, hn⟩, ⟨v, hv, hweight⟩, hpace, hdepth, hfound⟩ := h.waiting e he
    obtain ⟨n', hn', -⟩ := hkeeps.grows.node hn
    exact ⟨⟨n', hn'⟩, ⟨v, hkeeps.heuristic hv rfl, hweight⟩, hpace, hdepth, hfound⟩
  finished := by
    intro i hi
    obtain ⟨d, v, hd, hv, hle⟩ := h.finished i hi
    exact ⟨d, v, hd, hkeeps.heuristic hv rfl, hle⟩
  reached := by
    intro i hi
    obtain ⟨n, hn, htarget⟩ := h.reached i hi
    obtain ⟨n', hn', hgrows⟩ := hkeeps.grows.node hn
    exact ⟨n', hn', hgrows.isTarget.trans htarget⟩
  parents hi := (h.parents hi).keeps hkeeps

/-- A search starts without having visited anything. -/
theorem Paced.start (ids : List NodeId) :
    Paced gen 0 { start := ids, stop := .fullExploration } where
  stop := rfl
  sorted := .nil
  waiting := by simp
  finished := by simp
  reached := by simp
  parents := by simp [parent?, NodeMap.get?_empty]

/-- Search parents do not matter for the pace. -/
theorem Paced.forgetParent (h : run.Paced gen pace) (id : NodeId) :
    (run.forgetParent id).Paced gen pace where
  stop := h.stop
  sorted := h.sorted
  waiting e he :=
    ⟨(h.waiting e he).inGraph, (h.waiting e he).weight, (h.waiting e he).pace_le,
      (h.waiting e he).depth_le, (h.waiting e he).found⟩
  finished := h.finished
  reached := h.reached
  parents := by
    intro i j hi
    simp only [parent?, SearchRun.forgetParent, NodeMap.get?_erase] at hi
    split at hi
    · cases hi
    · exact h.parents hi

/-! ## Letting nodes wait -/

/-- Finding a node meets no fault, unless it was finished at a larger depth. -/
theorem exists_find (parent : Option NodeId)
    (hold : id ∈ run.finished → ∃ d ≤ depth, run.depth? id = some d) :
    ((∃ d ≤ depth, run.depth? id = some d) ∧ (find id parent depth).run run = .ok false run) ∨
      (id ∉ run.finished ∧ (∀ d, run.depth? id = some d → depth < d) ∧
        (find id parent depth).run run = .ok true { run with
          depths := run.depths.insert id depth
          parents := run.parents.insert id parent }) := by
  simp only [find, Edit.run_bind_ok, Edit.run_get_ok]
  by_cases hfinished : id ∈ run.finished
  · obtain ⟨d, hdepth, hd⟩ := hold hfinished
    refine .inl ⟨⟨d, hdepth, hd⟩, run, run, ⟨rfl, rfl⟩, ?_⟩
    rw [if_pos (by simpa using hfinished)]
    simp only [hd, Edit.run_bind_ok, Edit.run_lift_ok, demand_eq_ok, decide_eq_true_eq,
      Edit.run_pure_ok]
    exact ⟨(), run, ⟨hdepth, rfl⟩, trivial, rfl⟩
  · by_cases hfound : (run.depth? id).any (· ≤ depth) = true
    · refine .inl ⟨?_, run, run, ⟨rfl, rfl⟩, ?_⟩
      · obtain ⟨d, hd, hdepth⟩ := (Option.any_eq_true _ _).1 hfound
        exact ⟨d, of_decide_eq_true hdepth, hd⟩
      · rw [if_neg (by simpa using hfinished), if_pos hfound]
        exact Edit.run_pure_ok.2 ⟨rfl, rfl⟩
    · refine .inr ⟨hfinished, fun d hd => ?_, run, run, ⟨rfl, rfl⟩, ?_⟩
      · rw [hd] at hfound
        simpa using hfound
      · rw [if_neg (by simpa using hfinished), if_neg hfound]
        simp only [Edit.run_bind_ok, Edit.run_set_ok, Edit.run_pure_ok]
        exact ⟨⟨⟩, _, rfl, trivial, rfl⟩

/-- The entry of a node with a heuristic from which some edges are expected to a target. -/
def expectedEntry (run : SearchRun) (id : NodeId) (reaches : Bool) (heuristic edges depth : Nat) :
    Entry where
  node := id
  depth := depth
  weight := min (edges + depth) Distance.limit
  reachesTarget := reaches
  hasSmallHeuristic := (Distance.finite heuristic).notAbove (.finite 1)
  serial := run.serial

/-- A node that was found gets its entry. -/
theorem run_enqueue_of_expected {parent : Option NodeId} {n : Node S} {k : SearchNode}
    {v edges : Nat} (hn : gen.graph.get? id = some n) (hk : gen.searchNodes.get? id = some k)
    (hheuristic : k.heuristic = .finite v)
    (hdistance : k.distance = .finite edges ∨ k.distance = .unknown ∧ edges = v)
    (hfind : (find id parent depth).run run = .ok true run') :
    (enqueue gen id parent depth).run run = .ok () { run' with
      waitlist := (run'.expectedEntry id (n.isTarget || k.distance.isFinite) v edges depth).insert
        run'.waitlist
      serial := run'.serial + 1 } := by
  have hestimate : (if k.distance.isFinite then k.distance else k.heuristic) = .finite edges := by
    rcases hdistance with hd | ⟨hd, rfl⟩ <;> simp [hd, hheuristic, Distance.isFinite]
  have hopen : (k.heuristic.isInfinite || k.distance.isInfinite) = false := by
    rcases hdistance with hd | ⟨hd, -⟩ <;> simp [hd, hheuristic, Distance.isInfinite]
  have hsmall : k.heuristic.le (.finite 1) = .ok ((Distance.finite v).notAbove (.finite 1)) := by
    rw [hheuristic]
    exact Distance.le_eq_ok rfl rfl
  simp only [enqueue, Edit.run_bind_ok, Edit.run_lift_ok, Generation.searchNode_eq_ok, demand_eq_ok]
  refine ⟨k, run, ⟨hk, rfl⟩, (), run, ⟨by rw [hheuristic]; rfl, rfl⟩, ?_⟩
  rw [hopen]
  simp only [Bool.false_eq_true, if_false]
  refine Edit.run_bind_ok.2 ⟨true, run', hfind, ?_⟩
  simp only [if_true, hestimate, Edit.run_bind_ok, Edit.run_lift_ok, Edit.run_modify_ok]
  exact ⟨_, _, ⟨rfl, rfl⟩, _, _, ⟨rfl, rfl⟩, _, _, ⟨Generation.reachesTarget_eq hn hk, rfl⟩, _, _,
    ⟨hsmall, rfl⟩, rfl⟩

/-- The entry of a node whose distance is not known. -/
def entryOf (run : SearchRun) (id : NodeId) (isTarget : Bool) (heuristic depth : Nat) : Entry where
  node := id
  depth := depth
  weight := depth + heuristic
  reachesTarget := isTarget
  hasSmallHeuristic := (Distance.finite heuristic).notAbove (.finite 1)
  serial := run.serial

/-- A node whose distance is not known gets its entry. -/
theorem run_enqueue_of_find {parent : Option NodeId} {n : Node S} {k : SearchNode} {v : Nat}
    (hn : gen.graph.get? id = some n) (hk : gen.searchNodes.get? id = some k)
    (hheuristic : k.heuristic = .finite v) (hdistance : k.distance = .unknown)
    (hlimit : depth + v ≤ Distance.limit) (hfind : (find id parent depth).run run = .ok true run') :
    (enqueue gen id parent depth).run run = .ok () { run' with
      waitlist := (run'.entryOf id n.isTarget v depth).insert run'.waitlist
      serial := run'.serial + 1 } := by
  have hentry : run'.expectedEntry id (n.isTarget || k.distance.isFinite) v v depth =
      run'.entryOf id n.isTarget v depth := by
    simp [expectedEntry, entryOf, hdistance, Distance.isFinite, Nat.add_comm v, hlimit]
  exact hentry ▸ run_enqueue_of_expected hn hk hheuristic (.inr ⟨hdistance, rfl⟩) hfind

/-- A node from which no target can be reached gets no entry. -/
theorem run_enqueue_of_hopeless {parent : Option NodeId} {k : SearchNode}
    (hk : gen.searchNodes.get? id = some k) (hknown : k.heuristic.isKnown = true)
    (hhopeless : (k.heuristic.isInfinite || k.distance.isInfinite) = true) :
    (enqueue gen id parent depth).run run = .ok () run := by
  simp only [enqueue, Edit.run_bind_ok, Edit.run_lift_ok, Generation.searchNode_eq_ok, demand_eq_ok]
  refine ⟨k, run, ⟨hk, rfl⟩, (), run, ⟨hknown, rfl⟩, ?_⟩
  rw [if_pos hhopeless]
  exact Edit.run_pure_ok.2 ⟨rfl, rfl⟩

/-- A node that was found there or above gets no entry. -/
theorem run_enqueue_of_not_find {parent : Option NodeId} {k : SearchNode}
    (hk : gen.searchNodes.get? id = some k) (hknown : k.heuristic.isKnown = true)
    (hfind : (find id parent depth).run run = .ok false run) :
    (enqueue gen id parent depth).run run = .ok () run := by
  simp only [enqueue, Edit.run_bind_ok, Edit.run_lift_ok, Generation.searchNode_eq_ok, demand_eq_ok]
  refine ⟨k, run, ⟨hk, rfl⟩, (), run, ⟨hknown, rfl⟩, ?_⟩
  split
  · exact Edit.run_pure_ok.2 ⟨rfl, rfl⟩
  · exact Edit.run_bind_ok.2 ⟨false, run, hfind, Edit.run_pure_ok.2 ⟨rfl, rfl⟩⟩

/-- What was found stays found when a node is found higher up than before: the entries that were made
for that node before are stale then. -/
theorem exists_depth_insert {i : NodeId} {bound : Nat}
    (hnews : ∀ d, run.depth? id = some d → depth < d) (h : ∃ d ≤ bound, run.depth? i = some d) :
    ∃ d ≤ bound, (run.depths.insert id depth).get? i = some d := by
  obtain ⟨d, hle, hd⟩ := h
  rw [NodeMap.get?_insert]
  split
  · rename_i heq
    have := hnews d (heq ▸ hd)
    exact ⟨depth, by omega, rfl⟩
  · exact ⟨d, hle, hd⟩

/-- Finished nodes stay at the depth at which they were found. -/
theorem depth_insert_of_finished {i : NodeId} (hnew : id ∉ run.finished) (hi : i ∈ run.finished) :
    (run.depths.insert id depth).get? i = run.depth? i := by
  have hne : i ≠ id := fun heq => hnew (heq ▸ hi)
  rw [NodeMap.get?_insert, if_neg hne]
  rfl

/-- The run after a node was found and its entry was made. -/
theorem Paced.insert (h : run.Paced gen pace) (parent : Option NodeId) (entry : Entry) (serial : Nat)
    (hnew : entry.node ∉ run.finished)
    (hnews : ∀ d, run.depth? entry.node = some d → entry.depth < d)
    (hgraph : ∃ n, gen.graph.get? entry.node = some n)
    (hweight : ∃ v, gen.heuristic entry.node = .ok (.finite v) ∧ entry.weight = entry.depth + v)
    (hpace : pace ≤ entry.weight) (hdepth : entry.depth ≤ run.finished.length)
    (hparent : ∀ j, parent = some j → Judged gen j) :
    Paced gen pace { run with
      depths := run.depths.insert entry.node entry.depth
      parents := run.parents.insert entry.node parent
      waitlist := entry.insert run.waitlist
      serial } := by
  constructor
  · exact h.stop
  · exact Entry.pairwise_insert h.sorted
  · intro e he
    rcases mem_insert.1 he with rfl | he
    · exact ⟨hgraph, hweight, hpace, hdepth, e.depth, Nat.le_refl _, by
        simp [depth?, NodeMap.get?_insert]⟩
    · obtain ⟨hgraph', hweight', hpace', hdepth', hfound⟩ := h.waiting e he
      exact ⟨hgraph', hweight', hpace', hdepth', exists_depth_insert hnews hfound⟩
  · intro i hi
    obtain ⟨d, v, hd, hrest⟩ := h.finished i hi
    exact ⟨d, v, (depth_insert_of_finished hnew hi).trans hd, hrest⟩
  · exact h.reached
  · intro i j hi
    simp only [parent?, NodeMap.get?_insert] at hi
    split at hi
    · exact hparent j hi
    · exact h.parents hi

/-- **A node can be enqueued** that is not behind the pace, as long as its weight is not too large. -/
theorem Paced.exists_enqueue (h : run.Paced gen pace) (parent : Option NodeId) (depth : Nat)
    {k : SearchNode}
    (hgraph : ∃ n, gen.graph.get? id = some n) (hk : gen.searchNodes.get? id = some k)
    (hknown : k.heuristic.isKnown = true) (hopen : k.distance.isFinite = false)
    (hpace : ∀ v, k.heuristic = .finite v → pace ≤ depth + v ∧ depth + v ≤ Distance.limit)
    (hdepth : depth ≤ run.finished.length) (hparent : ∀ j, parent = some j → Judged gen j) :
    ∃ run', (enqueue gen id parent depth).run run = .ok () run' ∧ run'.Paced gen pace ∧
      run'.finished = run.finished := by
  by_cases hhopeless : (k.heuristic.isInfinite || k.distance.isInfinite) = true
  · exact ⟨run, run_enqueue_of_hopeless hk hknown hhopeless, h, rfl⟩
  · obtain ⟨v, hv⟩ : ∃ v, k.heuristic = .finite v := by
      cases hd : k.heuristic with
      | finite v => exact ⟨v, rfl⟩
      | unknown => simp [hd, Distance.isKnown] at hknown
      | infinite => simp [hd, Distance.isInfinite] at hhopeless
    have hunknown : k.distance = .unknown := by
      cases hd : k.distance with
      | unknown => rfl
      | finite d => simp [hd, Distance.isFinite] at hopen
      | infinite => simp [hd, Distance.isInfinite] at hhopeless
    obtain ⟨hle, hlimit⟩ := hpace v hv
    have hheuristic : gen.heuristic id = .ok (.finite v) :=
      Generation.heuristic_eq_ok.2 ⟨k, hk, hv⟩
    have hold : id ∈ run.finished → ∃ d ≤ depth, run.depth? id = some d := by
      intro hfinished
      obtain ⟨d, v', hd, hv', hle'⟩ := h.finished id hfinished
      rw [hheuristic] at hv'
      cases hv'
      exact ⟨d, by omega, hd⟩
    rcases exists_find parent hold with ⟨-, hfind⟩ | ⟨hnew, hnews, hfind⟩
    · exact ⟨run, run_enqueue_of_not_find hk hknown hfind, h, rfl⟩
    · obtain ⟨n, hn⟩ := hgraph
      exact ⟨_, run_enqueue_of_find hn hk hv hunknown hlimit hfind,
        h.insert parent (run.entryOf id n.isTarget v depth) (run.serial + 1) hnew hnews ⟨n, hn⟩
          ⟨v, hheuristic, rfl⟩ hle hdepth hparent, rfl⟩

/-- Start nodes can be enqueued. -/
theorem exists_forM_enqueue {ids : List NodeId} (h : run.Paced gen 0)
    (hids : ∀ i ∈ ids, (∃ n, gen.graph.get? i = some n) ∧ ∃ k, gen.searchNodes.get? i = some k ∧
      k.heuristic.isKnown = true ∧ k.distance.isFinite = false ∧
      ∀ v, k.heuristic = .finite v → v ≤ Distance.limit) :
    ∃ run', (ids.forM fun id => enqueue gen id none 0).run run = .ok () run' ∧
      run'.Paced gen 0 ∧ run'.finished = run.finished := by
  induction ids generalizing run with
  | nil => exact ⟨run, rfl, h, rfl⟩
  | cons id ids ih =>
    obtain ⟨hgraph, k, hk, hknown, hopen, hlimit⟩ := hids id List.mem_cons_self
    obtain ⟨mid, hfirst, hmid, hfinished⟩ := h.exists_enqueue none 0 hgraph hk
      hknown hopen (fun v hv => ⟨Nat.zero_le _, by simpa using hlimit v hv⟩) (Nat.zero_le _)
      (by simp)
    obtain ⟨run', hrest, hrun', hfinished'⟩ :=
      ih hmid fun i hi => hids i (List.mem_cons_of_mem _ hi)
    exact ⟨run', Edit.run_forM_cons_ok.2 ⟨mid, hfirst, hrest⟩, hrun', hfinished'.trans hfinished⟩

/-! ## Handing out nodes -/

/-- A stale entry of a finished node may be passed over. -/
theorem Paced.skip {entry : Entry} {rest : List Entry} (h : run.Paced gen pace)
    (hwaitlist : run.waitlist = entry :: rest) : Paced gen pace { run with waitlist := rest } where
  stop := h.stop
  sorted := (List.pairwise_cons.1 (hwaitlist ▸ h.sorted)).2
  waiting e he :=
    have hold := h.waiting e (hwaitlist ▸ List.mem_cons_of_mem _ he)
    ⟨hold.inGraph, hold.weight, hold.pace_le, hold.depth_le, hold.found⟩
  finished := h.finished
  reached := h.reached
  parents := h.parents

/-- The first entry is handed out: its weight is the new pace. -/
theorem Paced.handOut {entry : Entry} {rest : List Entry} {reached : List NodeId}
    (h : run.Paced gen pace) (hwaitlist : run.waitlist = entry :: rest)
    (hreached : ∀ i ∈ reached, ∃ n, gen.graph.get? i = some n ∧ n.isTarget = true) :
    Paced gen entry.weight { run with
      waitlist := rest
      finished := run.finished ++ [entry.node]
      reached } := by
  have hentry := h.waiting entry (hwaitlist ▸ List.mem_cons_self)
  have hsorted : (entry :: rest).Pairwise fun a b => a.weight ≤ b.weight := hwaitlist ▸ h.sorted
  obtain ⟨hfirst, hrest⟩ := List.pairwise_cons.1 hsorted
  constructor
  · exact h.stop
  · exact hrest
  · intro e he
    have hold := h.waiting e (hwaitlist ▸ List.mem_cons_of_mem _ he)
    refine ⟨hold.inGraph, hold.weight, hfirst e he, ?_, hold.found⟩
    have := hold.depth_le
    simp only [List.length_append, List.length_singleton]
    omega
  · intro i hi
    rcases List.mem_append.1 hi with hi | hi
    · obtain ⟨d, v, hd, hv, hle⟩ := h.finished i hi
      exact ⟨d, v, hd, hv, hle.trans hentry.pace_le⟩
    · obtain rfl := List.mem_singleton.1 hi
      obtain ⟨v, hv, hweight⟩ := hentry.weight
      obtain ⟨d, hle, hd⟩ := hentry.found
      exact ⟨d, v, hd, hv, by omega⟩
  · exact hreached
  · exact h.parents

/-- What the search continues with: there is no next node, or the weight of the next one, which is
not below the pace so far, is the new pace. -/
def Continues (gen : Generation S P K) (pace : Nat) (run : SearchRun) (next : Option (NodeId × Nat))
    (run' : SearchRun) : Prop :=
  (next = none ∧ run'.Paced gen pace ∧ run'.finished = run.finished) ∨
    ∃ id depth v, next = some (id, depth) ∧ gen.heuristic id = .ok (.finite v) ∧
      depth < run'.finished.length ∧ run'.finished.length = run.finished.length + 1 ∧
      run'.Paced gen (depth + v)

theorem exists_nextOf {entries : List Entry} (h : run.Paced gen pace)
    (hwaitlist : run.waitlist = entries)
    (hreaches : ∀ {i n}, gen.graph.get? i = some n → gen.reachesTarget i = .ok n.isTarget) :
    ∃ next run', (nextOf gen true entries).run run = .ok next run' ∧
      Continues gen pace run next run' := by
  induction entries generalizing run with
  | nil => exact ⟨none, run, rfl, .inl ⟨rfl, h, rfl⟩⟩
  | cons entry rest ih =>
    have hentry := h.waiting entry (hwaitlist ▸ List.mem_cons_self)
    obtain ⟨n, hn⟩ := hentry.inGraph
    have hstops : run.stopsBefore gen entry = .ok false := by
      rw [stopsBefore, h.stop]
      rfl
    simp only [nextOf, Edit.run_bind_ok, Edit.run_get_ok, Edit.run_lift_ok]
    by_cases hfinished : entry.node ∈ run.finished
    · obtain ⟨next, run', hrun, hnext⟩ := ih (h.skip hwaitlist) rfl
      refine ⟨next, run', ⟨run, run, ⟨rfl, rfl⟩, false, run, ⟨hstops, rfl⟩, ?_⟩, hnext⟩
      simp only [Bool.false_eq_true, if_false, Edit.run_bind_ok, Edit.run_modify_ok, Edit.run_get_ok]
      refine ⟨(), _, rfl, _, _, ⟨rfl, rfl⟩, ?_⟩
      rw [if_pos (by simpa using hfinished)]
      exact hrun
    · obtain ⟨v, hv, hweight⟩ := hentry.weight
      have hcontinues : ∀ reached : List NodeId,
          (∀ i ∈ reached, ∃ n, gen.graph.get? i = some n ∧ n.isTarget = true) →
          Continues gen pace run (some (entry.node, entry.depth)) { run with
            waitlist := rest
            finished := run.finished ++ [entry.node]
            reached } := by
        intro reached hreached
        refine .inr ⟨entry.node, entry.depth, v, rfl, hv, ?_, by simp, ?_⟩
        · have := hentry.depth_le
          simp only [List.length_append, List.length_singleton]
          omega
        · exact hweight ▸ h.handOut hwaitlist hreached
      refine ⟨some (entry.node, entry.depth), { run with
        waitlist := rest
        finished := run.finished ++ [entry.node]
        reached := if n.isTarget then run.reached ++ [entry.node] else run.reached },
        ⟨run, run, ⟨rfl, rfl⟩, false, run, ⟨hstops, rfl⟩, ?_⟩, hcontinues _ ?_⟩
      · simp only [Bool.false_eq_true, if_false, Edit.run_bind_ok, Edit.run_modify_ok, Edit.run_get_ok]
        refine ⟨(), _, rfl, _, _, ⟨rfl, rfl⟩, ?_⟩
        rw [if_neg (by simpa using hfinished)]
        simp only [Edit.run_bind_ok, Edit.run_modify_ok, Edit.run_lift_ok]
        refine ⟨(), _, rfl, n.isTarget, _, ⟨hreaches hn, rfl⟩, ?_⟩
        cases n.isTarget <;> simp
      · intro i hi
        split at hi
        · rename_i htarget
          rcases List.mem_append.1 hi with hi | hi
          · exact h.reached i hi
          · rw [List.mem_singleton.1 hi]
            exact ⟨n, hn, htarget⟩
        · exact h.reached i hi

/-- **Handing out a node meets no fault**, and the pace does not go down. -/
theorem exists_next (h : run.Paced gen pace)
    (hreaches : ∀ {i n}, gen.graph.get? i = some n → gen.reachesTarget i = .ok n.isTarget) :
    ∃ next run', (SearchRun.next gen true).run run = .ok next run' ∧
      Continues gen pace run next run' := by
  obtain ⟨next, run', hrun, hnext⟩ := exists_nextOf h rfl hreaches
  exact ⟨next, run', Edit.run_bind_ok.2 ⟨run, run, rfl, hrun⟩, hnext⟩

end SearchRun

end GuidedReach
