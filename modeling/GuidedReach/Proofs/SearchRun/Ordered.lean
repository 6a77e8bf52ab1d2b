import GuidedReach.Exploration.Stage
import GuidedReach.Proofs.Exploration.Proceeding
import GuidedReach.Proofs.SearchRun.Levelled

/-!
# The order in which a search takes entries

The entries that a search has taken from its waitlist and those that are still there are all in the
order of their weights, as long as whatever is let wait weighs no less than what was taken. So the
first entry of a node that is taken is the one with the least depth.

* `Generation.Expects` — what a search knows about a node that it lets wait.
* `SearchRun.exists_enqueue_cases` — letting a node wait meets no fault, unless it was finished deeper.
* `SearchRun.Ordered` — what a search keeps true of the entries.
* `SearchRun.Ordered.enqueued`, `SearchRun.Ordered.next` — letting nodes wait and handing them out.
-/

namespace GuidedReach

variable {S P K : Type}

/-! ## Expectations -/

/-- A node has a finite heuristic `low`, and its distance is `edges` or, if it is not known, taken to
be the heuristic. -/
structure Generation.Expects (gen : Generation S P K) (id : NodeId) (low edges : Nat) : Prop where
  heuristic : gen.heuristic id = .ok (.finite low)
  distance : gen.distance id = .ok (.finite edges) ∨ gen.distance id = .ok .unknown ∧ edges = low

namespace Generation

variable {gen gen' : Generation S P K} {id : NodeId} {k : SearchNode} {low edges : Nat}

namespace Expects

theorem exists_node (h : gen.Expects id low edges) : ∃ k, gen.searchNodes.get? id = some k ∧
    k.heuristic = .finite low ∧
    (k.distance = .finite edges ∨ k.distance = .unknown ∧ edges = low) := by
  obtain ⟨k, hk, hlow⟩ := heuristic_eq_ok.1 h.heuristic
  have hsame : ∀ {d}, gen.distance id = .ok d → k.distance = d := by
    intro d hd
    obtain ⟨k', hk', rfl⟩ := distance_eq_ok.1 hd
    rw [Option.some.inj (hk.symm.trans hk')]
  exact ⟨k, hk, hlow, h.distance.imp hsame fun ⟨hd, heq⟩ => ⟨hsame hd, heq⟩⟩

theorem estimate (h : gen.Expects id low edges) : gen.estimate id = .ok (.finite edges) := by
  obtain ⟨k, hk, hlow, hd | ⟨hd, rfl⟩⟩ := h.exists_node <;>
  · rw [Generation.estimate, searchNode_eq_ok.2 hk]
    simp [hd, hlow, Distance.isFinite, bind, Except.bind, pure, Except.pure]

theorem not_hopeless (h : gen.Expects id low edges) : ¬ gen.Hopeless id := by
  obtain ⟨k, hk, hlow, hd | ⟨hd, rfl⟩⟩ := h.exists_node <;> simp [Hopeless, hk, hlow, hd]

theorem unique (h : gen.Expects id low edges) {low' edges' : Nat}
    (h' : gen.Expects id low' edges') : low = low' ∧ edges = edges' := by
  have hlow := Except.ok.inj (h.heuristic.symm.trans h'.heuristic)
  have hedges := Except.ok.inj (h.estimate.symm.trans h'.estimate)
  exact ⟨Distance.finite.inj hlow, Distance.finite.inj hedges⟩

/-- The heuristic is a lower bound of what is expected. -/
theorem low_le (h : gen.Expects id low edges) (hproper : gen.Proper) : low ≤ edges := by
  obtain ⟨k, hk, hlow, hd | ⟨-, rfl⟩⟩ := h.exists_node
  · obtain ⟨_, -, hfits⟩ := hproper.fits hk
    have hle := hfits.admissible (by rw [hlow]; rfl) (by rw [hd]; rfl)
    rw [hlow, hd] at hle
    exact of_decide_eq_true hle
  · exact Nat.le_refl _

theorem proceeds (h : gen.Expects id low edges) (hproceeds : gen.Proceeds gen') :
    gen'.Expects id low edges :=
  ⟨hproceeds.keeps.heuristic h.heuristic rfl,
    h.distance.imp hproceeds.distance fun ⟨hd, heq⟩ => ⟨hproceeds.distance hd, heq⟩⟩

end Expects

/-- A node with a known heuristic is hopeless, or something is expected of it. -/
theorem hopeless_or_expects (hk : gen.searchNodes.get? id = some k)
    (hknown : k.heuristic.isKnown = true) :
    gen.Hopeless id ∨ ∃ low edges, gen.Expects id low edges := by
  cases hh : k.heuristic with
  | unknown => simp [hh, Distance.isKnown] at hknown
  | infinite => exact .inl (.inl (heuristic_eq_ok.2 ⟨k, hk, hh⟩))
  | finite low =>
    have hheuristic : gen.heuristic id = .ok (.finite low) := heuristic_eq_ok.2 ⟨k, hk, hh⟩
    cases hd : k.distance with
    | infinite => exact .inl (.inr (distance_eq_ok.2 ⟨k, hk, hd⟩))
    | unknown => exact .inr ⟨low, low, hheuristic, .inr ⟨distance_eq_ok.2 ⟨k, hk, hd⟩, rfl⟩⟩
    | finite edges => exact .inr ⟨low, edges, hheuristic, .inl (distance_eq_ok.2 ⟨k, hk, hd⟩)⟩

/-- What reaches a target goes on reaching it. -/
theorem Proceeds.reachesTarget (h : gen.Proceeds gen') (hreaches : gen.reachesTarget id = .ok true) :
    gen'.reachesTarget id = .ok true := by
  obtain ⟨n, hn, hrest⟩ := bind_eq_ok.1 hreaches
  obtain ⟨n', hn', hgrows⟩ := h.keeps.grows.node (Graph.node_eq_ok.1 hn)
  refine bind_eq_ok.2 ⟨n', Graph.node_eq_ok.2 hn', ?_⟩
  rw [hgrows.isTarget]
  split at hrest
  · rename_i htarget
    rw [if_pos htarget]
    rfl
  · rename_i htarget
    rw [if_neg htarget]
    obtain ⟨d, hd, hfinite⟩ := bind_eq_ok.1 hrest
    exact bind_eq_ok.2 ⟨d, h.distance hd, hfinite⟩

end Generation

/-! ## Entries -/

namespace Entry

variable {gen gen' : Generation S P K} {taken more : List Entry} {e : Entry} {id : NodeId}

/-- An entry weighs its depth and what is expected of the way on, up to the limit. -/
def Weighs (e : Entry) (gen : Generation S P K) : Prop :=
  ∃ low edges, gen.Expects e.node low edges ∧ e.weight = min (edges + e.depth) Distance.limit

theorem Weighs.proceeds (h : e.Weighs gen) (hproceeds : gen.Proceeds gen') : e.Weighs gen' :=
  have ⟨low, edges, hexpects, hweight⟩ := h
  ⟨low, edges, hexpects.proceeds hproceeds, hweight⟩

theorem first?_append (h : first? taken id = some e) : first? (taken ++ more) id = some e := by
  rw [first?, List.find?_append, show taken.find? _ = some e from h, Option.some_or]

theorem first?_concat_self (h : ∀ f ∈ taken, f.node ≠ e.node) :
    first? (taken ++ [e]) e.node = some e := by
  have hnone : taken.find? (·.node = e.node) = none := by simpa using h
  rw [first?, List.find?_append, hnone]
  simp

end Entry

/-! ## Letting nodes wait -/

namespace SearchRun

variable {gen gen' : Generation S P K} {run run' : SearchRun} {id : NodeId} {depth : Nat}
variable {parent : Option NodeId} {n : Node S} {k : SearchNode} {taken popped : List Entry}

/-- What enqueueing a node may do: nothing if the node is hopeless or was found there or above, or
else it is found, and waits. -/
inductive Enqueued (gen : Generation S P K) (id : NodeId) (parent : Option NodeId) (depth : Nat)
    (run : SearchRun) : SearchRun → Prop where
  | hopeless : gen.Hopeless id → Enqueued gen id parent depth run run
  | seen {d : Nat} : d ≤ depth → run.depth? id = some d → Enqueued gen id parent depth run run
  | news {entry : Entry} {serial : Nat} : id ∉ run.finished →
    (∀ d, run.depth? id = some d → depth < d) → entry.node = id → entry.depth = depth →
      entry.Weighs gen → Enqueued gen id parent depth run { run with
        depths := run.depths.insert id depth
        parents := run.parents.insert id parent
        waitlist := entry.insert run.waitlist
        serial }

/-- A node that is not hopeless is noted. -/
theorem Enqueued.hopeless_or_notes (h : Enqueued gen id parent depth run run') :
    (gen.Hopeless id ∧ run' = run) ∨ Notes parent depth [id] run run' := by
  cases h with
  | hopeless h => exact .inl ⟨h, rfl⟩
  | seen hle hd =>
    exact .inr ⟨rfl, rfl, rfl, rfl, by simpa using ⟨_, hle, hd⟩, fun _ => .inl ⟨rfl, rfl⟩⟩
  | news hnew hnews _ _ _ =>
    refine .inr ⟨rfl, rfl, rfl, rfl, ?_, fun i => ?_⟩
    · simp [depth?, NodeMap.get?_insert]
    · by_cases hi : i = id
      · subst hi
        exact .inr ⟨List.mem_cons_self, hnew, hnews, by simp [depth?, NodeMap.get?_insert],
          by simp [parent?, NodeMap.get?_insert]⟩
      · exact .inl ⟨by simp [depth?, NodeMap.get?_insert, hi], by simp [parent?, NodeMap.get?_insert, hi]⟩

/-- **Enqueueing a node meets no fault**, unless it was finished at a larger depth. -/
theorem exists_enqueue_cases (parent : Option NodeId) (hn : gen.graph.get? id = some n)
    (hk : gen.searchNodes.get? id = some k) (hknown : k.heuristic.isKnown = true)
    (hold : ¬ gen.Hopeless id → id ∈ run.finished → ∃ d ≤ depth, run.depth? id = some d) :
    ∃ run', (enqueue gen id parent depth).run run = .ok () run' ∧
      Enqueued gen id parent depth run run' := by
  rcases Generation.hopeless_or_expects hk hknown with hhopeless | ⟨low, edges, hexpects⟩
  · have hinfinite : (k.heuristic.isInfinite || k.distance.isInfinite) = true := by
      simpa [Generation.Hopeless, hk, Distance.isInfinite_iff] using hhopeless
    exact ⟨run, run_enqueue_of_hopeless hk hknown hinfinite, .hopeless hhopeless⟩
  · rcases exists_find parent (hold hexpects.not_hopeless) with ⟨⟨d, hle, hd⟩, hfind⟩ | ⟨hnew, hnews, hfind⟩
    · exact ⟨run, run_enqueue_of_not_find hk hknown hfind, .seen hle hd⟩
    · obtain ⟨k', hk', hlow, hdistance⟩ := hexpects.exists_node
      obtain rfl := Option.some.inj (hk.symm.trans hk')
      exact ⟨_, run_enqueue_of_expected hn hk hlow hdistance hfind,
        .news hnew hnews rfl rfl ⟨low, edges, hexpects, rfl⟩⟩

/-- What a run of `enqueue` that met no fault did. -/
theorem enqueue_cases (hproper : gen.Proper)
    (hold : ¬ gen.Hopeless id → id ∈ run.finished → ∃ d ≤ depth, run.depth? id = some d) {u : Unit}
    (h : (enqueue gen id parent depth).run run = .ok u run') :
    Enqueued gen id parent depth run run' := by
  have hread := h
  simp only [enqueue, Edit.run_bind_ok, Edit.run_lift_ok, Generation.searchNode_eq_ok,
    demand_eq_ok] at hread
  obtain ⟨k, _, ⟨hk, rfl⟩, _, _, ⟨hknown, rfl⟩, -⟩ := hread
  obtain ⟨n, hn, -⟩ := hproper.fits hk
  obtain ⟨run'', hrun, hcases⟩ := exists_enqueue_cases parent hn hk hknown hold
  rw [h] at hrun
  cases hrun
  exact hcases

/-! ## Handing out nodes -/

/-- The run after the first entry of its waitlist was taken and the node of it was finished. -/
def finish (run : SearchRun) (entry : Entry) (rest : List Entry) (reaches : Bool) : SearchRun :=
  { run with
    waitlist := rest
    finished := run.finished ++ [entry.node]
    reached := if reaches then run.reached ++ [entry.node] else run.reached }

/-- What handing out the next node may do with the entries that it takes from the waitlist. -/
inductive Takes (gen : Generation S P K) (visitsReached : Bool) :
    SearchRun → List Entry → Option (NodeId × Nat) → SearchRun → Prop where
  | none {run : SearchRun} : Takes gen visitsReached run [] none run
  | stale {run run' : SearchRun} {entry : Entry} {rest popped : List Entry}
      {next : Option (NodeId × Nat)} : run.waitlist = entry :: rest → entry.node ∈ run.finished →
    Takes gen visitsReached { run with waitlist := rest } popped next run' →
      Takes gen visitsReached run (entry :: popped) next run'
  | passed {run run' : SearchRun} {entry : Entry} {rest popped : List Entry}
      {next : Option (NodeId × Nat)} : run.waitlist = entry :: rest → entry.node ∉ run.finished →
    gen.reachesTarget entry.node = .ok true →
    Takes gen visitsReached (run.finish entry rest true) popped next run' →
      Takes gen visitsReached run (entry :: popped) next run'
  | handedOut {run : SearchRun} {entry : Entry} {rest : List Entry} {reaches : Bool} :
    run.waitlist = entry :: rest → entry.node ∉ run.finished →
    gen.reachesTarget entry.node = .ok reaches → (reaches = true → visitsReached = true) →
      Takes gen visitsReached run [entry] (some (entry.node, entry.depth))
        (run.finish entry rest reaches)

theorem nextOf_takes {visitsReached : Bool} {entries : List Entry} {next : Option (NodeId × Nat)}
    (hwaitlist : run.waitlist = entries)
    (h : (nextOf gen visitsReached entries).run run = .ok next run') :
    ∃ popped, Takes gen visitsReached run popped next run' := by
  induction entries generalizing run with
  | nil =>
    obtain ⟨rfl, rfl⟩ := Edit.run_pure_ok.1 h
    exact ⟨[], .none⟩
  | cons entry rest ih =>
    simp only [nextOf, Edit.run_bind_ok, Edit.run_get_ok, Edit.run_lift_ok] at h
    obtain ⟨_, _, ⟨rfl, rfl⟩, stops, _, ⟨-, rfl⟩, h⟩ := h
    split at h
    · obtain ⟨rfl, rfl⟩ := Edit.run_pure_ok.1 h
      exact ⟨[], .none⟩
    · simp only [Edit.run_bind_ok, Edit.run_modify_ok, Edit.run_get_ok] at h
      obtain ⟨_, _, rfl, _, _, ⟨rfl, rfl⟩, h⟩ := h
      split at h
      · rename_i hfinished
        obtain ⟨popped, htakes⟩ := ih rfl h
        exact ⟨entry :: popped, .stale hwaitlist (by simpa using hfinished) htakes⟩
      · rename_i hnew
        have hnew : entry.node ∉ run.finished := by simpa using hnew
        simp only [Edit.run_bind_ok, Edit.run_modify_ok, Edit.run_lift_ok] at h
        obtain ⟨_, _, rfl, reaches, _, ⟨hreaches, rfl⟩, h⟩ := h
        split at h
        · rename_i htrue
          simp only [Edit.run_bind_ok, Edit.run_modify_ok] at h
          obtain ⟨_, _, rfl, h⟩ := h
          subst htrue
          split at h
          · rename_i hvisits
            obtain ⟨rfl, rfl⟩ := Edit.run_pure_ok.1 h
            exact ⟨[entry], .handedOut hwaitlist hnew hreaches fun _ => hvisits⟩
          · obtain ⟨popped, htakes⟩ := ih rfl h
            exact ⟨entry :: popped, .passed hwaitlist hnew hreaches htakes⟩
        · rename_i hfalse
          obtain ⟨rfl, rfl⟩ := Edit.run_pure_ok.1 h
          have hfalse : reaches = false := by simpa using hfalse
          subst hfalse
          exact ⟨[entry], .handedOut hwaitlist hnew hreaches (by simp)⟩

theorem next_takes {visitsReached : Bool} {next : Option (NodeId × Nat)}
    (h : (SearchRun.next gen visitsReached).run run = .ok next run') :
    ∃ popped, Takes gen visitsReached run popped next run' := by
  simp only [SearchRun.next, Edit.run_bind_ok, Edit.run_get_ok] at h
  obtain ⟨_, _, ⟨rfl, rfl⟩, h⟩ := h
  exact nextOf_takes rfl h

namespace Takes

variable {visitsReached : Bool} {next : Option (NodeId × Nat)}

/-- Entries are taken from the front of the waitlist. -/
theorem waitlist_eq (h : Takes gen visitsReached run popped next run') :
    run.waitlist = popped ++ run'.waitlist := by
  induction h with
  | none => rfl
  | stale hwaitlist _ _ ih => rw [hwaitlist, List.cons_append]; exact congrArg _ ih
  | passed hwaitlist _ _ _ ih => rw [hwaitlist, List.cons_append]; exact congrArg _ ih
  | handedOut hwaitlist _ _ _ => exact hwaitlist

/-- Nothing else changes but that nodes are finished. -/
theorem same (h : Takes gen visitsReached run popped next run') :
    run'.start = run.start ∧ run'.depths = run.depths ∧ run'.parents = run.parents ∧
      run.finished <+: run'.finished := by
  induction h with
  | none => exact ⟨rfl, rfl, rfl, List.prefix_refl _⟩
  | stale _ _ _ ih => exact ih
  | passed _ _ _ _ ih =>
    exact ⟨ih.1, ih.2.1, ih.2.2.1, (List.prefix_append _ _).trans ih.2.2.2⟩
  | handedOut _ _ _ _ => exact ⟨rfl, rfl, rfl, List.prefix_append _ _⟩

end Takes

/-! ## The order of entries -/

/-- What a search keeps true of the entries that it has taken and of those that wait. -/
structure Ordered (gen : Generation S P K) (taken : List Entry) (run : SearchRun) : Prop where
  sorted : (taken ++ run.waitlist).Pairwise fun a b => a.weight ≤ b.weight
  weighs : ∀ e ∈ taken ++ run.waitlist, e.Weighs gen
  found : ∀ e ∈ taken ++ run.waitlist, ∃ d ≤ e.depth, run.depth? e.node = some d
  waits : ∀ {id d}, run.depth? id = some d → id ∉ run.finished →
    ∃ e ∈ run.waitlist, e.node = id ∧ e.depth = d
  first : ∀ id ∈ run.finished, ∃ e, Entry.first? taken id = some e ∧ run.depth? id = some e.depth
  finished : ∀ e ∈ taken, e.node ∈ run.finished
  nodup : run.finished.Nodup
  /-- Nodes are finished in the order of the entries with which they are. -/
  order : run.finished.Pairwise fun i j => ∀ e f, Entry.first? taken i = some e →
    Entry.first? taken j = some f → e.weight ≤ f.weight
  reached : run.reached.Sublist run.finished
  reaches : ∀ id ∈ run.reached, gen.reachesTarget id = .ok true

namespace Ordered

theorem start (ids : List NodeId) (stop : StopCriterion) :
    Ordered gen [] { start := ids, stop } where
  sorted := .nil
  weighs := by simp
  found := by simp
  waits hd := by simp [depth?, NodeMap.get?_empty] at hd
  first := by simp
  finished := by simp
  nodup := .nil
  order := .nil
  reached := .slnil
  reaches := by simp

/-- The search goes on in a later state of the generation. -/
theorem proceeds (h : Ordered gen taken run) (hproceeds : gen.Proceeds gen') :
    Ordered gen' taken run where
  sorted := h.sorted
  weighs e he := (h.weighs e he).proceeds hproceeds
  found := h.found
  waits := h.waits
  first := h.first
  finished := h.finished
  nodup := h.nodup
  order := h.order
  reached := h.reached
  reaches id hid := hproceeds.reachesTarget (h.reaches id hid)

/-- Search parents do not matter for the order. -/
theorem forgetParent (h : Ordered gen taken run) (id : NodeId) :
    Ordered gen taken (run.forgetParent id) :=
  ⟨h.sorted, h.weighs, h.found, h.waits, h.first, h.finished, h.nodup, h.order, h.reached, h.reaches⟩

/-- What was found at a depth and weighs no less than what was taken may wait. -/
theorem enqueued (h : Ordered gen taken run) (hrun : Enqueued gen id parent depth run run')
    (hsmall : ∀ e ∈ taken, e.weight < Distance.limit)
    (hpast : ∀ low edges, gen.Expects id low edges → ∀ e ∈ taken, e.weight ≤ edges + depth) :
    Ordered gen taken run' := by
  cases hrun with
  | hopeless _ => exact h
  | seen _ _ => exact h
  | @news entry serial hnew hnews hid hdepth hweighs =>
    subst hid hdepth
    obtain ⟨low, edges, hexpects, hweight⟩ := hweighs
    obtain ⟨htaken, hwaiting, hcross⟩ := List.pairwise_append.1 h.sorted
    have hmem : ∀ {e}, e ∈ taken ++ entry.insert run.waitlist →
        e = entry ∨ e ∈ taken ++ run.waitlist := by
      intro e he
      rcases List.mem_append.1 he with he | he
      · exact .inr (List.mem_append_left _ he)
      · exact (mem_insert.1 he).imp_right fun he => List.mem_append_right _ he
    constructor
    · refine List.pairwise_append.2 ⟨htaken, Entry.pairwise_insert hwaiting, fun e he f hf => ?_⟩
      rcases mem_insert.1 hf with rfl | hf
      · have hle := hpast low edges hexpects e he
        have hlt := hsmall e he
        omega
      · exact hcross e he f hf
    · intro e he
      rcases hmem he with rfl | he
      · exact ⟨low, edges, hexpects, hweight⟩
      · exact h.weighs e he
    · intro e he
      rcases hmem he with rfl | he
      · exact ⟨e.depth, Nat.le_refl _, by simp [depth?, NodeMap.get?_insert]⟩
      · exact exists_depth_insert hnews (h.found e he)
    · intro i d hd hi
      simp only [depth?, NodeMap.get?_insert] at hd
      split at hd
      · rename_i heq
        exact ⟨entry, mem_insert.2 (.inl rfl), heq.symm, Option.some.inj hd⟩
      · obtain ⟨e, he, hrest⟩ := h.waits hd hi
        exact ⟨e, mem_insert.2 (.inr he), hrest⟩
    · intro i hi
      obtain ⟨e, he, hd⟩ := h.first i hi
      exact ⟨e, he, (depth_insert_of_finished hnew hi).trans hd⟩
    · exact h.finished
    · exact h.nodup
    · exact h.order
    · exact h.reached
    · exact h.reaches

/-- An entry of a node that is finished already may be passed over. -/
theorem skip {entry : Entry} {rest : List Entry} (h : Ordered gen taken run)
    (hwaitlist : run.waitlist = entry :: rest) (hfinished : entry.node ∈ run.finished) :
    Ordered gen (taken ++ [entry]) { run with waitlist := rest } where
  sorted := by simpa [hwaitlist] using h.sorted
  weighs := by simpa [hwaitlist] using h.weighs
  found := by simpa [hwaitlist, depth?] using h.found
  waits {id d} hd hid := by
    obtain ⟨e, he, rfl, hdepth⟩ := h.waits hd hid
    rcases List.mem_cons.1 (hwaitlist ▸ he) with rfl | he
    · exact absurd hfinished hid
    · exact ⟨e, he, rfl, hdepth⟩
  first id hid := by
    obtain ⟨e, he, hd⟩ := h.first id hid
    exact ⟨e, Entry.first?_append he, hd⟩
  finished := by simpa [or_imp, forall_and] using ⟨h.finished, hfinished⟩
  nodup := h.nodup
  order := by
    refine h.order.imp_of_mem fun {i j} hi hj hle => ?_
    obtain ⟨e, he, -⟩ := h.first i hi
    obtain ⟨f, hf, -⟩ := h.first j hj
    intro e' f' he' hf'
    rw [Entry.first?_append he] at he'
    rw [Entry.first?_append hf] at hf'
    exact Option.some.inj he' ▸ Option.some.inj hf' ▸ hle e f he hf
  reached := h.reached
  reaches := h.reaches

/-- The first entry of a node that waits carries the depth at which it was found. -/
theorem depth_head {entry : Entry} {rest : List Entry} (h : Ordered gen taken run)
    (hwaitlist : run.waitlist = entry :: rest) (hnew : entry.node ∉ run.finished)
    (hsmall : entry.weight < Distance.limit) : run.depth? entry.node = some entry.depth := by
  have hmem : entry ∈ run.waitlist := hwaitlist ▸ List.mem_cons_self
  obtain ⟨d, hle, hd⟩ := h.found entry (List.mem_append_right _ hmem)
  obtain ⟨e, he, hnode, rfl⟩ := h.waits hd hnew
  have hweight : entry.weight ≤ e.weight := by
    have hsorted := (List.pairwise_append.1 h.sorted).2.1
    rw [hwaitlist] at hsorted he
    rcases List.mem_cons.1 he with rfl | he
    · exact Nat.le_refl _
    · exact (List.pairwise_cons.1 hsorted).1 e he
  obtain ⟨low, edges, hexpects, hentry⟩ := h.weighs entry (List.mem_append_right _ hmem)
  obtain ⟨low', edges', hexpects', hfresh⟩ := h.weighs e (List.mem_append_right _ he)
  obtain ⟨-, rfl⟩ := (hnode ▸ hexpects').unique hexpects
  have : e.depth = entry.depth := by omega
  exact this ▸ hd

/-- The first entry of the waitlist is taken, and its node is finished. -/
theorem finish {entry : Entry} {rest : List Entry} {reaches : Bool} (h : Ordered gen taken run)
    (hwaitlist : run.waitlist = entry :: rest) (hnew : entry.node ∉ run.finished)
    (hsmall : entry.weight < Distance.limit) (hreaches : gen.reachesTarget entry.node = .ok reaches) :
    Ordered gen (taken ++ [entry]) (run.finish entry rest reaches) := by
  have hfirst : Entry.first? (taken ++ [entry]) entry.node = some entry :=
    Entry.first?_concat_self fun e he heq => hnew (heq ▸ h.finished e he)
  have hkeep : ∀ {i}, i ∈ run.finished → ∃ e ∈ taken, Entry.first? (taken ++ [entry]) i = some e ∧
      Entry.first? taken i = some e ∧ run.depth? i = some e.depth := by
    intro i hi
    obtain ⟨e, he, hd⟩ := h.first i hi
    exact ⟨e, List.mem_of_find?_eq_some he, Entry.first?_append he, he, hd⟩
  have hdepth := h.depth_head hwaitlist hnew hsmall
  constructor
  · simpa [SearchRun.finish, hwaitlist] using h.sorted
  · simpa [SearchRun.finish, hwaitlist] using h.weighs
  · simpa [SearchRun.finish, hwaitlist, depth?] using h.found
  · intro i d hd hi
    simp only [SearchRun.finish, List.mem_append, List.mem_singleton, not_or] at hi
    obtain ⟨e, he, rfl, hrest⟩ := h.waits hd hi.1
    rcases List.mem_cons.1 (hwaitlist ▸ he) with rfl | he
    · exact absurd rfl hi.2
    · exact ⟨e, he, rfl, hrest⟩
  · intro i hi
    rcases List.mem_append.1 hi with hi | hi
    · obtain ⟨e, -, he, -, hd⟩ := hkeep hi
      exact ⟨e, he, hd⟩
    · obtain rfl := List.mem_singleton.1 hi
      exact ⟨entry, hfirst, hdepth⟩
  · intro e he
    rcases List.mem_append.1 he with he | he
    · exact List.mem_append_left _ (h.finished e he)
    · exact List.mem_append_right _ (by simpa using congrArg Entry.node (List.mem_singleton.1 he))
  · exact List.nodup_append.2 ⟨h.nodup, List.nodup_singleton _, by
      rintro i hi j hj rfl
      exact hnew (List.mem_singleton.1 hj ▸ hi)⟩
  · refine List.pairwise_append.2 ⟨?_, List.pairwise_singleton _ _, ?_⟩
    · refine h.order.imp_of_mem fun {i j} hi hj hle => ?_
      obtain ⟨e, -, he, hold, -⟩ := hkeep hi
      obtain ⟨f, -, hf, hold', -⟩ := hkeep hj
      intro e' f' he' hf'
      exact Option.some.inj (he.symm.trans he') ▸ Option.some.inj (hf.symm.trans hf') ▸
        hle e f hold hold'
    · intro i hi j hj
      obtain rfl := List.mem_singleton.1 hj
      obtain ⟨e, hmem, he, -, -⟩ := hkeep hi
      intro e' f' he' hf'
      obtain rfl := Option.some.inj (he.symm.trans he')
      obtain rfl := Option.some.inj (hfirst.symm.trans hf')
      exact (List.pairwise_append.1 h.sorted).2.2 e hmem entry (hwaitlist ▸ List.mem_cons_self)
  · simp only [SearchRun.finish]
    split
    · exact h.reached.append (.refl _)
    · exact h.reached.trans (List.sublist_append_left _ _)
  · intro i hi
    simp only [SearchRun.finish] at hi
    split at hi
    · rename_i htrue
      rcases List.mem_append.1 hi with hi | hi
      · exact h.reaches i hi
      · exact List.mem_singleton.1 hi ▸ htrue ▸ hreaches
    · exact h.reaches i hi

/-- **Entries are taken in the order of their weights.** -/
theorem takes {visitsReached : Bool} {next : Option (NodeId × Nat)} (h : Ordered gen taken run)
    (htakes : Takes gen visitsReached run popped next run')
    (hsmall : ∀ e ∈ popped, e.weight < Distance.limit) : Ordered gen (taken ++ popped) run' := by
  induction htakes generalizing taken with
  | none => simpa using h
  | stale hwaitlist hfinished _ ih =>
    obtain ⟨-, hrest⟩ := List.forall_mem_cons.1 hsmall
    simpa using ih (h.skip hwaitlist hfinished) hrest
  | passed hwaitlist hnew hreaches _ ih =>
    obtain ⟨hfirst, hrest⟩ := List.forall_mem_cons.1 hsmall
    simpa using ih (h.finish hwaitlist hnew hfirst hreaches) hrest
  | handedOut hwaitlist hnew hreaches _ =>
    exact h.finish hwaitlist hnew (hsmall _ List.mem_cons_self) hreaches

/-- A node is handed out with the depth at which it was found, and its entry was taken last. -/
theorem handedOut {visitsReached : Bool} (h : Ordered gen taken run)
    (htakes : Takes gen visitsReached run popped (some (id, depth)) run')
    (hsmall : ∀ e ∈ popped, e.weight < Distance.limit) :
    id ∈ run'.finished ∧ run'.depth? id = some depth ∧
      (gen.reachesTarget id = .ok true → visitsReached = true) ∧
      ∃ entry : Entry, entry.Weighs gen ∧ entry.node = id ∧ entry.depth = depth ∧
        ∀ e ∈ taken ++ popped, e.weight ≤ entry.weight := by
  generalize hnext : some (id, depth) = next at htakes
  induction htakes generalizing taken with
  | none => cases hnext
  | stale hwaitlist hfinished _ ih =>
    obtain ⟨-, hrest⟩ := List.forall_mem_cons.1 hsmall
    simpa using ih (h.skip hwaitlist hfinished) hrest hnext
  | passed hwaitlist hnew hreaches _ ih =>
    obtain ⟨hfirst, hrest⟩ := List.forall_mem_cons.1 hsmall
    simpa using ih (h.finish hwaitlist hnew hfirst hreaches) hrest hnext
  | @handedOut run entry rest reaches hwaitlist hnew hreaches hvisits =>
    cases hnext
    have hmem : entry ∈ run.waitlist := hwaitlist ▸ List.mem_cons_self
    have hsmall := hsmall entry List.mem_cons_self
    refine ⟨by simp [SearchRun.finish], h.depth_head hwaitlist hnew hsmall, fun htrue => ?_, entry,
      h.weighs entry (List.mem_append_right _ hmem), rfl, rfl, fun e he => ?_⟩
    · exact hvisits (Except.ok.inj (hreaches.symm.trans htrue))
    · rcases List.mem_append.1 he with he | he
      · exact (List.pairwise_append.1 h.sorted).2.2 e he entry hmem
      · exact List.mem_singleton.1 he ▸ Nat.le_refl _

/-- The weight with which a node was reached is its distance from the start nodes through it to a
target. -/
theorem distanceUntilTarget (h : Ordered gen taken run) (hproper : gen.Proper)
    (hsmall : ∀ e ∈ taken, e.weight < Distance.limit) (hid : id ∈ run.reached) :
    ∃ e, Entry.first? taken id = some e ∧ run.distanceUntilTarget gen id = .ok e.weight := by
  obtain ⟨e, he, hd⟩ := h.first id (h.reached.subset hid)
  have hmem : e ∈ taken := List.mem_of_find?_eq_some he
  obtain rfl : e.node = id := by simpa using List.find?_some he
  obtain ⟨low, edges, hexpects, hweight⟩ := h.weighs e (List.mem_append_left _ hmem)
  have hlt := hsmall e hmem
  obtain ⟨k, hk, hlow, hdistance⟩ := hexpects.exists_node
  obtain ⟨n, hn, hfits⟩ := hproper.fits hk
  refine ⟨e, he, ?_⟩
  have hreaches := h.reaches _ hid
  rw [Generation.reachesTarget_eq hn hk, Except.ok.injEq, Bool.or_eq_true] at hreaches
  simp only [SearchRun.distanceUntilTarget, hd, ok_bind, Graph.node_eq_ok.2 hn]
  split
  · rename_i htarget
    -- a target is expected to be no farther than it is
    have hzero := hfits.heuristic htarget (by rw [hlow]; rfl)
    have hedges : edges = 0 := by
      rcases hdistance with hdistance | ⟨-, rfl⟩
      · have := hfits.distance htarget (by rw [hdistance]; rfl)
        exact Distance.finite.inj (hdistance.symm.trans this)
      · exact Distance.finite.inj (hlow.symm.trans hzero)
    refine congrArg Except.ok ?_
    omega
  · rename_i htarget
    obtain hdistance | ⟨hdistance, -⟩ := hdistance
    · have hd : gen.distance e.node = .ok (.finite edges) :=
        Generation.distance_eq_ok.2 ⟨k, hk, hdistance⟩
      simp only [hd, ok_bind, Distance.value]
      refine congrArg Except.ok ?_
      omega
    · simp [htarget, hdistance, Distance.isFinite] at hreaches

/-- **Nodes are reached in the order of the distances** from the start nodes through them. -/
theorem reached_order (h : Ordered gen taken run) (hproper : gen.Proper)
    (hsmall : ∀ e ∈ taken, e.weight < Distance.limit) :
    run.reached.Pairwise fun i j => ∃ m n, run.distanceUntilTarget gen i = .ok m ∧
      run.distanceUntilTarget gen j = .ok n ∧ m ≤ n := by
  refine (h.order.sublist h.reached).imp_of_mem fun {i j} hi hj hle => ?_
  obtain ⟨e, he, hm⟩ := h.distanceUntilTarget hproper hsmall hi
  obtain ⟨f, hf, hn⟩ := h.distanceUntilTarget hproper hsmall hj
  exact ⟨e.weight, f.weight, hm, hn, hle e f he hf⟩

end Ordered

/-- Start nodes that are not hopeless are noted at depth 0. -/
theorem forM_enqueue_start {ids : List NodeId} {u : Unit} (hproper : gen.Proper)
    (h : (ids.forM fun id => enqueue gen id none 0).run run = .ok u run')
    (hordered : Ordered gen [] run) (hfinished : run.finished = [])
    (hids : ∀ i ∈ ids, ¬ gen.Hopeless i) : Ordered gen [] run' ∧ Notes none 0 ids run run' := by
  induction ids generalizing run with
  | nil =>
    obtain ⟨-, rfl⟩ : () = u ∧ run = run' := Edit.run_pure_ok.1 h
    exact ⟨hordered, .refl none 0 run⟩
  | cons id ids ih =>
    obtain ⟨hid, hids⟩ := List.forall_mem_cons.1 hids
    obtain ⟨mid, hfirst, hrest⟩ := Edit.run_forM_cons_ok.1 h
    have hcases := enqueue_cases hproper (by simp [hfinished]) hfirst
    have hnotes := hcases.hopeless_or_notes.resolve_left fun hhopeless => hid hhopeless.1
    obtain ⟨hordered', hnotes'⟩ := ih hrest (hordered.enqueued hcases (by simp) (by simp))
      (hnotes.finished.trans hfinished) hids
    exact ⟨hordered', hnotes.cons hnotes'⟩

end SearchRun

end GuidedReach
