import GuidedReach.SearchRun.Journal
import GuidedReach.Proofs.SearchRun.Ordered
import GuidedReach.Proofs.SearchRun.Survey

/-!
# What becomes of a call on a search

A find is accepted, and an entry is made for it, exactly when something is expected of the node, the
node is not finished and it was not found at that depth or above. Otherwise no entry is made, whether
the call returns or fails. Handing out the next node never fails.

* `Generation.Admits` — what is needed to let a node wait.
* `SearchRun.Outcome`, `SearchRun.enqueue_outcome` — letting a node wait.
* `SearchRun.exists_nextOf_of_reachesTarget` — handing out the next node.
* `SearchRun.nextOf_eq_none` — why there is no next node.
-/

namespace GuidedReach

variable {S P K : Type} {gen : Generation S P K}

/-- Something is expected of a node, and it can be told whether it reaches a target. -/
def Generation.Admits (gen : Generation S P K) (id : NodeId) : Prop :=
  (∃ low edges, gen.Expects id low edges) ∧ ∃ reaches, gen.reachesTarget id = .ok reaches

/-- An entry holds what the generation knows about its node. -/
structure Entry.Describes (e : Entry) (gen : Generation S P K) : Prop where
  weight : ∃ edges, gen.estimate e.node = .ok (.finite edges) ∧ e.weight = edges + e.depth
  reachesTarget : gen.reachesTarget e.node = .ok e.reachesTarget
  hasSmallHeuristic : ∃ low, gen.heuristic e.node = .ok (.finite low) ∧
    e.hasSmallHeuristic = decide (low ≤ 1)
  distance : gen.distance e.node ≠ .ok .infinite

theorem Entry.Describes.not_hopeless {e : Entry} (h : e.Describes gen) : ¬ gen.Hopeless e.node := by
  obtain ⟨low, hlow, -⟩ := h.hasSmallHeuristic
  rintro (hinfinite | hinfinite)
  · cases hlow.symm.trans hinfinite
  · exact h.distance hinfinite

namespace Edit

variable {σ α β : Type} {a : α} {s : σ} {fault : Fault}

theorem run_get_bind {f : σ → Edit σ β} : ((get : Edit σ σ) >>= f).run s = (f s).run s := rfl

theorem run_modify_bind {g : σ → σ} {f : PUnit → Edit σ β} :
    ((modify g : Edit σ PUnit) >>= f).run s = (f ⟨⟩).run (g s) := rfl

theorem run_lift_of_ok {y : Except Fault α} (h : y = .ok a) :
    (liftM y : Edit σ α).run s = .ok a s := by
  rw [h]
  rfl

theorem run_lift_of_error {y : Except Fault α} (h : y = .error fault) :
    (liftM y : Edit σ α).run s = .error fault s := by
  rw [h]
  rfl

end Edit

namespace SearchRun

variable {run run' : SearchRun} {id : NodeId} {parent : Option NodeId} {depth low edges : Nat}
variable {find : Find}

/-! ## Letting a node wait -/

/-- What a search may be after a call that asks to let a node wait, and whether the find was accepted. -/
inductive Outcome (gen : Generation S P K) (find : Find) (run : SearchRun) :
    SearchRun → (isAccepted : Bool) → Prop where
  /-- The node is not admitted, or finished, or was found there or above. -/
  | ignored : ¬ gen.Admits find.node ∨ find.node ∈ run.finished ∨
      (∃ d ≤ find.depth, run.depth? find.node = some d) → Outcome gen find run run false
  /-- The call failed for a node that is not in the graph. -/
  | lost : ¬ gen.Admits find.node → Outcome gen find run
      { run with
        depths := run.depths.insert find.node find.depth
        parents := run.parents.insert find.node find.parent } false
  | accepted {entry : Entry} : gen.Admits find.node → find.node ∉ run.finished →
    (∀ d, run.depth? find.node = some d → find.depth < d) → entry.Describes gen →
    entry.node = find.node → entry.depth = find.depth → entry.serial = run.serial →
      Outcome gen find run
        { run with
          depths := run.depths.insert find.node find.depth
          parents := run.parents.insert find.node find.parent
          waitlist := entry.insert run.waitlist
          serial := run.serial + 1 } true

/-- A finished node is not found again. -/
theorem run_find_of_finished (parent : Option NodeId) (depth : Nat) (h : id ∈ run.finished) :
    (SearchRun.find id parent depth).run run = .ok false run ∨
      ∃ fault, (SearchRun.find id parent depth).run run = .error fault run := by
  rw [SearchRun.find, Edit.run_get_bind, if_pos (by simpa using h)]
  cases run.depth? id with
  | none => exact .inr ⟨_, rfl⟩
  | some old =>
    by_cases hle : old ≤ depth
    · have hdemand : demand (decide (old ≤ depth)) (.finishedTooDeep id old depth) = .ok () :=
        demand_eq_ok.2 (by simpa using hle)
      exact .inl (Edit.run_bind_of_ok (Edit.run_lift_of_ok hdemand))
    · have hdemand : demand (decide (old ≤ depth)) (.finishedTooDeep id old depth) =
          .error (.finishedTooDeep id old depth) := by
        simp [demand, hle]
      exact .inr ⟨_, Edit.run_bind_of_error (Edit.run_lift_of_error hdemand)⟩

/-- The entry for a node of which something is expected. -/
def entryFor (find : Find) (low edges : Nat) (reachesTarget : Bool) (serial : Nat) : Entry where
  node := find.node
  depth := find.depth
  weight := min (edges + find.depth) Distance.limit
  reachesTarget := reachesTarget
  hasSmallHeuristic := decide (low ≤ 1)
  serial := serial

/-- Letting a node wait of which something is expected. -/
theorem run_enqueue_of_expects (hexpects : gen.Expects find.node low edges) :
    (enqueue gen find.node find.parent find.depth).run run = (do
      if ← SearchRun.find find.node find.parent find.depth then
        let reachesTarget ← gen.reachesTarget find.node
        modify fun run => { run with
          waitlist := (entryFor find low edges reachesTarget run.serial).insert run.waitlist
          serial := run.serial + 1 } : Edit SearchRun Unit).run run := by
  obtain ⟨k, hk, hlow, hd⟩ := hexpects.exists_node
  have hopen : (k.heuristic.isInfinite || k.distance.isInfinite) = false := by
    rcases hd with hd | ⟨hd, -⟩ <;> simp [hd, hlow, Distance.isInfinite]
  have hestimate : (if k.distance.isFinite then k.distance else k.heuristic) = .finite edges := by
    rcases hd with hd | ⟨hd, rfl⟩ <;> simp [hd, hlow, Distance.isFinite]
  have hknown : demand k.heuristic.isKnown (.noHeuristicToEnqueue find.node) = .ok () :=
    demand_eq_ok.2 (by rw [hlow]; rfl)
  have hsmall : (Distance.finite low).le (.finite 1) = .ok (decide (low ≤ 1)) :=
    Distance.le_eq_ok rfl rfl
  rw [enqueue, Edit.run_bind_of_ok (Edit.run_lift_of_ok (Generation.searchNode_eq_ok.2 hk)),
    Edit.run_bind_of_ok (Edit.run_lift_of_ok hknown), hopen, hestimate, hlow, hsmall]
  rfl

/-- An entry for a node says what is known about it, as long as its weight is below the limit. -/
theorem describes_entryFor {reaches : Bool} (hexpects : gen.Expects find.node low edges)
    (hreaches : gen.reachesTarget find.node = .ok reaches)
    (hlimit : edges + find.depth ≤ Distance.limit) (serial : Nat) :
    (entryFor find low edges reaches serial).Describes gen where
  weight := ⟨edges, hexpects.estimate, Nat.min_eq_left hlimit⟩
  reachesTarget := hreaches
  hasSmallHeuristic := ⟨low, hexpects.heuristic, rfl⟩
  distance hinfinite := hexpects.not_hopeless (.inr hinfinite)

/-- **What becomes of a call that asks to let a node wait**, on any search. -/
theorem enqueue_outcome (gen : Generation S P K) (find : Find) (run : SearchRun)
    (hlimit : ∀ edges, gen.estimate find.node = .ok (.finite edges) →
      edges + find.depth ≤ Distance.limit) :
    ∃ run' isAccepted, Outcome gen find run run' isAccepted ∧
      ((enqueue gen find.node find.parent find.depth).run run = .ok () run' ∨
        isAccepted = false ∧ ∃ fault,
          (enqueue gen find.node find.parent find.depth).run run = .error fault run') := by
  by_cases hexpects : ∃ low edges, gen.Expects find.node low edges
  · obtain ⟨low, edges, hexpects⟩ := hexpects
    rw [run_enqueue_of_expects hexpects]
    by_cases hfinished : find.node ∈ run.finished
    · obtain hfind | ⟨fault, hfind⟩ := run_find_of_finished find.parent find.depth hfinished
      · exact ⟨run, false, .ignored (.inr (.inl hfinished)), .inl (Edit.run_bind_of_ok hfind)⟩
      · exact ⟨run, false, .ignored (.inr (.inl hfinished)),
          .inr ⟨rfl, fault, Edit.run_bind_of_error hfind⟩⟩
    · obtain ⟨hseen, hfind⟩ | ⟨hnew, hnews, hfind⟩ :=
        exists_find find.parent (fun hmem => absurd hmem hfinished)
      · exact ⟨run, false, .ignored (.inr (.inr hseen)), .inl (Edit.run_bind_of_ok hfind)⟩
      · rw [Edit.run_bind_of_ok hfind, if_pos rfl]
        cases hreaches : gen.reachesTarget find.node with
        | error fault =>
          refine ⟨_, false, .lost fun hadmits => ?_, .inr ⟨rfl, fault,
            Edit.run_bind_of_error (Edit.run_lift_of_error rfl)⟩⟩
          obtain ⟨reaches, hok⟩ := hadmits.2
          cases hreaches.symm.trans hok
        | ok reaches =>
          exact ⟨_, true, .accepted ⟨⟨low, edges, hexpects⟩, reaches, hreaches⟩ hnew hnews
            (describes_entryFor hexpects hreaches (hlimit edges hexpects.estimate) run.serial)
            rfl rfl rfl, .inl (Edit.run_bind_of_ok (Edit.run_lift_of_ok rfl))⟩
  · have hnot : ¬ gen.Admits find.node := fun hadmits => hexpects hadmits.1
    have hignored : Outcome gen find run run false := .ignored (.inl hnot)
    refine ⟨run, false, hignored, ?_⟩
    cases hk : gen.searchNode find.node with
    | error fault =>
      exact .inr ⟨rfl, fault, Edit.run_bind_of_error (Edit.run_lift_of_error hk)⟩
    | ok k =>
      rw [enqueue, Edit.run_bind_of_ok (Edit.run_lift_of_ok hk)]
      by_cases hknown : k.heuristic.isKnown = true
      · have hk' := Generation.searchNode_eq_ok.1 hk
        obtain hhopeless | hexpected := Generation.hopeless_or_expects hk' hknown
        · have hinfinite : (k.heuristic.isInfinite || k.distance.isInfinite) = true := by
            simpa [Generation.Hopeless, hk', Distance.isInfinite_iff] using hhopeless
          have hdemand : demand k.heuristic.isKnown (.noHeuristicToEnqueue find.node) = .ok () :=
            demand_eq_ok.2 hknown
          rw [Edit.run_bind_of_ok (Edit.run_lift_of_ok hdemand), if_pos hinfinite]
          exact .inl rfl
        · exact absurd hexpected hexpects
      · have hdemand : demand k.heuristic.isKnown (.noHeuristicToEnqueue find.node) =
            .error (.noHeuristicToEnqueue find.node) := by
          simp [demand, hknown]
        exact .inr ⟨rfl, _, Edit.run_bind_of_error (Edit.run_lift_of_error hdemand)⟩

/-! ## Handing out the next node -/

/-- Whether to stop before an entry can be told. -/
theorem exists_stopsBefore {entry : Entry} {reaches : Bool}
    (hreached : ∀ i ∈ run.reached, ∃ n, gen.graph.get? i = some n)
    (hreaches : gen.reachesTarget entry.node = .ok reaches) :
    ∃ stops, run.stopsBefore gen entry = .ok stops := by
  obtain ⟨stops, hstops, -⟩ := exists_canStop run.stop hreached
  refine ⟨stops && !reaches, ?_⟩
  cases stops <;> simp [stopsBefore, hstops, hreaches, bind, Except.bind, pure, Except.pure]

theorem exists_nextOf_of_reachesTarget (visitsReached : Bool) {entries : List Entry}
    (hreached : ∀ i ∈ run.reached, ∃ n, gen.graph.get? i = some n)
    (hentries : ∀ e ∈ entries, ∃ reaches, gen.reachesTarget e.node = .ok reaches) :
    ∃ next run', (nextOf gen visitsReached entries).run run = .ok next run' := by
  induction entries generalizing run with
  | nil => exact ⟨none, run, rfl⟩
  | cons entry rest ih =>
    obtain ⟨⟨reaches, hreaches⟩, hrest⟩ := List.forall_mem_cons.1 hentries
    obtain ⟨stops, hstops⟩ := exists_stopsBefore hreached hreaches
    rw [nextOf, Edit.run_get_bind,
      Edit.run_bind_of_ok (Edit.run_lift_of_ok hstops)]
    cases stops with
    | true => exact ⟨none, run, rfl⟩
    | false =>
      simp only [Bool.false_eq_true, if_false]
      rw [Edit.run_modify_bind,
        Edit.run_get_bind]
      split
      · exact ih hreached hrest
      · rw [Edit.run_modify_bind,
          Edit.run_bind_of_ok (Edit.run_lift_of_ok hreaches)]
        obtain ⟨n, hn, -⟩ := bind_eq_ok.1 hreaches
        have hn := Graph.node_eq_ok.1 hn
        split
        · rw [Edit.run_modify_bind]
          split
          · exact ⟨_, _, rfl⟩
          · refine ih (fun i hi => ?_) hrest
            rcases List.mem_append.1 hi with hi | hi
            · exact hreached i hi
            · exact ⟨n, List.mem_singleton.1 hi ▸ hn⟩
        · exact ⟨_, _, rfl⟩

/-- **There is no next node** only if nothing waits any more, or the search stops before the first entry
that does. -/
theorem nextOf_eq_none {visitsReached : Bool} {entries : List Entry} (hwaitlist : run.waitlist = entries)
    (h : (nextOf gen visitsReached entries).run run = .ok none run') :
    run'.waitlist = [] ∨ ∃ entry rest, run'.waitlist = entry :: rest ∧
      run'.stopsBefore gen entry = .ok true := by
  induction entries generalizing run with
  | nil =>
    obtain ⟨-, rfl⟩ := Edit.run_pure_ok.1 h
    exact .inl hwaitlist
  | cons entry rest ih =>
    simp only [nextOf, Edit.run_bind_ok, Edit.run_get_ok, Edit.run_lift_ok] at h
    obtain ⟨_, _, ⟨rfl, rfl⟩, stops, _, ⟨hstops, rfl⟩, h⟩ := h
    split at h
    · rename_i htrue
      obtain ⟨-, rfl⟩ := Edit.run_pure_ok.1 h
      exact .inr ⟨entry, rest, hwaitlist, htrue ▸ hstops⟩
    · simp only [Edit.run_bind_ok, Edit.run_modify_ok, Edit.run_get_ok] at h
      obtain ⟨_, _, rfl, _, _, ⟨rfl, rfl⟩, h⟩ := h
      split at h
      · exact ih rfl h
      · simp only [Edit.run_bind_ok, Edit.run_modify_ok, Edit.run_lift_ok] at h
        obtain ⟨_, _, rfl, reaches, _, ⟨-, rfl⟩, h⟩ := h
        split at h
        · simp only [Edit.run_bind_ok, Edit.run_modify_ok] at h
          obtain ⟨_, _, rfl, h⟩ := h
          split at h
          · cases (Edit.run_pure_ok.1 h).1
          · exact ih rfl h
        · cases (Edit.run_pure_ok.1 h).1

end SearchRun

end GuidedReach
