import GuidedReach.Proofs.Generation.Found

/-!
# The waitlist finds its search nodes

Only nodes of the graph are let to wait, and what is handed out is in the graph, since it is looked up
there first.

* `SearchRun.finds_enqueue` — a node of the graph is let to wait.
* `SearchRun.finds_next` — what is handed out, or found to reach a target, is in the graph.
-/

namespace GuidedReach

variable {S P K : Type} {gen : Generation S P K} {run : SearchRun} {id : NodeId}

/-- The start nodes of a search, and the nodes it found to reach a target, are in the graph. -/
structure SearchRun.Within (run : SearchRun) (gen : Generation S P K) : Prop where
  start : ∀ i ∈ run.start, ∃ n, gen.graph.get? i = some n
  reached : ∀ i ∈ run.reached, ∃ n, gen.graph.get? i = some n

namespace SearchRun

theorem finds_find {parent : Option NodeId} {depth : Nat} (h : run.Within gen) :
    (find id parent depth).Finds run fun _ run' => run'.Within gen := by
  refine Edit.finds_get.bind fun _ _ _ ⟨hrun, hrun'⟩ => ?_
  subst hrun hrun'
  split
  · split
    · refine (Edit.finds_lift (finds_demand ?_)).bind fun _ _ _ hmid =>
        Edit.finds_pure (hmid.2.2 ▸ h)
      exact fun h => h
    · exact fun h => h
  split
  · exact Edit.finds_pure h
  · exact Edit.finds_set.bind fun _ _ _ hset => Edit.finds_pure (hset ▸ ⟨h.start, h.reached⟩)

/-- **A node of the graph is let to wait**, if it may. -/
theorem finds_enqueue {parent : Option NodeId} {depth : Nat} (hgen : gen.Furnished)
    (hid : ∃ n, gen.graph.get? id = some n) (h : run.Within gen) :
    (enqueue gen id parent depth).Finds run fun _ run' => run'.Within gen := by
  refine (Edit.finds_lift (Generation.finds_searchNode (hgen.registered hid.choose_spec))).bind
    fun known mid _ ⟨_, _, hmid⟩ => ?_
  subst hmid
  refine (Edit.finds_lift (finds_demand ?_)).bind fun _ _ _ ⟨_, _, hmid⟩ => ?_
  · exact fun h => h
  subst hmid
  split
  · exact Edit.finds_pure h
  refine (finds_find h).bind fun isNew mid _ hmid => ?_
  split
  · refine (Edit.finds_lift Distance.finds_add).bind fun _ _ _ ⟨_, _, h₁⟩ =>
      (Edit.finds_lift Distance.finds_value).bind fun _ _ _ ⟨_, _, h₂⟩ =>
        (Edit.finds_lift hgen.finds_reachesTarget).bind fun _ _ _ ⟨_, _, h₃⟩ =>
          (Edit.finds_lift Distance.finds_le).bind fun _ _ _ ⟨_, _, h₄⟩ => ?_
    subst h₁ h₂ h₃ h₄
    exact Edit.finds_modify.mono fun _ _ _ hlast => hlast ▸ ⟨hmid.start, hmid.reached⟩
  · exact Edit.finds_pure hmid

theorem finds_stopsBefore {entry : Entry} (hgen : gen.Furnished) :
    GuidedReach.Finds (run.stopsBefore gen entry) fun _ => True := by
  refine Spares.bind StopCriterion.finds_canStop fun stops _ _ => ?_
  split
  · exact Spares.bind hgen.finds_reachesTarget fun _ _ _ => spares_pure trivial
  · exact spares_pure trivial

theorem finds_nextOf {visitsReached : Bool} (hgen : gen.Furnished) (entries : List Entry)
    (h : run.Within gen) : (nextOf gen visitsReached entries).Finds run fun next run' =>
      run'.Within gen ∧ ∀ entry, next = some entry → ∃ n, gen.graph.get? entry.1 = some n := by
  induction entries generalizing run with
  | nil => exact Edit.finds_pure ⟨h, nofun⟩
  | cons entry rest ih =>
    refine Edit.finds_get.bind fun _ _ _ ⟨hrun, hrun'⟩ => ?_
    subst hrun hrun'
    refine (Edit.finds_lift (finds_stopsBefore hgen)).bind fun stops _ _ ⟨_, _, hmid⟩ => ?_
    subst hmid
    split
    · exact Edit.finds_pure ⟨h, nofun⟩
    refine Edit.finds_modify.bind fun _ mid _ hmid => Edit.finds_get.bind fun _ _ _ hread => ?_
    have hwithin : mid.Within gen := hmid ▸ ⟨h.start, h.reached⟩
    obtain ⟨hread, hread'⟩ := hread
    subst hread hread'
    split
    · exact ih hwithin
    refine Edit.finds_modify.bind fun _ mid' _ hmid' => ?_
    have hwithin' : mid'.Within gen := hmid' ▸ ⟨hwithin.start, hwithin.reached⟩
    refine (Edit.finds_lift hgen.finds_reachesTarget).bind fun reaches _ _ ⟨_, hentry, hread⟩ => ?_
    subst hread
    split
    · refine Edit.finds_modify.bind fun _ last _ hlast => ?_
      have hwithin'' : last.Within gen := by
        subst hlast
        refine ⟨hwithin'.start, fun i hi => ?_⟩
        rcases List.mem_append.1 hi with hi | hi
        · exact hwithin'.reached i hi
        · exact List.mem_singleton.1 hi ▸ hentry
      split
      · exact Edit.finds_pure ⟨hwithin'', fun _ hnext => Option.some.inj hnext ▸ hentry⟩
      · exact ih hwithin''
    · exact Edit.finds_pure ⟨hwithin', fun _ hnext => Option.some.inj hnext ▸ hentry⟩

/-- **What is handed out is in the graph.** -/
theorem finds_next {visitsReached : Bool} (hgen : gen.Furnished) (h : run.Within gen) :
    (next gen visitsReached).Finds run fun next run' =>
      run'.Within gen ∧ ∀ entry, next = some entry → ∃ n, gen.graph.get? entry.1 = some n := by
  refine Edit.finds_get.bind fun _ _ _ ⟨hrun, hrun'⟩ => ?_
  subst hrun hrun'
  exact finds_nextOf hgen _ h

end SearchRun

end GuidedReach
