import GuidedReach.Proofs.Graph.Grown
import GuidedReach.Proofs.Partition.Size
import GuidedReach.Proofs.Refinement

/-!
# Where a spurious counterexample is split

A spurious counterexample ends in a block of targets, so paths along it do not get that far: they end at
a block, the *pivot*, and none leads on to the next one. Some transition does, though, or else the next
block would not be there. So the states in which the paths end are some of the pivot's, but not all.

* `Graph.isChain_traceTo` — a trace goes from parent to child.
* `Graph.Derived.targets`, `Graph.Derived.divides` — what the blocks of nodes hold.
* `TransitionSystem.LongestRealized.stuck` — no transition leads on from the ends of longest paths.
* `TransitionSystem.refine_spurious` — the pivot of a spurious counterexample.
-/

namespace GuidedReach

/-! ## Traces -/

namespace Graph

variable {S : Type} {g : Graph S} {id : NodeId} {n : Node S}

/-- From each node one goes up to its parent. -/
theorem isChain_ancestorsWithin (g : Graph S) (steps : Nat) (id : NodeId) :
    List.IsChain (fun c p => ∃ n, g.get? c = some n ∧ n.parent = some p)
      (g.ancestorsWithin steps id) := by
  induction steps generalizing id with
  | zero => exact .singleton id
  | succ steps ih =>
    unfold ancestorsWithin
    split
    · rename_i parent hparent
      obtain ⟨n, hn, hparent⟩ := Option.bind_eq_some_iff.1 hparent
      refine List.isChain_cons.2 ⟨fun p hp => ⟨n, hn, ?_⟩, ih parent⟩
      have hhead : (g.ancestorsWithin steps parent).head? = some parent := by
        cases steps with
        | zero => rfl
        | succ steps => unfold ancestorsWithin; split <;> rfl
      rw [hparent, ← hhead]
      exact hp
    · exact .singleton id

/-- **A trace goes from parent to child.** -/
theorem isChain_traceTo (g : Graph S) (id : NodeId) :
    List.IsChain (fun p c => ∃ n, g.get? c = some n ∧ n.parent = some p) (g.traceTo id) :=
  List.isChain_reverse.2 (g.isChain_ancestorsWithin id id)

theorem getLast?_traceTo (g : Graph S) (id : NodeId) : (g.traceTo id).getLast? = some id := by
  rw [traceTo, List.getLast?_reverse, ancestors]
  cases id with
  | zero => rfl
  | succ id => unfold ancestorsWithin; split <;> rfl

theorem getElem?_statesOf {ids : List NodeId} (hids : ∀ i ∈ ids, ∃ n, g.get? i = some n) (k : Nat) :
    (g.statesOf ids)[k]? = ids[k]?.bind fun i => (g.get? i).map (·.state) := by
  induction ids generalizing k with
  | nil => simp [statesOf]
  | cons id ids ih =>
    obtain ⟨n, hn⟩ := hids id List.mem_cons_self
    rw [statesOf_cons hn]
    cases k with
    | zero => simp [hn]
    | succ k => simpa using ih (fun i hi => hids i (List.mem_cons_of_mem id hi)) k

theorem getElem?_statesOf_of_get? {ids : List NodeId} (hids : ∀ i ∈ ids, ∃ n, g.get? i = some n)
    {k : Nat} {i : NodeId} (hi : ids[k]? = some i) (hn : g.get? i = some n) :
    (g.statesOf ids)[k]? = some n.state := by
  rw [getElem?_statesOf hids, hi, Option.bind_some, hn]
  rfl

/-- The next node of a trace is a child. -/
theorem exists_child_traceTo {k : Nat} {i : NodeId} (hi : (g.traceTo id)[k]? = some i)
    (hlt : k + 1 < (g.traceTo id).length) :
    ∃ c n, (g.traceTo id)[k + 1]? = some c ∧ g.get? c = some n ∧ n.parent = some i := by
  obtain ⟨n, hn, hparent⟩ := List.isChain_iff_getElem.1 (g.isChain_traceTo id) k hlt
  obtain ⟨_, rfl⟩ := List.getElem?_eq_some_iff.1 hi
  exact ⟨_, n, List.getElem?_eq_getElem hlt, hn, hparent⟩

section

variable {system : TransitionSystem} {allowed allowed' : Partition → Prop} {g : Graph StateSet}
variable {n : Node StateSet} (h : g.Derived system.blockAnalysis allowed)

include h

/-- The block of a root holds an init state. -/
theorem Derived.exists_init (hn : g.get? id = some n) (hroot : n.parent = none) :
    ∃ s, s ∈ system.init ∧ s ∈ n.state := by
  obtain ⟨q, -, hmeets⟩ := h.root hn hroot
  obtain ⟨-, s, hs, hinit⟩ := Partition.mem_meeting.1 hmeets
  exact ⟨s, hinit, hs⟩

/-- A node has a block of a partition that was allowed. -/
theorem Derived.exists_block (hwf : g.WellFormed) (hn : g.get? id = some n) :
    ∃ q, allowed q ∧ n.state ∈ q.blocks := by
  cases hparent : n.parent with
  | none =>
    obtain ⟨q, hq, hmeets⟩ := h.root hn hparent
    exact ⟨q, hq, (Partition.mem_meeting.1 hmeets).1⟩
  | some p =>
    obtain ⟨m, hm, -⟩ := hwf.exists_parent hn hparent
    obtain ⟨q, hq, hmeets⟩ := h.child hn hparent hm
    exact ⟨q, hq, (Partition.mem_meeting.1 hmeets).1⟩

/-- The block of a target holds nothing but targets: partitions do not mix targets with other
states. -/
theorem Derived.targets (hg : g.Faithful system.blockAnalysis allowed')
    (hvalid : ∀ q, allowed q → q.Valid system) (hn : g.get? id = some n) (htarget : n.isTarget = true) :
    ∀ s, s ∈ n.state → s ∈ system.targets := by
  obtain ⟨q, hq, hblock⟩ := h.exists_block hg.wellFormed hn
  exact fun s => TransitionSystem.targets_of_isTarget (hvalid q hq) hblock
    ((hg.isTarget hn).symm.trans htarget)

/-- If nothing leads on from some states to the block of a child, then they are not all that the block
of the parent holds. -/
theorem Derived.divides {i : NodeId} {m : Node StateSet} {states : StateSet} (hn : g.get? id = some n)
    (hparent : n.parent = some i) (hm : g.get? i = some m) (hnonempty : ∃ s, s ∈ states)
    (hsub : ∀ s, s ∈ states → s ∈ m.state)
    (hstuck : ∀ s t, s ∈ states → t ∈ n.state → ¬ system.Step s t) :
    Partition.Divides states m.state := by
  obtain ⟨s, hs⟩ := hnonempty
  obtain ⟨q, -, hmeets⟩ := h.child hn hparent hm
  obtain ⟨-, t, ht, himage⟩ := Partition.mem_meeting.1 hmeets
  obtain ⟨u, hu, hstep⟩ := TransitionSystem.mem_image.1 himage
  exact ⟨⟨s, hsub s hs, hs⟩, u, hu, fun hin => hstuck u t hin ht hstep⟩

end

end Graph

/-! ## Refining -/

namespace TransitionSystem

variable {system : TransitionSystem} {partition finer : Partition} {blocks : List StateSet}
variable {block : StateSet} {allowed allowed' : Partition → Prop} {g g' : Graph StateSet}

/-- No transition leads from the ends of the longest paths to the next set. -/
theorem LongestRealized.stuck {length s t : Nat} (h : system.LongestRealized blocks (length + 1))
    (hblock : blocks[length + 1]? = some block) (hs : system.CanEnd (blocks.take (length + 1)) s)
    (ht : t ∈ block) : ¬ system.Step s t := by
  intro hstep
  obtain ⟨hlt, rfl⟩ := List.getElem?_eq_some_iff.1 hblock
  have hne : blocks.take (length + 1) ≠ [] := by
    intro hnil
    have := congrArg List.length hnil
    rw [List.length_take, List.length_nil] at this
    omega
  obtain ⟨path, hpath, -⟩ := (canEnd_concat hne).2 ⟨⟨s, hs, hstep⟩, ht⟩
  rw [List.take_concat_get' _ _ hlt] at hpath
  exact absurd (h.2 ⟨hlt, path, hpath⟩) (Nat.not_succ_le_self _)

/-- **The pivot of a spurious counterexample** is pruned, and the partition is split by some of its
states, but not all. -/
theorem refine_spurious (hg : g.Faithful system.blockAnalysis allowed')
    (hderived : g.Derived system.blockAnalysis allowed) (hvalid : ∀ q, allowed q → q.Valid system)
    (h : (system.refine partition).run g = .ok (.spurious finer) g') :
    ∃ pivot n states, g.get? pivot = some n ∧ (Graph.prune pivot).run g = .ok () g' ∧
      finer = partition.split states ∧ (∀ s, s ∈ states → s ∈ n.state) ∧
      Partition.Divides states n.state := by
  obtain ⟨target, refinement, g'', hshallowest, hrun, hrefines⟩ := exists_refinesAlong partition
    hg.wellFormed hderived.exists_init (isSafe_of_refine h)
  obtain ⟨rfl, rfl⟩ := EStateM.Result.ok.inj (hrun.symm.trans h)
  obtain ⟨m, hm, htarget, -⟩ := Graph.mem_unsafeNodes.1 hshallowest.mem
  obtain ⟨-, hnodes⟩ := hg.wellFormed.exists_traceTo hm
  have hlength := Graph.length_statesOf hnodes
  cases hrefines with
  | @spurious step pivot states _ hnone hlongest hpivot hsome hstates hprune _ =>
    obtain ⟨a, ha⟩ := hnodes pivot (List.mem_of_getElem? hpivot)
    have hblock := Graph.getElem?_statesOf_of_get? hnodes hpivot ha
    have hsub : ∀ s, s ∈ states → s ∈ a.state := by
      intro s hs
      obtain ⟨hlt, hget⟩ := List.getElem?_eq_some_iff.1 hblock
      have hend := (hstates s).1 hs
      rw [← List.take_concat_get' _ _ hlt, hget] at hend
      exact hend.mem
    -- the last block holds nothing but targets, so paths do not get there
    have hlt : step + 1 < (g.traceTo target).length := by
      refine (hlength ▸ hlongest.1.1).lt_of_ne fun heq => ?_
      obtain ⟨s, hs⟩ := hsome
      obtain ⟨path, hpath, hend⟩ := (hstates s).1 hs
      rw [List.take_of_length_le (by omega)] at hpath
      have hpivot' : pivot = target := by
        have hlast := g.getLast?_traceTo target
        rw [List.getLast?_eq_getElem?, ← heq, Nat.add_sub_cancel, hpivot] at hlast
        exact Option.some.inj hlast
      subst hpivot'
      obtain rfl := Option.some.inj (ha.symm.trans hm)
      exact hnone path ⟨hpath, s, hend, hderived.targets hg hvalid hm htarget s (hsub s hs)⟩
    obtain ⟨next, n, hnext, hn, hparent⟩ := Graph.exists_child_traceTo hpivot hlt
    have hnextBlock := Graph.getElem?_statesOf_of_get? hnodes hnext hn
    exact ⟨pivot, a, states, ha, hprune, rfl, hsub, hderived.divides hn hparent ha hsome hsub
      fun s t hs => hlongest.stuck hnextBlock ((hstates s).1 hs)⟩

end TransitionSystem

end GuidedReach
