import GuidedReach.Partition.Analysis
import GuidedReach.Proofs.Graph.Refutation
import GuidedReach.Proofs.TransitionSystem.Reachability

/-!
# Abstraction by blocks is sound

* `Partition.Valid.initial`, `Partition.Valid.split`, `Partition.SplitsInto.valid` — splitting keeps
  a partition of the states.
* `TransitionSystem.Dead` — the blocks from which no target can be reached.
* `TransitionSystem.blockAnalysis_lawful`, `TransitionSystem.blockAnalysis_refutes` — the analysis
  by blocks never refutes what can be reached.
-/

namespace GuidedReach

variable {system : TransitionSystem}

/-! ## Partitions -/

namespace Partition

variable {partition : Partition}

theorem mem_meeting {set block : StateSet} :
    block ∈ partition.meeting set ↔ block ∈ partition.blocks ∧ ∃ s, s ∈ block ∧ s ∈ set := by
  simp [meeting, StateSet.meets_iff]

theorem Valid.initial (system : TransitionSystem) : (Partition.initial system).Valid system := by
  have hmem : ∀ b, b ∈ (Partition.initial system).blocks ↔
      (b = system.allStates.sdiff system.targets ∨ b = system.allStates.inter system.targets) ∧
        ∃ s, s ∈ b := by
    intro b
    simp only [Partition.initial, List.mem_filter, List.mem_cons, List.not_mem_nil, or_false,
      Bool.not_eq_true', ← Bool.not_eq_true, StateSet.isEmpty_iff, not_forall, not_not]
  refine ⟨fun b hb => ((hmem b).1 hb).2, ?_, ?_, ?_⟩
  · refine List.Pairwise.filter _ (List.pairwise_pair.2 fun s hs ht => ?_)
    exact (StateSet.mem_sdiff.1 hs).2 (StateSet.mem_inter.1 ht).2
  · intro s
    constructor
    · rintro ⟨b, hb, hs⟩
      obtain ⟨rfl | rfl, -⟩ := (hmem b).1 hb
      · exact StateSet.mem_below.1 (StateSet.mem_sdiff.1 hs).1
      · exact StateSet.mem_below.1 (StateSet.mem_inter.1 hs).1
    · intro hs
      have hall : s ∈ system.allStates := StateSet.mem_below.2 hs
      by_cases ht : s ∈ system.targets
      · have hin := StateSet.mem_inter.2 ⟨hall, ht⟩
        exact ⟨_, (hmem _).2 ⟨.inr rfl, s, hin⟩, hin⟩
      · have hin := StateSet.mem_sdiff.2 ⟨hall, ht⟩
        exact ⟨_, (hmem _).2 ⟨.inl rfl, s, hin⟩, hin⟩
  · intro b hb s t hs ht
    obtain ⟨rfl | rfl, -⟩ := (hmem b).1 hb
    · simp [(StateSet.mem_sdiff.1 hs).2, (StateSet.mem_sdiff.1 ht).2]
    · simp [(StateSet.mem_inter.1 hs).2, (StateSet.mem_inter.1 ht).2]

theorem mem_split {inside block : StateSet} :
    block ∈ (partition.split inside).blocks ↔ (∃ b, b ∈ partition.blocks ∧
      (block = b.inter inside ∨ block = b.sdiff inside)) ∧ ∃ s, s ∈ block := by
  simp only [split, List.mem_flatMap, List.mem_filter, List.mem_cons, List.not_mem_nil, or_false,
    Bool.not_eq_true', ← Bool.not_eq_true, StateSet.isEmpty_iff, not_forall, not_not]
  constructor
  · rintro ⟨b, hb, hblock, hs⟩
    exact ⟨⟨b, hb, hblock⟩, hs⟩
  · rintro ⟨⟨b, hb, hblock⟩, hs⟩
    exact ⟨b, hb, hblock, hs⟩

theorem Valid.split (h : partition.Valid system) (inside : StateSet) :
    (partition.split inside).Valid system := by
  have hsub : ∀ {b c : StateSet} {s}, c = b.inter inside ∨ c = b.sdiff inside → s ∈ c → s ∈ b := by
    rintro b c s (rfl | rfl) hs
    · exact (StateSet.mem_inter.1 hs).1
    · exact (StateSet.mem_sdiff.1 hs).1
  refine ⟨fun b hb => (mem_split.1 hb).2, ?_, ?_, ?_⟩
  · refine List.pairwise_flatMap.2 ⟨fun b _ => ?_, ?_⟩
    · refine List.Pairwise.filter _ (List.pairwise_pair.2 fun s hs ht => ?_)
      exact (StateSet.mem_sdiff.1 ht).2 (StateSet.mem_inter.1 hs).2
    · refine h.disjoint.imp fun hdisjoint c hc d hd s hs ht => ?_
      exact hdisjoint s (hsub (by simpa using (List.mem_filter.1 hc).1) hs)
        (hsub (by simpa using (List.mem_filter.1 hd).1) ht)
  · intro s
    rw [← h.covers]
    constructor
    · rintro ⟨c, hc, hs⟩
      obtain ⟨⟨b, hb, hcb⟩, -⟩ := mem_split.1 hc
      exact ⟨b, hb, hsub hcb hs⟩
    · rintro ⟨b, hb, hs⟩
      by_cases hin : s ∈ inside
      · have hs' := StateSet.mem_inter.2 ⟨hs, hin⟩
        exact ⟨_, mem_split.2 ⟨⟨b, hb, .inl rfl⟩, s, hs'⟩, hs'⟩
      · have hs' := StateSet.mem_sdiff.2 ⟨hs, hin⟩
        exact ⟨_, mem_split.2 ⟨⟨b, hb, .inr rfl⟩, s, hs'⟩, hs'⟩
  · intro c hc s t hs ht
    obtain ⟨⟨b, hb, hcb⟩, -⟩ := mem_split.1 hc
    exact h.unmixed b hb s t (hsub hcb hs) (hsub hcb ht)

theorem SplitsInto.valid {finer : Partition} (h : partition.SplitsInto finer)
    (hvalid : partition.Valid system) : finer.Valid system := by
  induction h with
  | refl => exact hvalid
  | split inside _ ih => exact ih.split inside

/-- A state of a set is in a block that meets the set. -/
theorem Valid.exists_meeting (h : partition.Valid system) {set : StateSet} {s : Nat} (hs : s ∈ set)
    (hlt : s < system.states) : ∃ block ∈ partition.meeting set, s ∈ block := by
  obtain ⟨b, hb, hsb⟩ := (h.covers s).2 hlt
  exact ⟨b, mem_meeting.2 ⟨hb, s, hsb, hs⟩, hsb⟩

/-- Split by one set after the other. -/
def splitAll (partition : Partition) (sets : List (List Nat)) : Partition :=
  sets.foldl (fun finer set => finer.split (.ofList set)) partition

theorem SplitsInto.splitAll {finer : Partition} (h : partition.SplitsInto finer)
    (sets : List (List Nat)) : partition.SplitsInto (finer.splitAll sets) := by
  induction sets generalizing finer with
  | nil => exact h
  | cons set sets ih => exact ih (.split (.ofList set) h)

end Partition

/-! ## Blocks -/

namespace TransitionSystem

variable {partition : Partition}

/-- No walk leads from a state of the block to a target. -/
def Dead (system : TransitionSystem) (block : StateSet) : Prop :=
  ∀ s, s ∈ block → ∀ n, ¬ system.ReachesTarget s n

theorem blockAnalysis_isTarget {block : StateSet} :
    system.blockAnalysis.isTarget block = true ↔ ∃ s, s ∈ block ∧ s ∈ system.targets :=
  StateSet.meets_iff

theorem blockAnalysis_isLeq {a b : StateSet} :
    system.blockAnalysis.isLeq a b = true ↔ ∀ s, s ∈ a → s ∈ b :=
  StateSet.subset_iff

theorem blockAnalysis_inDomain {block : StateSet} :
    system.blockAnalysis.inDomain block = true ↔ ∀ s, s ∈ block → s < system.states := by
  simp [blockAnalysis, StateSet.mem_def]

/-- A block of a valid partition that holds a target holds nothing else. -/
theorem targets_of_isTarget (hvalid : partition.Valid system) {block : StateSet}
    (hblock : block ∈ partition.blocks) (htarget : system.blockAnalysis.isTarget block = true)
    {s : Nat} (hs : s ∈ block) : s ∈ system.targets := by
  obtain ⟨t, ht, hmember⟩ := blockAnalysis_isTarget.1 htarget
  exact (hvalid.unmixed block hblock t s ht hs).1 hmember

theorem blockAnalysis_lawful (system : TransitionSystem) : system.blockAnalysis.Lawful where
  isLeq_refl _ := blockAnalysis_isLeq.2 fun _ hs => hs
  isLeq_trans hab hbc := blockAnalysis_isLeq.2 fun s hs =>
    blockAnalysis_isLeq.1 hbc s (blockAnalysis_isLeq.1 hab s hs)
  isTarget_mono hab ha := by
    obtain ⟨s, hs, ht⟩ := blockAnalysis_isTarget.1 ha
    exact blockAnalysis_isTarget.2 ⟨s, blockAnalysis_isLeq.1 hab s hs, ht⟩
  not_isBottom := fun {a} ha => by
    obtain ⟨s, hs, -⟩ := blockAnalysis_isTarget.1 ha
    refine Bool.eq_false_iff.2 fun hbottom => ?_
    exact (StateSet.isEmpty_iff (a := a)).1 hbottom s hs
  isBottom_mono := fun {a b} hab hb =>
    StateSet.isEmpty_iff.2 fun s hs =>
      (StateSet.isEmpty_iff (a := b)).1 hb s (blockAnalysis_isLeq.1 hab s hs)

/-- **No target is reached from a region of blocks that abstract successors never leave.** -/
theorem blockAnalysis_refutes (system : TransitionSystem) :
    system.blockAnalysis.Refutes (Partition.Valid system) system.Dead where
  of_isLeq hab hb s hs := hb s (blockAnalysis_isLeq.1 hab s hs)
  of_isBottom := fun {a} ha s hs => absurd hs ((StateSet.isEmpty_iff (a := a)).1 ha s)
  not_isTarget ha := by
    refine Bool.eq_false_iff.2 fun htarget => ?_
    obtain ⟨s, hs, ht⟩ := blockAnalysis_isTarget.1 htarget
    exact ha s hs 0 ⟨s, .refl s, ht⟩
  of_closed := by
    intro region hregion
    -- by the length of the walk: one step stays in the region
    have hwalk : ∀ n a, region a → ∀ s, s ∈ a → ¬ system.ReachesTarget s n := by
      intro n
      induction n with
      | zero =>
        rintro a ha s hs ⟨target, hwalk, htarget⟩
        cases hwalk
        have := blockAnalysis_isTarget.2 ⟨s, hs, htarget⟩
        simp [(hregion a ha).1] at this
      | succ n ih =>
        rintro a ha s hs ⟨target, hwalk, htarget⟩
        obtain ⟨-, hdead | ⟨b, hab, prec, hprec, hall⟩⟩ := hregion a ha
        · exact hdead s hs _ ⟨target, hwalk, htarget⟩
        · cases hwalk with
          | step hstep hwalk =>
            rename_i t
            have himage := mem_image.2 ⟨s, blockAnalysis_isLeq.1 hab s hs, hstep⟩
            obtain ⟨c, hmeets, ht⟩ := hprec.exists_meeting himage (system.edges_lt _ hstep).2
            exact ih c (hall c hmeets) t ht ⟨target, hwalk, htarget⟩
    exact fun a ha s hs n => hwalk n a ha s hs

end TransitionSystem

end GuidedReach
