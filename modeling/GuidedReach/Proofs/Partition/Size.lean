import GuidedReach.Proofs.Partition.Blocks

/-!
# Splitting and the number of blocks

A split divides each block into one part or two, so a partition stays as it is or gets more blocks,
though never more than there are states.

* `Partition.Divides` — a set divides a block: some of its states are inside, some outside.
* `Partition.split_eq_self` — a set that divides no block splits nothing.
* `Partition.size_lt_split` — a set that divides a block yields more blocks.
* `Partition.Valid.size_le` — there are at most as many blocks as states.
* `Partition.SplitsInto.exists_block` — a block of a finer partition is part of a block.
* `TransitionSystem.Precedes` — the partitions that one comes from.
-/

namespace GuidedReach

namespace Partition

variable {system : TransitionSystem} {partition : Partition} {inside block : StateSet}

/-- Some states of the block are inside the set, and some are not. -/
def Divides (inside block : StateSet) : Prop :=
  (∃ s, s ∈ block ∧ s ∈ inside) ∧ ∃ s, s ∈ block ∧ ¬ s ∈ inside

/-- The parts into which a set splits a block. -/
def parts (inside block : StateSet) : List StateSet :=
  [block.inter inside, block.sdiff inside].filter fun part => !part.isEmpty

theorem blocks_split : (partition.split inside).blocks = partition.blocks.flatMap (parts inside) :=
  rfl

theorem inter_isEmpty_iff : (block.inter inside).isEmpty = true ↔ ∀ s, s ∈ block → ¬ s ∈ inside := by
  simp [StateSet.isEmpty_iff]

theorem sdiff_isEmpty_iff : (block.sdiff inside).isEmpty = true ↔ ∀ s, s ∈ block → s ∈ inside := by
  simp [StateSet.isEmpty_iff]

/-- A block that is not divided is its own only part. -/
theorem parts_of_not_divides (hnonempty : ∃ s, s ∈ block) (h : ¬ Divides inside block) :
    parts inside block = [block] := by
  obtain ⟨s, hs⟩ := hnonempty
  by_cases hin : s ∈ inside
  · have hall : ∀ t, t ∈ block → t ∈ inside := fun t ht => by
      by_contra hout
      exact h ⟨⟨s, hs, hin⟩, t, ht, hout⟩
    have hinter : block.inter inside = block := StateSet.ext_mem fun t => by
      rw [StateSet.mem_inter]
      exact ⟨And.left, fun ht => ⟨ht, hall t ht⟩⟩
    have hnonempty : block.isEmpty = false :=
      Bool.eq_false_iff.2 fun hempty => StateSet.isEmpty_iff.1 hempty s hs
    simp [parts, hinter, sdiff_isEmpty_iff.2 hall, hnonempty]
  · have hnone : ∀ t, t ∈ block → ¬ t ∈ inside := fun t ht hin' => h ⟨⟨t, ht, hin'⟩, s, hs, hin⟩
    have hsdiff : block.sdiff inside = block := StateSet.ext_mem fun t => by
      rw [StateSet.mem_sdiff]
      exact ⟨And.left, fun ht => ⟨ht, hnone t ht⟩⟩
    have hnonempty : block.isEmpty = false :=
      Bool.eq_false_iff.2 fun hempty => StateSet.isEmpty_iff.1 hempty s hs
    simp [parts, hsdiff, inter_isEmpty_iff.2 hnone, hnonempty]

/-- A block that is divided has two parts. -/
theorem length_parts_of_divides (h : Divides inside block) : (parts inside block).length = 2 := by
  obtain ⟨⟨s, hs, hin⟩, t, ht, hout⟩ := h
  have hinter : (block.inter inside).isEmpty = false :=
    Bool.eq_false_iff.2 fun hempty => inter_isEmpty_iff.1 hempty s hs hin
  have hsdiff : (block.sdiff inside).isEmpty = false :=
    Bool.eq_false_iff.2 fun hempty => hout (sdiff_isEmpty_iff.1 hempty t ht)
  simp [parts, hinter, hsdiff]

theorem length_parts_pos (hnonempty : ∃ s, s ∈ block) : 0 < (parts inside block).length := by
  by_cases h : Divides inside block
  · rw [length_parts_of_divides h]
    exact Nat.succ_pos 1
  · rw [parts_of_not_divides hnonempty h]
    exact Nat.succ_pos 0

/-- A set that divides no block splits nothing. -/
theorem split_eq_self (hnonempty : ∀ b, b ∈ partition.blocks → ∃ s, s ∈ b)
    (h : ∀ b, b ∈ partition.blocks → ¬ Divides inside b) : partition.split inside = partition := by
  have hparts : partition.blocks.flatMap (parts inside) = partition.blocks.flatMap fun b => [b] :=
    List.flatMap_congr fun b hb => parts_of_not_divides (hnonempty b hb) (h b hb)
  show (⟨partition.blocks.flatMap (parts inside)⟩ : Partition) = partition
  rw [hparts, List.flatMap_singleton']

/-- What yields something for each of some blocks yields at least as much as there are blocks. -/
theorem length_le_flatMap {α : Type} {blocks : List StateSet} {f : StateSet → List α}
    (hpos : ∀ b ∈ blocks, 0 < (f b).length) : blocks.length ≤ (blocks.flatMap f).length := by
  induction blocks with
  | nil => exact Nat.le_refl 0
  | cons b blocks ih =>
    have hfirst := hpos b List.mem_cons_self
    have hrest := ih fun c hc => hpos c (List.mem_cons_of_mem b hc)
    rw [List.flatMap_cons, List.length_append, List.length_cons]
    omega

theorem size_le_split (hnonempty : ∀ b, b ∈ partition.blocks → ∃ s, s ∈ b) :
    partition.size ≤ (partition.split inside).size :=
  length_le_flatMap fun b hb => length_parts_pos (hnonempty b hb)

/-- A set that divides a block yields more blocks. -/
theorem size_lt_split (hnonempty : ∀ b, b ∈ partition.blocks → ∃ s, s ∈ b)
    (hblock : block ∈ partition.blocks) (h : Divides inside block) :
    partition.size < (partition.split inside).size := by
  obtain ⟨before, after, heq⟩ := List.append_of_mem hblock
  have hbefore : before.length ≤ (before.flatMap (parts inside)).length :=
    length_le_flatMap fun b hb => length_parts_pos (hnonempty b (by simp [heq, hb]))
  have hafter : after.length ≤ (after.flatMap (parts inside)).length :=
    length_le_flatMap fun b hb => length_parts_pos (hnonempty b (by simp [heq, hb]))
  have htwo := length_parts_of_divides h
  unfold size
  rw [blocks_split, heq, List.flatMap_append, List.flatMap_cons]
  simp only [List.length_append, List.length_cons]
  omega

/-- **There are at most as many blocks as states**: the blocks are disjoint, and none is empty. -/
theorem Valid.size_le (h : partition.Valid system) : partition.size ≤ system.states := by
  have hnodup : (partition.blocks.flatMap StateSet.toList).Nodup := by
    refine List.nodup_flatMap.2 ⟨fun b _ => b.ascending.imp Nat.ne_of_lt, ?_⟩
    exact h.disjoint.imp fun hdisjoint s hs ht => hdisjoint s hs ht
  have hsub : partition.blocks.flatMap StateSet.toList ⊆ List.range system.states := by
    intro s hs
    obtain ⟨b, hb, hmem⟩ := List.mem_flatMap.1 hs
    exact List.mem_range.2 ((h.covers s).1 ⟨b, hb, hmem⟩)
  have hpos : ∀ b ∈ partition.blocks, 0 < b.toList.length := by
    intro b hb
    obtain ⟨s, hs⟩ := h.nonempty b hb
    exact List.length_pos_of_mem hs
  calc partition.size ≤ (partition.blocks.flatMap StateSet.toList).length :=
        length_le_flatMap hpos
    _ ≤ (List.range system.states).length := (List.subperm_of_subset hnodup hsub).length_le
    _ = system.states := List.length_range

/-- A state is in one block only. -/
theorem Valid.eq_of_mem (h : partition.Valid system) {a b : StateSet} (ha : a ∈ partition.blocks)
    (hb : b ∈ partition.blocks) {s : Nat} (hsa : s ∈ a) (hsb : s ∈ b) : a = b := by
  by_contra hne
  have : Std.Symm fun a b : StateSet => ∀ s, s ∈ a → ¬ s ∈ b :=
    ⟨fun _ _ hdisjoint s hs hs' => hdisjoint s hs' hs⟩
  exact h.disjoint.forall ha hb hne s hsa hsb

/-! ## Finer partitions -/

/-- A block of a finer partition is part of a block. -/
theorem SplitsInto.exists_block {coarse fine : Partition} (h : coarse.SplitsInto fine)
    {block : StateSet} (hblock : block ∈ fine.blocks) :
    ∃ b, b ∈ coarse.blocks ∧ ∀ s, s ∈ block → s ∈ b := by
  induction h generalizing block with
  | refl => exact ⟨block, hblock, fun _ hs => hs⟩
  | split inside _ ih =>
    obtain ⟨⟨b, hb, hpart⟩, -⟩ := mem_split.1 hblock
    obtain ⟨c, hc, hsub⟩ := ih hb
    refine ⟨c, hc, fun s hs => hsub s ?_⟩
    rcases hpart with rfl | rfl
    · exact (StateSet.mem_inter.1 hs).1
    · exact (StateSet.mem_sdiff.1 hs).1

/-- What meets a set in a finer partition is part of what meets a larger set. -/
theorem SplitsInto.exists_meeting {coarse fine : Partition} (h : coarse.SplitsInto fine)
    {set larger block : StateSet} (hsub : ∀ s, s ∈ set → s ∈ larger)
    (hblock : block ∈ fine.meeting set) :
    ∃ b ∈ coarse.meeting larger, ∀ s, s ∈ block → s ∈ b := by
  obtain ⟨hblock, s, hs, hset⟩ := mem_meeting.1 hblock
  obtain ⟨b, hb, hle⟩ := h.exists_block hblock
  exact ⟨b, mem_meeting.2 ⟨hb, s, hle s hs, hsub s hset⟩, hle⟩

end Partition

namespace TransitionSystem

variable {system : TransitionSystem} {partition q : Partition}

/-- The partitions that the second one comes from, starting with the coarsest. -/
def Precedes (system : TransitionSystem) (partition q : Partition) : Prop :=
  (Partition.initial system).SplitsInto q ∧ q.SplitsInto partition

theorem Precedes.valid (h : system.Precedes partition q) : q.Valid system :=
  h.1.valid (.initial system)

theorem Precedes.split (h : system.Precedes partition q) (inside : StateSet) :
    system.Precedes (partition.split inside) q :=
  ⟨h.1, .split inside h.2⟩

end TransitionSystem

end GuidedReach
