import Mathlib.Data.List.Flatten
import Mathlib.Data.List.Perm.Basic
import GuidedReach.Proofs.Partition.Size

/-!
# Sequences of splits

However often the coarsest partition of a system is split, and by whatever sets, a partition of the
states is left. Splitting twice by one set is splitting once, and the order of two splits shows in the
order of the blocks only.

* `Partition.flatMap_parts` — the four parts into which two sets split a block.
* `Partition.split_split_self`, `Partition.split_comm` — a set that comes twice; two sets in either
  order.
* `Partition.SplitsInto.size_le` — the number of blocks never goes down.
* `Partition.splits_lawful` — **the laws of splitting**.
-/

namespace GuidedReach.Partition

variable {system : TransitionSystem} {partition : Partition} {inside block part x y : StateSet}

/-! ## Two splits -/

/-- An empty block has no parts. -/
theorem parts_of_isEmpty (h : block.isEmpty = true) : parts inside block = [] := by
  have hnone : ∀ s, ¬ s ∈ block := StateSet.isEmpty_iff.1 h
  have hinter : (block.inter inside).isEmpty = true :=
    inter_isEmpty_iff.2 fun s hs => absurd hs (hnone s)
  have hsdiff : (block.sdiff inside).isEmpty = true :=
    sdiff_isEmpty_iff.2 fun s hs => absurd hs (hnone s)
  simp [parts, hinter, hsdiff]

/-- Two splits cut a block into what both sets, the first, the second and neither of them hold. -/
theorem flatMap_parts (x y block : StateSet) :
    (parts x block).flatMap (parts y) =
      [(block.inter x).inter y, (block.inter x).sdiff y, (block.sdiff x).inter y,
        (block.sdiff x).sdiff y].filter fun part => !part.isEmpty := by
  have hkept : ∀ b : StateSet, ([b].filter fun part => !part.isEmpty).flatMap (parts y) = parts y b := by
    intro b
    cases hb : b.isEmpty with
    | true => simp [hb, parts_of_isEmpty hb]
    | false => simp [hb]
  calc (parts x block).flatMap (parts y)
      = ([block.inter x].filter fun part => !part.isEmpty).flatMap (parts y) ++
          ([block.sdiff x].filter fun part => !part.isEmpty).flatMap (parts y) := by
        rw [← List.flatMap_append, ← List.filter_append]
        rfl
    _ = parts y (block.inter x) ++ parts y (block.sdiff x) := by rw [hkept, hkept]
    _ = _ := (List.filter_append ..).symm

theorem blocks_split_split : ((partition.split x).split y).blocks =
    partition.blocks.flatMap fun block => (parts x block).flatMap (parts y) := by
  rw [blocks_split, blocks_split, List.flatMap_assoc]

theorem inter_inter_comm (block x y : StateSet) :
    (block.inter x).inter y = (block.inter y).inter x :=
  StateSet.ext_mem fun s => by simp only [StateSet.mem_inter]; tauto

theorem sdiff_inter_comm (block x y : StateSet) : (block.sdiff x).inter y = (block.inter y).sdiff x :=
  StateSet.ext_mem fun s => by simp only [StateSet.mem_inter, StateSet.mem_sdiff]; tauto

theorem sdiff_sdiff_comm (block x y : StateSet) : (block.sdiff x).sdiff y = (block.sdiff y).sdiff x :=
  StateSet.ext_mem fun s => by simp only [StateSet.mem_sdiff]; tauto

/-- **The order of two splits** shows in the order of the blocks only. -/
theorem split_comm (partition : Partition) (x y : StateSet) :
    ((partition.split x).split y).blocks.Perm ((partition.split y).split x).blocks := by
  rw [blocks_split_split, blocks_split_split]
  refine List.Perm.flatMap_left _ fun block _ => ?_
  rw [flatMap_parts x y, flatMap_parts y x, inter_inter_comm block x y, sdiff_inter_comm block x y,
    sdiff_sdiff_comm block x y, sdiff_inter_comm block y x]
  -- the parts that only one of the sets holds change places
  exact ((List.Perm.swap _ _ _).cons _).filter _

/-- A part of a block is inside the set or apart from it, and inside one block. -/
theorem exists_block_of_mem_split (h : part ∈ (partition.split inside).blocks) :
    (∃ block ∈ partition.blocks, ∀ s, s ∈ part → s ∈ block) ∧
      ((∀ s, s ∈ part → s ∈ inside) ∨ ∀ s, s ∈ part → ¬ s ∈ inside) := by
  obtain ⟨⟨block, hblock, rfl | rfl⟩, -⟩ := mem_split.1 h
  · exact ⟨⟨block, hblock, fun s hs => (StateSet.mem_inter.1 hs).1⟩,
      .inl fun s hs => (StateSet.mem_inter.1 hs).2⟩
  · exact ⟨⟨block, hblock, fun s hs => (StateSet.mem_sdiff.1 hs).1⟩,
      .inr fun s hs => (StateSet.mem_sdiff.1 hs).2⟩

/-- **A set that comes twice** splits nothing the second time, not even the order. -/
theorem split_split_self (partition : Partition) (inside : StateSet) :
    (partition.split inside).split inside = partition.split inside := by
  refine split_eq_self (fun part hpart => (mem_split.1 hpart).2) ?_
  rintro part hpart ⟨⟨s, hs, hin⟩, t, ht, hout⟩
  obtain ⟨-, hinside | hapart⟩ := exists_block_of_mem_split hpart
  · exact hout (hinside t ht)
  · exact hapart s hs hin

/-! ## Any number of splits -/

/-- **The number of blocks never goes down.** -/
theorem SplitsInto.size_le {finer : Partition} (h : partition.SplitsInto finer)
    (hnonempty : ∀ b, b ∈ partition.blocks → ∃ s, s ∈ b) : partition.size ≤ finer.size := by
  have hkept : (∀ b, b ∈ finer.blocks → ∃ s, s ∈ b) ∧ partition.size ≤ finer.size := by
    induction h with
    | refl => exact ⟨hnonempty, Nat.le_refl _⟩
    | split inside _ ih =>
      exact ⟨fun b hb => (mem_split.1 hb).2, Nat.le_trans ih.2 (size_le_split ih.1)⟩
  exact hkept.2

/-- Each part of a split is inside exactly one of the blocks that were split. -/
theorem Valid.existsUnique_block (hvalid : partition.Valid system)
    (h : part ∈ (partition.split inside).blocks) :
    ∃! block, block ∈ partition.blocks ∧ ∀ s, s ∈ part → s ∈ block := by
  obtain ⟨⟨block, hblock, hsub⟩, -⟩ := exists_block_of_mem_split h
  refine ⟨block, ⟨hblock, hsub⟩, fun other hother => ?_⟩
  obtain ⟨s, hs⟩ := (mem_split.1 h).2
  exact hvalid.eq_of_mem hother.1 hblock (hother.2 s hs) (hsub s hs)

/-- **The laws of splitting.** Any number of splits of the coarsest partition, by whatever sets, leaves
non-empty and disjoint blocks that cover the states and mix no targets with others; there are at most as
many of them as states, and never fewer than before. A further split puts each part inside one block,
and inside the set or apart from it. Splitting twice by one set is splitting once, and two splits may
change places. -/
theorem splits_lawful (system : TransitionSystem) {partition : Partition}
    (h : (initial system).SplitsInto partition) :
    partition.Valid system ∧
    partition.size ≤ system.states ∧
    (∀ finer, partition.SplitsInto finer → partition.size ≤ finer.size) ∧
    (∀ inside, ∀ part ∈ (partition.split inside).blocks,
      (∃! block, block ∈ partition.blocks ∧ ∀ s, s ∈ part → s ∈ block) ∧
      ((∀ s, s ∈ part → s ∈ inside) ∨ ∀ s, s ∈ part → ¬ s ∈ inside)) ∧
    (∀ inside, (partition.split inside).split inside = partition.split inside) ∧
    ∀ x y, ((partition.split x).split y).blocks.Perm ((partition.split y).split x).blocks := by
  have hvalid : partition.Valid system := h.valid (.initial system)
  refine ⟨hvalid, hvalid.size_le, fun finer hfiner => hfiner.size_le hvalid.nonempty, ?_,
    split_split_self partition, split_comm partition⟩
  exact fun inside part hpart =>
    ⟨hvalid.existsUnique_block hpart, (exists_block_of_mem_split hpart).2⟩

/-- Four states, split by a set that holds a number beyond them, and then by two sets in either
order. -/
theorem splits_lawful_forked :
    ((initial TransitionSystem.forked).splitAll [[0, 9]]).blocks.map StateSet.toList =
      [[0], [1, 2], [3]] ∧
    ((initial TransitionSystem.forked).splitAll [[0, 9], [0, 2], [0, 1, 3]]).blocks.map
      StateSet.toList = [[0], [2], [1], [3]] ∧
    ((initial TransitionSystem.forked).splitAll [[0, 9], [0, 1, 3], [0, 2]]).blocks.map
      StateSet.toList = [[0], [1], [2], [3]] ∧
    ((initial TransitionSystem.forked).splitAll [[0, 9]]).Valid TransitionSystem.forked ∧
    ((initial TransitionSystem.forked).splitAll [[0, 9], [0, 2], [0, 1, 3]]).blocks.Perm
      ((initial TransitionSystem.forked).splitAll [[0, 9], [0, 1, 3], [0, 2]]).blocks := by
  have hinitial : (initial TransitionSystem.forked).SplitsInto (initial TransitionSystem.forked) :=
    .refl
  obtain ⟨hvalid, -, -, -, -, hcomm⟩ :=
    splits_lawful TransitionSystem.forked (hinitial.splitAll [[0, 9]])
  exact ⟨by decide, by decide, by decide, hvalid, hcomm (.ofList [0, 2]) (.ofList [0, 1, 3])⟩

end GuidedReach.Partition
