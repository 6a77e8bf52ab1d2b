import GuidedReach.TransitionSystem.Basic

/-!
# Partitions of the states

A `Partition` lists blocks of states. The coarsest one of a system, `Partition.initial`, only tells
targets from other states; `Partition.split` makes it finer.

* `Partition.SplitsInto` — the partitions that come from one by any number of splits.
* `Partition.Valid` — the blocks are non-empty and disjoint, cover all states, and mix no targets
  with other states.
-/

namespace GuidedReach

/-- A list of blocks of states. -/
structure Partition where
  blocks : List StateSet
  deriving DecidableEq, Repr, Inhabited

namespace Partition

/-- The number of blocks. -/
def size (partition : Partition) : Nat := partition.blocks.length

def isEmpty (partition : Partition) : Bool := partition.blocks.isEmpty

/-- The coarsest partition that tells targets apart: the other states first. -/
def initial (system : TransitionSystem) : Partition :=
  let all := system.allStates
  ⟨[all.sdiff system.targets, all.inter system.targets].filter fun block => !block.isEmpty⟩

/-- The blocks that share a state with a set. -/
def meeting (partition : Partition) (set : StateSet) : List StateSet :=
  partition.blocks.filter fun block => block.meets set

/-- Split every block into its part inside a set and its part outside. -/
def split (partition : Partition) (inside : StateSet) : Partition :=
  ⟨partition.blocks.flatMap fun block =>
    [block.inter inside, block.sdiff inside].filter fun part => !part.isEmpty⟩

/-- The written form of a partition: its blocks, separated by blanks. -/
def text (partition : Partition) : String :=
  " ".intercalate (partition.blocks.map StateSet.text)

/-- The second partition comes from the first one by any number of splits. -/
inductive SplitsInto (partition : Partition) : Partition → Prop where
  | refl : SplitsInto partition partition
  | split {finer : Partition} (inside : StateSet) :
    SplitsInto partition finer → SplitsInto partition (finer.split inside)

theorem SplitsInto.trans {p q r : Partition} (hpq : p.SplitsInto q) (hqr : q.SplitsInto r) :
    p.SplitsInto r := by
  induction hqr with
  | refl => exact hpq
  | split inside _ ih => exact .split inside ih

/-- The blocks are non-empty and disjoint, cover the states of a system and no others, and none
holds targets beside other states. -/
structure Valid (system : TransitionSystem) (partition : Partition) : Prop where
  nonempty : ∀ b, b ∈ partition.blocks → ∃ s, s ∈ b
  disjoint : partition.blocks.Pairwise fun a b => ∀ s, s ∈ a → ¬ s ∈ b
  covers : ∀ s, (∃ b, b ∈ partition.blocks ∧ s ∈ b) ↔ s < system.states
  unmixed : ∀ b, b ∈ partition.blocks → ∀ s t, s ∈ b → t ∈ b →
    (s ∈ system.targets ↔ t ∈ system.targets)

end Partition

end GuidedReach
