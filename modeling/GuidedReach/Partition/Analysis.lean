import GuidedReach.Analysis
import GuidedReach.Partition.Basic

/-!
# Abstraction by blocks

`TransitionSystem.blockAnalysis` abstracts a system by partitions: an abstract state is a set of
states, the precision is a partition, and the abstract successors of a set are the blocks that meet
its image. Blocks of different partitions are compared by inclusion, so they all share one key.
-/

namespace GuidedReach.TransitionSystem

/-- The analysis whose abstract states are the blocks of partitions. -/
def blockAnalysis (system : TransitionSystem) : Analysis StateSet Partition Unit where
  initStates partition := partition.meeting system.init
  succStates block partition := partition.meeting (system.image block)
  isTarget block := block.meets system.targets
  isBottom block := block.isEmpty
  isLeq := StateSet.subset
  key _ := ()
  inDomain block := block.toList.all (· < system.states)

end GuidedReach.TransitionSystem
