import GuidedReach.Main
import GuidedReach.Abstractor.Run
import GuidedReach.Checker.Run
import GuidedReach.Graph.Operation
import GuidedReach.Graph.Path
import GuidedReach.TransitionSystem.Walk
import GuidedReach.Proofs.Checker.Correct
import GuidedReach.Proofs.Abstractor.Refinement
import GuidedReach.Proofs.Abstractor.Exhaustive
import GuidedReach.Proofs.Checker.Faultless
import GuidedReach.Proofs.Checker.Progress
import GuidedReach.Proofs.Abstractor.Terminates
import GuidedReach.Proofs.Generation.Steps
import GuidedReach.Proofs.Abstractor.Witnessed
import GuidedReach.Proofs.Abstractor.LowerBounds
import GuidedReach.Proofs.Abstractor.BreadthFirst
import GuidedReach.Proofs.Abstractor.Frozen
import GuidedReach.Proofs.Abstractor.Shape
import GuidedReach.Proofs.Abstractor.Providers
import GuidedReach.Proofs.TransitionSystem.RoundTrip
import GuidedReach.Proofs.Abstractor.BestFirst
import GuidedReach.Proofs.Partition.Abstraction
import GuidedReach.Proofs.Checker.Counterexamples
import GuidedReach.Proofs.Partition.Splits
import GuidedReach.Proofs.TransitionSystem.ShortestPaths
import GuidedReach.Proofs.Graph.Survivors
import GuidedReach.Proofs.Graph.Refusals
import GuidedReach.Proofs.Abstractor.HandedBack
import GuidedReach.Proofs.Abstractor.Counted
import GuidedReach.Proofs.Abstractor.Explored
import GuidedReach.Proofs.Abstractor.Mirrored
import GuidedReach.Proofs.Generation.Due
import GuidedReach.Proofs.Graph.Siblings
import GuidedReach.Proofs.SearchRun.Journalled
import GuidedReach.Proofs.Generation.Closure
