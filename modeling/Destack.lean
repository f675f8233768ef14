import Destack.Listing
import Destack.Main
import Destack.Proofs.Machine.Evaluation
import Destack.Proofs.Ssa.Reducible
import Destack.Proofs.Ssa.Runs
import Destack.Proofs.Ssa.Availability
import Destack.Proofs.Ssa.Elision
import Destack.Proofs.Ssa.Strict
import Destack.Proofs.Ssa.ElidedRuns
import Destack.Proofs.Machine.BlockRuns
import Destack.Proofs.Machine.Runs
import Destack.Proofs.Encoding
import Destack.Proofs.Graph.ControlFlow
import Destack.Proofs.Graph.Partition
import Destack.Proofs.MethodEdges
import Destack.Proofs.Ssa.Heights
import Destack.Proofs.Ssa.Errors
import Destack.Proofs.Failures
import Destack.Proofs.Machine.Accesses
import Destack.Proofs.Machine.Assignment
import Destack.Proofs.Machine.Isolation
import Destack.Proofs.Graph.LoopHeads
import Destack.Proofs.Graph.WalkOrder
import Destack.Proofs.Machine.Terminators
import Destack.Proofs.WidePrefix
import Destack.Proofs.Graph.Reanalysis
import Destack.Proofs.Machine.ParallelMoves
import Destack.Proofs.Steps
import Destack.Proofs.Ssa.Growth
import Destack.Proofs.Ssa.CleanUp
import Destack.Proofs.Machine.Additions
import Destack.Proofs.MergeArguments
import Destack.Proofs.Ssa.FixedPoint
import Destack.Proofs.Ssa.NodeCounts
import Destack.Proofs.Accounting
import Destack.Proofs.Descriptors
import Destack.Proofs.ProgramPoints
import Destack.Proofs.Machine.CallSequence
import Destack.Proofs.Machine.Demand
import Destack.Proofs.Switches
import Destack.Proofs.CodeCuts
import Destack.Proofs.Machine.DataSegment
import Destack.Proofs.Machine.ArgumentPlaces
import Destack.Proofs.ConstantTexts
import Destack.Proofs.HexText
