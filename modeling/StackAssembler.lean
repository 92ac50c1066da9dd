import StackAssembler.Artifact.Bytes
import StackAssembler.Assembly
import StackAssembler.Proofs.ArtifactBytes
import StackAssembler.Proofs.ArtifactLayout
import StackAssembler.Proofs.Behaviour
import StackAssembler.Proofs.ControlSkeleton
import StackAssembler.Proofs.CueIndependence
import StackAssembler.Proofs.Decoding
import StackAssembler.Proofs.DepthLimits
import StackAssembler.Proofs.DepthWalk
import StackAssembler.Proofs.ExactDistances
import StackAssembler.Proofs.FrameSize
import StackAssembler.Proofs.FusedCode
import StackAssembler.Proofs.HandleLifetimes
import StackAssembler.Proofs.JumpLanding
import StackAssembler.Proofs.JumpTables
import StackAssembler.Proofs.LineExtraction
import StackAssembler.Proofs.LineSurvival
import StackAssembler.Proofs.NormalForm
import StackAssembler.Proofs.PointedCode
import StackAssembler.Proofs.ReadPaths
import StackAssembler.Proofs.RepeatedAnalysis
import StackAssembler.Proofs.ShrinkingCode
import StackAssembler.Proofs.SlotRenaming
import StackAssembler.Proofs.SplicedLines
import StackAssembler.Proofs.StoredGate
import StackAssembler.Routine.Listing
