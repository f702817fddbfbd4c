import SketchCompiler.Coverage.Report
import SketchCompiler.Main
import SketchCompiler.Proofs.Brackets
import SketchCompiler.Proofs.BuildProtocol
import SketchCompiler.Proofs.Concatenation
import SketchCompiler.Proofs.ConstSafety
import SketchCompiler.Proofs.DeclReadback
import SketchCompiler.Proofs.DeclarationOrder
import SketchCompiler.Proofs.DeclaredTypes
import SketchCompiler.Proofs.DurationScale
import SketchCompiler.Proofs.EmittedReadback
import SketchCompiler.Proofs.FindingFiles
import SketchCompiler.Proofs.GraphSessions
import SketchCompiler.Proofs.HeaderCover
import SketchCompiler.Proofs.KnownPins
import SketchCompiler.Proofs.NumeralTokens
import SketchCompiler.Proofs.InferredTypes
import SketchCompiler.Proofs.AcceptedTypes
import SketchCompiler.Proofs.PinSafety
import SketchCompiler.Proofs.Precedence
import SketchCompiler.Proofs.Progress
import SketchCompiler.Proofs.ScanOutcome
import SketchCompiler.Proofs.SketchLowering
import SketchCompiler.Proofs.TextLiterals
import SketchCompiler.Workload
