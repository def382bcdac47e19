import TypeAlgebra.Combinator
import TypeAlgebra.Main
import TypeAlgebra.Proofs.Form
import TypeAlgebra.Proofs.Construction
import TypeAlgebra.Proofs.Registry.Growth
import TypeAlgebra.Proofs.Layout.Known
import TypeAlgebra.Proofs.Layout.Scan
import TypeAlgebra.Proofs.Layout.Format
import TypeAlgebra.Proofs.Layout.Progress
import TypeAlgebra.Proofs.Stream.Reachable
import TypeAlgebra.Proofs.Stream.Chunks
import TypeAlgebra.Proofs.Integer
import TypeAlgebra.Proofs.Layout.Reading
import TypeAlgebra.Proofs.Stream.Iteration
import TypeAlgebra.Proofs.Stream.Rendering
import TypeAlgebra.Proofs.Registry.Coherent
import TypeAlgebra.Proofs.Registry.Permanence
import TypeAlgebra.Proofs.Registry.Union
import TypeAlgebra.Proofs.Value
import TypeAlgebra.Proofs.View
import TypeAlgebra.Proofs.Construction.Sound
import TypeAlgebra.Proofs.Application.Sound
import TypeAlgebra.Proofs.Stream.Values
import TypeAlgebra.Proofs.Session.Run
import TypeAlgebra.Proofs.Session.Laws
import TypeAlgebra.Proofs.Application.Code
import TypeAlgebra.Proofs.Application.Partial
import TypeAlgebra.Proofs.Application.Dispatch
import TypeAlgebra.Proofs.Application.Combination
import TypeAlgebra.Proofs.Registry.Texts
import TypeAlgebra.Proofs.HandOver
import TypeAlgebra.Proofs.Layout.Cursor
import TypeAlgebra.Proofs.Policy.Passing
import TypeAlgebra.Proofs.Policy.Intake
import TypeAlgebra.Proofs.Policy.Calls
import TypeAlgebra.Proofs.Registry.Refinement
import TypeAlgebra.Proofs.Setup.Meaning
import TypeAlgebra.Proofs.Setup.Building
import TypeAlgebra.Proofs.Setup.Resolution
import TypeAlgebra.Proofs.Setup.Declared
import TypeAlgebra.Proofs.Setup.Prepared
import TypeAlgebra.Proofs.File
import TypeAlgebra.Proofs.Layout.Line
import TypeAlgebra.Proofs.Report.Run
import TypeAlgebra.Proofs.Report.Lines
import TypeAlgebra.Proofs.Report.Raised
import TypeAlgebra.Proofs.Report.Limit
import TypeAlgebra.Proofs.Stream.Recovery
import TypeAlgebra.Proofs.Construction.Matching
import TypeAlgebra.Proofs.Construction.FirstUnion
import TypeAlgebra.Proofs.Policy.Failures
import TypeAlgebra.Proofs.Application.Typed
import TypeAlgebra.Proofs.Application.Spread
import TypeAlgebra.Proofs.Construction.Records
import TypeAlgebra.Proofs.Stream.Offsets
import TypeAlgebra.Proofs.Layout.Lookahead
import TypeAlgebra.Proofs.Arithmetic
import TypeAlgebra.Proofs.Session.NamedProducts
import TypeAlgebra.Proofs.Layout.SlotTypes
import TypeAlgebra.Proofs.Layout.Standing
