import MethodLowering.Expr.Describe
import MethodLowering.Proofs.Reader.Progress
import MethodLowering.Proofs.Body.Typing
import MethodLowering.Proofs.Roundtrip.Program
import MethodLowering.Proofs.Roundtrip.Typed
import MethodLowering.Proofs.Rendering.Temporaries
import MethodLowering.Proofs.Reader.Capturing
import MethodLowering.Proofs.Lowering.Reporting
import MethodLowering.Proofs.Rendering.Headers
import MethodLowering.Proofs.Reader.Naming
import MethodLowering.Proofs.Rendering.Composition
