/-!
# Limits

Bounds on the work spent on one body.  They do not change the outcome for well-formed text.
-/

namespace MethodLowering
namespace Limits

/-- Rounds of operator folding for one requested range. -/
def reductionRounds : Nat := 100000

/-- Further attempts the open frames get once the text has ended. -/
def finishRetries : Nat := 2

/-- Frame transitions for one fed line. -/
def stepsPerFeed : Nat := 1000000

/-- Nesting up to which expressions are lowered and rendered; deeper ones keep their source
text. -/
def renderDepth : Nat := 4096

/-- What the name of a type made from an anonymous class body starts with. -/
def liftedStem : String := "Anonymous_"

end Limits
end MethodLowering
