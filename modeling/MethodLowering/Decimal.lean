/-!
# Decimal text of quotients

A mean is written with a fixed number of decimal places.  The quotient is first rounded to a binary
fraction of 53 significant bits and that fraction is then rounded to the wanted places; both times
a half goes to the even neighbour.
-/

namespace MethodLowering
namespace Decimal

/-- The quotient rounded to the nearest integer, a half to the even one. -/
def roundHalfEven (numerator denominator : Nat) : Nat :=
  let quotient := numerator / denominator
  let twice := 2 * (numerator % denominator)
  if denominator < twice || (twice == denominator && quotient % 2 == 1) then quotient + 1
  else quotient

/-- Significant bits of a binary fraction. -/
def significantBits : Nat := 53

/-- The power of two with an exponent. -/
def binary (exponent : Nat) : Nat := Nat.pow 2 exponent

/-- The power of ten with an exponent. -/
def decimal (exponent : Nat) : Nat := Nat.pow 10 exponent

/-- The quotient of two positive numbers as a fraction `mantissa / 2 ^ shift` of 53 significant
bits, the nearest one. -/
def binaryFraction (numerator denominator : Nat) : Nat × Nat :=
  let shift := significantBits + denominator.log2
  let dropped := (numerator * binary shift / denominator).log2 + 1 - significantBits
  (roundHalfEven (numerator * binary shift) (denominator * binary dropped) * binary dropped, shift)

/-- Decimal digits of `value`, padded with zeros on the left to `width`. -/
def padded (width value : Nat) : String :=
  let digits := toString value
  String.ofList (List.replicate (width - digits.length) '0') ++ digits

/-- The quotient with exactly `places` decimals; zero when nothing is divided. -/
def fixedQuotient (places numerator denominator : Nat) : String :=
  let (mantissa, shift) :=
    if numerator == 0 || denominator == 0 then (0, 0) else binaryFraction numerator denominator
  let scaled := roundHalfEven (mantissa * decimal places) (binary shift)
  toString (scaled / decimal places) ++ "." ++ padded places (scaled % decimal places)

end Decimal
end MethodLowering
