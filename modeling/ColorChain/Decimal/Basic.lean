import ColorChain.Binary.Rounding

/-! Decimal numbers and their nearest binary numbers.

A decimal is a natural coefficient times a power of ten. Its nearest binary number is
found exactly: the quotient that the decimal is, rounded once. Only where the power of
ten puts the value far outside the format's range is the answer read off the size. -/
namespace ColorChain

/-- `coefficient * 10 ^ exponent`, negated if `negative`. -/
structure Decimal where
  negative : Bool
  coefficient : Nat
  exponent : Int
  deriving DecidableEq, Repr

/-- The decimal digits of a number, without leading zeros. -/
def decimalDigits (n : Nat) : List Char := Nat.toDigits 10 n

/-- The number that a row of decimal digits spells. -/
def ofDecimalDigits (digits : List Char) : Nat := Nat.ofDigitChars 10 digits 0

namespace Decimal

/-- Magnitudes of ten to this power and above are too large for the format, and those
below one over it too small. -/
def reach (f : Format) : Int := 2 ^ f.exponentBits

variable {f : Format}

/-- The binary number nearest to a decimal. -/
def toBinary (d : Decimal) : Binary f :=
  let magnitude := (decimalDigits d.coefficient).length + d.exponent
  if d.coefficient = 0 then .zero d.negative
  else if reach f < magnitude then .infinity d.negative
  else if magnitude < -reach f then .zero d.negative
  else
    let unit := 2 ^ f.unitBits
    if 0 ≤ d.exponent then
      .ofQuotient d.negative (d.coefficient * 10 ^ d.exponent.toNat * unit) 1
    else .ofQuotient d.negative (d.coefficient * unit) (10 ^ (-d.exponent).toNat)

end Decimal
end ColorChain
