import ColorChain.Binary.Arithmetic
import ColorChain.Decimal.Basic
import ColorChain.Text

/-! Displayed numbers.

A number is written with a fixed number of decimal places by rounding its exact value to the nearest
multiple of the last place, a half to the even digit.

A control shows its value with at most a given number of decimal places. The value is
scaled by a power of ten, rounded to a whole number, a half away from zero, and scaled
back, all in double precision; the text then has no zeros after its last digit, no point
without a digit after it, and no sign on a zero. -/
namespace ColorChain

/-! ### Fixed places -/

variable {f : Format}

/-- `n` hundredths, thousandths and so on, written with that many places. -/
def placed (n places : Nat) : List Char :=
  let ds := decimalDigits n
  let ds := List.replicate (places + 1 - ds.length) '0' ++ ds
  let whole := ds.length - places
  if places = 0 then ds else ds.take whole ++ '.' :: ds.drop whole

/-- The text of a number that is not finite, and `none` for the others. -/
def Binary.specialText? (x : Binary f) : Option (List Char) :=
  if x.isNaN then some "NaN".toList
  else if x.isInfinite then some (if x.negative then "-inf".toList else "inf".toList)
  else none

def signText (negative : Bool) : List Char := if negative then ['-'] else []

/-- The text of a number with `places` digits after the point. -/
def Binary.fixed (x : Binary f) (places : Nat) : List Char :=
  x.specialText?.getD <|
    signText x.negative ++
      placed (roundHalfEven (f.units x.index * 10 ^ places) (2 ^ f.unitBits)) places

namespace Display

/-! ### Places of a control -/

/-- Ten to the number of places, which is read as a signed number: from `2 ^ 31` on it
stands for a negative power. -/
def scale (places : UInt32) : Double :=
  if places.toNat < 2 ^ (31 : Nat) then (10 : Double).power places.toNat
  else 1 / (10 : Double).power (2 ^ (32 : Nat) - places.toNat)

/-- `value` to `places` decimal places. A zero is positive. -/
def rounded (value : Single) (places : UInt32) : Double :=
  let result := ((value.convert : Double) * scale places).round / scale places
  if result.isZero then .zero false else result

/-- Fixed-point text without the zeros after its last digit. -/
def trimmed (s : List Char) : List Char :=
  if s.contains '.' then Text.trimEnd (· == '.') (Text.trimEnd (· == '0') s) else s

/-- The displayed text of `value`. -/
def number (value : Single) (places : UInt32) : List Char :=
  trimmed ((rounded value places).fixed places.toNat)

end Display
end ColorChain
