import ColorChain.Binary.Format

/-! Rounding to a format.

`Format.nearestIndex` takes a quotient of naturals, measured in units, to the index of
the nearest magnitude; a tie goes to the even index. With `s` the number of bits that
the quotient has beyond the fraction, neighbours at that height are `2 ^ s` units apart,
so the quotient is rounded to a whole number of these steps, and the index is `s` blocks
plus that number. A number that rounds up into the next block lands on that block's
first index by itself. -/
namespace ColorChain

/-- `num / den` to the nearest whole number, a half to the even one. -/
def roundHalfEven (num den : Nat) : Nat :=
  let whole := num / den
  let rest := num % den
  if 2 * rest < den then whole
  else if den < 2 * rest then whole + 1
  else whole + whole % 2

/-- `num / den` to the nearest whole number, a half upwards. -/
def roundHalfUp (num den : Nat) : Nat := (2 * num + den) / (2 * den)

namespace Format

/-- The index of the magnitude nearest to `num / den` units, beyond infinity's when the
quotient is too large for the format. -/
def nearestIndex (f : Format) (num den : Nat) : Nat :=
  let spare := (num / den).log2 - f.fractionBits
  spare * 2 ^ f.fractionBits + roundHalfEven num (den * 2 ^ spare)

end Format

namespace Binary

variable {f : Format}

/-- `num / den` units, rounded; infinite when too large. -/
def ofQuotient (negative : Bool) (num den : Nat) : Binary f where
  negative
  index := min (f.nearestIndex num den) f.infinityIndex
  index_lt := Nat.lt_of_le_of_lt (Nat.min_le_right _ _) f.infinityIndex_lt

/-- A whole number of units, rounded. Zero is positive. -/
def ofUnits (n : Int) : Binary f := ofQuotient (n < 0) n.natAbs 1

/-- The number nearest to `n / d`. -/
def ofRatio (n d : Nat) : Binary f := ofQuotient false (n * 2 ^ f.unitBits) d

instance {n : Nat} : OfNat (Binary f) n := ⟨ofRatio n 1⟩

instance : OfScientific (Binary f) where
  ofScientific m isNegative e := if isNegative then ofRatio m (10 ^ e) else ofRatio (m * 10 ^ e) 1

end Binary
end ColorChain
