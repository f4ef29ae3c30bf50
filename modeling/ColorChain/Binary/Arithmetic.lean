import ColorChain.Binary.Rounding

/-! Arithmetic on binary numbers: each operation is the exact one followed by a single
rounding. What has no exact value (a difference of infinities, zero times infinity, zero
over zero) is the indefinite not-a-number. Whole parts and conversions between formats and
integers are rounded once, too. -/
namespace ColorChain.Binary

variable {f g : Format}

def neg (x : Binary f) : Binary f := ⟨!x.negative, x.index, x.index_lt⟩

def abs (x : Binary f) : Binary f := ⟨false, x.index, x.index_lt⟩

/-- A sum that cancels is the positive zero, unless both operands are negative zeros. -/
def add (x y : Binary f) : Binary f :=
  orNaN x y <|
    if x.isInfinite then
      if y.isInfinite && x.negative != y.negative then indefinite else x
    else if y.isInfinite then y
    else
      let sum := x.units + y.units
      if sum = 0 then zero (x.negative && y.negative) else ofUnits sum

def sub (x y : Binary f) : Binary f := orNaN x y (x.add y.neg)

def mul (x y : Binary f) : Binary f :=
  let negative := x.negative != y.negative
  orNaN x y <|
    if x.isInfinite || y.isInfinite then
      if x.isZero || y.isZero then indefinite else infinity negative
    else ofQuotient negative (f.units x.index * f.units y.index) (2 ^ f.unitBits)

def div (x y : Binary f) : Binary f :=
  let negative := x.negative != y.negative
  orNaN x y <|
    if x.isInfinite then
      if y.isInfinite then indefinite else infinity negative
    else if y.isInfinite then zero negative
    else if y.isZero then
      if x.isZero then indefinite else infinity negative
    else ofQuotient negative (f.units x.index * 2 ^ f.unitBits) (f.units y.index)

instance : Neg (Binary f) := ⟨neg⟩
instance : Add (Binary f) := ⟨add⟩
instance : Sub (Binary f) := ⟨sub⟩
instance : Mul (Binary f) := ⟨mul⟩
instance : Div (Binary f) := ⟨div⟩

/-- `base` to the power `n` by repeated squaring, every product rounded. -/
def power (base : Binary f) (n : Nat) : Binary f :=
  go 1 base n n
where
  /-- Folds the binary digits of `n`, lowest first, into `acc`; `fuel` bounds their number. -/
  go (acc base : Binary f) (n : Nat) : Nat → Binary f
    | 0 => acc
    | fuel + 1 =>
      let acc := if n % 2 = 1 then acc * base else acc
      if n / 2 = 0 then acc else go acc (base * base) (n / 2) fuel

/-! ### Whole parts and conversions -/

/-- `n` as a number, rounded. -/
def ofInt (n : Int) : Binary f := ofQuotient (n < 0) (n.natAbs * 2 ^ f.unitBits) 1

/-- The largest whole number not above `x`. A zero keeps its sign. -/
def floor (x : Binary f) : Binary f :=
  if x.isNaN then x.quiet
  else if x.isInfinite then x
  else
    let whole := x.units / (2 ^ f.unitBits : Nat)
    if whole = 0 then zero x.negative else ofInt whole

/-- The nearest whole number, a half away from zero. The sign stays, also on a zero. -/
def round (x : Binary f) : Binary f :=
  if x.isNaN then x.quiet
  else if x.isInfinite then x
  else
    let whole := roundHalfUp (f.units x.index) (2 ^ f.unitBits)
    ofQuotient x.negative (whole * 2 ^ f.unitBits) 1

/-- The whole part of `x`, cut off towards zero and held within `low` and `high`; a
not-a-number gives 0. -/
def truncate (low high : Int) (x : Binary f) : Int :=
  if x.isNaN then 0
  else if x.isInfinite then if x.negative then low else high
  else max low (min high (x.units.tdiv (2 ^ f.unitBits : Nat)))

/-- The same number in another format, rounded where the other is coarser. -/
def convert (x : Binary f) : Binary g :=
  if x.isNaN then ofIndex x.negative (g.infinityIndex ||| g.quietBit)
  else if x.isInfinite then infinity x.negative
  else ofQuotient x.negative (f.units x.index * 2 ^ g.unitBits) (2 ^ f.unitBits)

end ColorChain.Binary
