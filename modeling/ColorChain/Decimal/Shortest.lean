import ColorChain.Decimal.Display

/-! The shortest decimal that reads back.

A finite magnitude is the nearest one to every real in an interval around it: half way to
each neighbour, the ends included when the index is even, since a tie goes to the even
index. Among the decimals in that interval, those with the fewest digits are taken, and of
these the nearest. For a given number of digits the candidates are the multiples of one
power of ten, and if any of them lies in the interval then so does one of the two that
enclose the magnitude. -/
namespace ColorChain

/-- What happens when two candidates are equally near. -/
inductive Tie where
  | up
  | toEven
  deriving DecidableEq, Repr

namespace Shortest

variable (f : Format)

/-- The ends of the interval around index `n`, in halves of a unit. -/
def interval (n : Nat) : Nat × Nat :=
  (f.units (n - 1) + f.units n, f.units n + f.units (n + 1))

/-- Whether `c * 10 ^ e` reads back as the magnitude of index `n`. -/
def reads (n c : Nat) (e : Int) : Bool :=
  let (low, high) := interval f n
  let value := c * 10 ^ e.toNat * 2 ^ (f.unitBits + 1)
  let scale := 10 ^ (-e).toNat
  if n % 2 = 0 then low * scale ≤ value && value ≤ high * scale
  else low * scale < value && value < high * scale

/-- The decimal exponent of the magnitude of index `n`: its first digit has the weight
ten to this power. -/
def leading (n : Nat) : Int :=
  let whole := f.units n / 2 ^ f.unitBits
  if whole ≠ 0 then (decimalDigits whole).length - 1
  else
    -- Scaling up far enough to make the smallest magnitude a whole number.
    let places := f.unitBits
    let scaled := f.units n * 10 ^ places / 2 ^ f.unitBits
    (decimalDigits scaled).length - 1 - places

/-- The coefficient of the best multiple of `10 ^ e` that reads back as index `n`. -/
def candidate (tie : Tie) (n : Nat) (e : Int) : Option Nat :=
  let num := f.units n * 10 ^ (-e).toNat
  let den := 2 ^ f.unitBits * 10 ^ e.toNat
  let below := num / den
  let rest := 2 * (num % den)
  let upFirst := den < rest || (rest = den && (tie = .up || below % 2 = 1))
  let order := if upFirst then [below + 1, below] else [below, below + 1]
  order.find? fun c => reads f n c e

/-- The first candidate on the grids `10 ^ e`, `10 ^ (e - 1)`, …, `fuel` of them. -/
def search (tie : Tie) (n : Nat) (e : Int) : Nat → Decimal
  | 0 => ⟨false, 0, 0⟩
  | fuel + 1 =>
    match candidate f tie n e with
    | some c => ⟨false, c, e⟩
    | none => search tie n (e - 1) fuel

/-- Moves the zeros at the end of a coefficient into the exponent. -/
def strip (d : Decimal) : Nat → Decimal
  | 0 => d
  | fuel + 1 =>
    if d.coefficient ≠ 0 && d.coefficient % 10 = 0 then
      strip { d with coefficient := d.coefficient / 10, exponent := d.exponent + 1 } fuel
    else d

/-- The shortest decimal of a finite magnitude. Twenty digits are more than any format of
this library needs. -/
def ofIndex (tie : Tie) (n : Nat) : Decimal :=
  if n = 0 then ⟨false, 0, 0⟩
  else strip (search f tie n (leading f n) 20) 2

end Shortest

/-- The shortest decimal of a finite number. -/
def Binary.shortest {f : Format} (tie : Tie) (x : Binary f) : Decimal :=
  { Shortest.ofIndex f tie x.index with negative := x.negative }

namespace Decimal

/-- The digits of a decimal without a power of ten: zeros fill the places between the
digits and the point. A whole number has no point. -/
def positional (d : Decimal) : List Char :=
  signText d.negative ++
    if 0 ≤ d.exponent then decimalDigits (d.coefficient * 10 ^ d.exponent.toNat)
    else placed d.coefficient (-d.exponent).toNat

end Decimal

/-- The shortest text of a number, never with a power of ten. -/
def Binary.shortestText {f : Format} (x : Binary f) : List Char :=
  x.specialText?.getD (x.shortest .up).positional

end ColorChain
