import ColorChain.Decimal.Basic
import ColorChain.Json.Basic

/-! Numbers in JSON text.

An integer that fits 64 bits is kept exactly. Every other number becomes a double from a
significand of at most 64 bits: the digits are taken from the left as long as they fit,
the ones that do not fit before the point still count as places, and the significand is
then scaled by powers of ten in double precision, each step rounded. A number too large for
a double is refused. -/
namespace ColorChain.Json

/-- The text of a number in its parts. -/
structure Numeral where
  negative : Bool
  whole : List Char
  fraction : List Char
  /-- Whether the power of ten is negative, and its digits. -/
  power : Bool × List Char
  /-- Neither a point nor a power of ten was written. -/
  plain : Bool
  deriving DecidableEq, Repr

namespace Numeral

def digits (s : List Char) : List Char × List Char := s.span Char.isDigit

/-- The digits before the point: a single zero, or digits that do not start with one. -/
def whole? (s : List Char) : Option (List Char × List Char) :=
  match digits s with
  | ([], _) => none
  | ('0' :: _ :: _, _) => none
  | (ds, rest) => some (ds, rest)

/-- The digits after a point; without a point there are none. -/
def fraction? : List Char → Option (List Char × List Char)
  | '.' :: rest =>
    match digits rest with
    | ([], _) => none
    | (ds, rest) => some (ds, rest)
  | rest => some ([], rest)

/-- The sign and digits of a power of ten; without the letter `e` there are none. -/
def power? : List Char → Option ((Bool × List Char) × List Char)
  | c :: rest =>
    if c = 'e' || c = 'E' then
      let (negative, rest) := match rest with
        | '-' :: rest => (true, rest)
        | '+' :: rest => (false, rest)
        | rest => (false, rest)
      match digits rest with
      | ([], _) => none
      | (ds, rest) => some ((negative, ds), rest)
    else some ((false, []), c :: rest)
  | [] => some ((false, []), [])

/-- Reads the number at the front of a text. -/
def scan? (s : List Char) : Option (Numeral × List Char) := do
  let (negative, s) := match s with
    | '-' :: rest => (true, rest)
    | rest => (false, rest)
  let (whole, s) ← whole? s
  let (fraction, s) ← fraction? s
  let (power, s) ← power? s
  return (⟨negative, whole, fraction, power, fraction.isEmpty && power.2.isEmpty⟩, s)

/-! ### Values -/

def digitValue (c : Char) : Nat := c.toNat - '0'.toNat

/-- Appends digits to a significand until one does not fit into 64 bits, and tells how
many were taken. -/
def absorb (significand : Nat) : List Char → Nat × Nat
  | [] => (significand, 0)
  | c :: rest =>
    let longer := significand * 10 + digitValue c
    if longer < 2 ^ (64 : Nat) then
      let (result, taken) := absorb longer rest
      (result, taken + 1)
    else (significand, 0)

/-- Ten to the power `n`. -/
def tenTo (n : Nat) : Double := Binary.ofRatio (10 ^ n) 1

/-- `x` over ten to the power `n`. A power that is too large for a double is taken in steps
of `1e308`; two of these lead from any 64-bit significand to zero, so `steps` need not be
more. -/
def lower (x : Double) (n : Nat) : Nat → Double
  | 0 => x
  | steps + 1 =>
    if n ≤ 308 then x / tenTo n
    else if x.isZero then x
    else lower (x / tenTo 308) (n - 308) steps

/-- `significand * 10 ^ exponent`; `none` when it is too large. -/
def scale? (significand : Nat) (exponent : Int) : Option Double :=
  let x : Double := .ofInt significand
  if exponent < 0 then some (lower x (-exponent).toNat 4)
  else if exponent ≤ 308 then
    let x := x * tenTo exponent.toNat
    if x.isInfinite then none else some x
  else if x.isZero then some x
  else none

/-- The double that a numeral stands for. -/
def double? (n : Numeral) : Option Double := do
  let (significand, taken) := absorb 0 n.whole
  let (significand, places) := absorb significand n.fraction
  let exponent : Int := (n.whole.length - taken : Nat) - (places : Int)
  let power : Int := ofDecimalDigits n.power.2
  let magnitude ←
    if power < 2 ^ (31 : Nat) then
      scale? significand (if n.power.1 then exponent - power else exponent + power)
    else if significand = 0 || n.power.1 then some (.zero false)
    else none
  return if n.negative then -magnitude else magnitude

/-- The number that a numeral stands for. A negative zero is a double, and so is an integer
of more than 64 bits. -/
def value? (n : Numeral) : Option JsonNumber :=
  let whole := ofDecimalDigits n.whole
  if n.plain && !n.negative && whole < 2 ^ (64 : Nat) then some (.natural whole)
  else if n.plain && n.negative && 0 < whole && whole ≤ 2 ^ (63 : Nat) then
    some (.negative (whole - 1))
  else n.double?.map .real

end Numeral
end ColorChain.Json
