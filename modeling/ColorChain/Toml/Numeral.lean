import ColorChain.Decimal.Numeral
import ColorChain.Toml.Basic

/-! Numbers, dates and times in TOML text.

Digits may be parted by single underscores. A decimal integer has no leading zeros and must
fit 64 bits, and so must one in base 16, 8 or 2, which has no sign. A float has a fraction, a
power of ten or both. Every reader here takes the longest form at the front of a text and
leaves the rest. -/
namespace ColorChain.Toml.Reader

/-! ### Digits -/

def isDigitOf (base : Nat) (c : Char) : Bool :=
  let c := c.toLower
  if c.isDigit then c.toNat - 48 < base
  else base = 16 && 'a' ≤ c && c ≤ 'f'

/-- Digits with single underscores between them, which are left out. -/
def digitRun (base : Nat) : List Char → Option (List Char × List Char)
  | [] => none
  | c :: rest =>
    if isDigitOf base c then
      match rest with
      | '_' :: rest => (digitRun base rest).map fun (ds, rest) => (c :: ds, rest)
      | d :: rest =>
        if isDigitOf base d then
          (digitRun base (d :: rest)).map fun (ds, rest) => (c :: ds, rest)
        else some ([c], d :: rest)
      | [] => some ([c], [])
    else none

def digitValue (c : Char) : Nat :=
  let c := c.toLower
  if c.isDigit then c.toNat - 48 else c.toNat - 87

def ofDigits (base : Nat) (ds : List Char) : Nat :=
  ds.foldl (fun n c => n * base + digitValue c) 0

/-- Decimal digits without leading zeros. -/
def wholeDigits : List Char → Option (List Char × List Char)
  | '0' :: rest => some (['0'], rest)
  | rest => digitRun 10 rest

/-! ### Integers -/

/-- The integers of 64 bits. -/
def fits (n : Int) : Bool := -2 ^ (63 : Nat) ≤ n && n < 2 ^ (63 : Nat)

def radixInteger (base : Nat) (s : List Char) : Option (Toml × List Char) := do
  let (ds, rest) ← digitRun base s
  let n := ofDigits base ds
  if fits n then some (.integer n, rest) else none

def integer : List Char → Option (Toml × List Char)
  | '0' :: 'x' :: rest => radixInteger 16 rest
  | '0' :: 'o' :: rest => radixInteger 8 rest
  | '0' :: 'b' :: rest => radixInteger 2 rest
  | s => do
    let (negative, s) := Numeral.sign s
    let (ds, rest) ← wholeDigits s
    let n : Int := if negative then -(ofDecimalDigits ds : Int) else ofDecimalDigits ds
    if fits n then some (.integer n, rest) else none

/-! ### Floats -/

/-- The power of ten after an `e`. -/
def power : List Char → Option (Int × List Char)
  | c :: rest => do
    if c = 'e' || c = 'E' then
      let (negative, rest) := Numeral.sign rest
      let (ds, rest) ← digitRun 10 rest
      return (if negative then -(ofDecimalDigits ds : Int) else ofDecimalDigits ds, rest)
    else none
  | [] => none

/-- What follows the whole part of a float: the digits of its fraction and the power of
ten. -/
def fractionAndPower : List Char → Option ((List Char × Int) × List Char)
  | '.' :: rest => do
    let (ds, rest) ← digitRun 10 rest
    match power rest with
    | some (p, rest) => return ((ds, p), rest)
    | none => return ((ds, 0), rest)
  | s => do
    let (p, rest) ← power s
    return (([], p), rest)

/-- The words `inf` and `nan`. -/
def specialFloat (negative : Bool) : List Char → Option (Double × List Char)
  | 'i' :: 'n' :: 'f' :: rest => some (.infinity negative, rest)
  | 'n' :: 'a' :: 'n' :: rest =>
    some (.ofIndex negative (Format.double.infinityIndex ||| Format.double.quietBit), rest)
  | _ => none

/-- A float. One too large for a double is refused unless it is negative. -/
def float (s : List Char) : Option (Toml × List Char) := do
  let (negative, s) := Numeral.sign s
  match specialFloat negative s with
  | some (x, rest) => return (.float x, rest)
  | none =>
    let (whole, rest) ← wholeDigits s
    let ((part, p), rest) ← fractionAndPower rest
    let d : Decimal := ⟨negative, ofDecimalDigits (whole ++ part), p - part.length⟩
    let x : Double := d.toBinary
    if x.isInfinite && !x.negative then none else return (.float x, rest)

/-! ### Dates and times -/

/-- A number of exactly `n` digits between `low` and `high`. -/
def field (n low high : Nat) (s : List Char) : Option (Nat × List Char) :=
  let ds := s.take n
  let value := ofDecimalDigits ds
  if ds.length = n && ds.all Char.isDigit && low ≤ value && value ≤ high then
    some (value, s.drop n)
  else none

/-- The given character. -/
def mark (c : Char) : List Char → Option (List Char)
  | d :: rest => if c = d then some rest else none
  | [] => none

def isLeapYear (year : Nat) : Bool := year % 4 = 0 && (year % 100 ≠ 0 || year % 400 = 0)

def daysIn (year month : Nat) : Nat :=
  if month = 2 then if isLeapYear year then 29 else 28
  else if month = 4 || month = 6 || month = 9 || month = 11 then 30
  else 31

/-- A date; the answer is what follows it. -/
def date (s : List Char) : Option (List Char) := do
  let (year, s) ← field 4 0 9999 s
  let s ← mark '-' s
  let (month, s) ← field 2 1 12 s
  let s ← mark '-' s
  let (_, s) ← field 2 1 (daysIn year month) s
  return s

/-- The fraction of a second, if there is one. -/
def afterFraction : List Char → List Char
  | '.' :: c :: rest => if c.isDigit then rest.dropWhile Char.isDigit else '.' :: c :: rest
  | rest => rest

def time (s : List Char) : Option (List Char) := do
  let (_, s) ← field 2 0 23 s
  let s ← mark ':' s
  let (_, s) ← field 2 0 59 s
  let s ← mark ':' s
  let (_, s) ← field 2 0 60 s
  return afterFraction s

/-- The distance from universal time. -/
def offset : List Char → Option (List Char)
  | c :: rest => do
    if c = 'Z' || c = 'z' then return rest
    else if c = '+' || c = '-' then
      let (_, s) ← field 2 0 23 rest
      let s ← mark ':' s
      let (_, s) ← field 2 0 59 s
      return s
    else none
  | [] => none

/-- What follows the time after a date, or the text itself when no time stands there. -/
def afterTime : List Char → List Char
  | c :: rest =>
    if c = 'T' || c = 't' || c = ' ' then
      match time rest with
      | some s => (offset s).getD s
      | none => c :: rest
    else c :: rest
  | [] => []

def datetime (s : List Char) : Option (Toml × List Char) :=
  match date s with
  | some rest => some (.datetime, afterTime rest)
  | none => (time s).map fun rest => (.datetime, rest)

/-- A date, a time or a number. -/
def numeral (s : List Char) : Option (Toml × List Char) := datetime s <|> float s <|> integer s

end ColorChain.Toml.Reader
