import ColorChain.Decimal.Basic

/-! Numbers written as text.

A numeral is an optional sign and then either digits with an optional point and an
optional power of ten, or one of the words `inf`, `infinity` and `nan` in any letter
case. The digits before or after the point may be missing, but not both. -/
namespace ColorChain

/-- What a numeral says. -/
inductive Numeral where
  | decimal (d : Decimal)
  | infinity (negative : Bool)
  | nan (negative : Bool)
  deriving DecidableEq, Repr

namespace Numeral

/-- The sign in front of a number, and what follows it. -/
def sign : List Char → Bool × List Char
  | '-' :: rest => (true, rest)
  | '+' :: rest => (false, rest)
  | rest => (false, rest)

/-- The digits at the front, and what follows them. -/
def digits (s : List Char) : List Char × List Char := s.span Char.isDigit

/-- The power of ten at the end of a numeral: nothing at all, or a letter `e`, an
optional sign and at least one digit. -/
def power? : List Char → Option Int
  | [] => some 0
  | c :: rest =>
    if c = 'e' || c = 'E' then
      let (negative, rest) := sign rest
      let (ds, rest) := digits rest
      if ds.isEmpty || !rest.isEmpty then none
      else some (if negative then -(ofDecimalDigits ds : Int) else ofDecimalDigits ds)
    else none

/-- The digits after a point, if there is one, and what follows them. -/
def fraction : List Char → List Char × List Char
  | '.' :: rest => digits rest
  | rest => ([], rest)

/-- Reads the unsigned decimal that takes up the whole text. -/
def decimal? (negative : Bool) (s : List Char) : Option Decimal :=
  let (whole, rest) := digits s
  let (part, rest) := fraction rest
  if whole.isEmpty && part.isEmpty then none
  else (power? rest).map fun power =>
    ⟨negative, ofDecimalDigits (whole ++ part), power - part.length⟩

/-- Reads a numeral that takes up the whole text. -/
def ofText? (s : List Char) : Option Numeral :=
  let (negative, rest) := sign s
  let word := String.ofList (rest.map Char.toLower)
  if word = "inf" || word = "infinity" then some (.infinity negative)
  else if word = "nan" then some (.nan negative)
  else (decimal? negative rest).map .decimal

variable {f : Format}

def toBinary : Numeral → Binary f
  | .decimal d => d.toBinary
  | .infinity negative => .infinity negative
  | .nan negative => .ofIndex negative (f.infinityIndex ||| f.quietBit)

end Numeral
end ColorChain
