import ColorChain.Control
import ColorChain.Text

/-! Reading a colour from slices of text.

The digits of a colour are counted in bytes, and each channel is read from the slice of two bytes
where its digits stand. A slice that begins or ends inside a character is a fault of its own, apart
from all refusals, so that none is asked for is to be shown. Colours given as text are read this
way. -/
namespace ColorChain.Color

/-- Why no colour is read. -/
inductive ReadFault where
  | refused (e : ControlError)
  /-- The text cannot be cut at these bytes. -/
  | slice (start stop : Nat)
  deriving DecidableEq

/-- Whether a character is a hexadecimal digit of either case. -/
def isHexDigit (d : Char) : Bool := (hexValue? d).isSome

/-- The text without its plus, if it has one. -/
def withoutPlus : List Char → List Char
  | '+' :: digits => digits
  | digits => digits

/-- The number below 256 that a row of hexadecimal digits spells. A plus may stand in front. -/
def byte? (s : List Char) : Option Nat :=
  let digits := withoutPlus s
  if digits.isEmpty then none
  else ((digits.mapM hexValue?).map fun ns => ns.foldl (16 * · + ·) 0).filter (· < 256)

/-- The channel whose digits stand at byte `index` of `digits`, which were made of `text`. -/
def readChannel (text : String) (digits : List Char) (index : Nat) : Except ReadFault Single :=
  match Text.slice? index (index + 2) digits with
  | none => .error (.slice index (index + 2))
  | some pair =>
    match byte? pair with
    | none => .error (.refused (.invalidColor text))
    | some n => .ok (ofByte n)

def readChannels (text : String) (digits : List Char) : Except ReadFault Color := do
  return ⟨← readChannel text digits 0, ← readChannel text digits 2, ← readChannel text digits 4⟩

/-- Reads a colour from text of six or three digits, with a mark in front or without one. Three
digits are doubled first. -/
def read (text : String) : Except ReadFault Color :=
  let digits := unmarked text.toList
  if !digits.all isHexDigit then .error (.refused (.invalidColor text))
  else match Text.byteLength digits with
    | 6 => readChannels text digits
    | 3 => readChannels text (digits.flatMap fun d => [d, d])
    | _ => .error (.refused (.invalidColor text))

end ColorChain.Color
