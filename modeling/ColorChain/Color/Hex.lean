import ColorChain.Vector

/-! Colours as hexadecimal text.

A colour is written as six lower-case digits, two for each channel. The reader also takes
the short form with one digit for each channel, either letter case, and one leading `#`. -/
namespace ColorChain.Color

/-- A channel as a byte: held within 0 and 1, scaled to 255 and rounded. -/
def toByte (channel : Single) : UInt8 :=
  let scaled := (Scalar.clamp channel Scalar.zero Scalar.one * Binary.ofRatio 255 1).round
  UInt8.ofNat (scaled.truncate 0 255).toNat

def hexDigit (n : Nat) : Char := Nat.digitChar n

/-- A byte as two digits. -/
def hexByte (b : UInt8) : List Char := [hexDigit (b.toNat / 16), hexDigit (b.toNat % 16)]

def hexDigits (c : Color) : List Char :=
  hexByte (toByte c.x) ++ hexByte (toByte c.y) ++ hexByte (toByte c.z)

/-- The colour as six digits, without a mark in front. -/
def toHex (c : Color) : String := String.ofList (hexDigits c)

/-- The value of a hexadecimal digit of either case. -/
def hexValue? (c : Char) : Option Nat :=
  if '0' ≤ c && c ≤ '9' then some (c.toNat - '0'.toNat)
  else if 'a' ≤ c && c ≤ 'f' then some (c.toNat - 'a'.toNat + 10)
  else if 'A' ≤ c && c ≤ 'F' then some (c.toNat - 'A'.toNat + 10)
  else none

/-- The channel that a byte stands for. -/
def ofByte (n : Nat) : Single := Binary.ofRatio n 1 / Binary.ofRatio 255 1

/-- The colour that a row of digit values spells: three double or three single digits. -/
def ofDigits? : List Nat → Option Color
  | [r, r', g, g', b, b'] =>
    some ⟨ofByte (16 * r + r'), ofByte (16 * g + g'), ofByte (16 * b + b')⟩
  | [r, g, b] => some ⟨ofByte (17 * r), ofByte (17 * g), ofByte (17 * b)⟩
  | _ => none

/-- The text without its mark, if it has one. -/
def unmarked : List Char → List Char
  | '#' :: digits => digits
  | digits => digits

/-- Reads a colour; `none` when the text is not three or six digits after an optional
mark. -/
def ofHex? (text : String) : Option Color :=
  ((unmarked text.toList).mapM hexValue?).bind ofDigits?

end ColorChain.Color
