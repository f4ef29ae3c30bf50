import ColorChain.Decimal.Shortest
import ColorChain.Json.Basic

/-! JSON values as text, without any blanks. -/
namespace ColorChain.Json

/-! ### Strings -/

/-- A character inside a quoted string. -/
def escape (c : Char) : List Char :=
  if c = '"' then ['\\', '"']
  else if c = '\\' then ['\\', '\\']
  else if c = '\n' then ['\\', 'n']
  else if c = '\r' then ['\\', 'r']
  else if c = '\t' then ['\\', 't']
  else if c = Char.ofNat 8 then ['\\', 'b']
  else if c = Char.ofNat 12 then ['\\', 'f']
  else if c.toNat < 32 then
    ['\\', 'u', '0', '0', Nat.digitChar (c.toNat / 16), Nat.digitChar (c.toNat % 16)]
  else [c]

def quote (s : String) : List Char := '"' :: s.toList.flatMap escape ++ ['"']

/-! ### Numbers -/

/-- The digits of a decimal with a point after the first, if there are more, and the power
of ten with its sign. -/
def scientific (d : Decimal) : List Char :=
  let ds := decimalDigits d.coefficient
  let power := d.exponent + ds.length - 1
  let mantissa := match ds with
    | [] => []
    | [c] => [c]
    | c :: rest => c :: '.' :: rest
  signText d.negative ++ mantissa ++ 'e' :: (if power < 0 then '-' else '+') ::
    decimalDigits power.natAbs

/-- The text of a finite double: the shortest that reads back, always with a point or a
power of ten. A power of ten is used from `1e+16` upwards and below `1e-5`. -/
def realText (x : Double) : List Char :=
  let d := x.shortest .toEven
  let power := d.exponent + (decimalDigits d.coefficient).length - 1
  if d.coefficient = 0 then d.positional ++ ['.', '0']
  else if 16 ≤ power || power < -5 then scientific d
  else if 0 ≤ d.exponent then d.positional ++ ['.', '0']
  else d.positional

def numberText : JsonNumber → List Char
  | .natural n => decimalDigits n
  | .negative n => '-' :: decimalDigits (n + 1)
  | .real x => realText x

/-! ### Values -/

mutual

/-- The text of a value. -/
def text : Json → List Char
  | .null => "null".toList
  | .bool b => if b then "true".toList else "false".toList
  | .number n => numberText n
  | .string s => quote s
  | .array items => '[' :: itemsText items ++ [']']
  | .object fields => '\x7b' :: fieldsText fields ++ ['\x7d']

/-- The items of an array with commas between them. -/
def itemsText : List Json → List Char
  | [] => []
  | [item] => item.text
  | item :: rest => item.text ++ ',' :: itemsText rest

/-- The fields of an object with commas between them. -/
def fieldsText : List (String × Json) → List Char
  | [] => []
  | [(key, value)] => quote key ++ ':' :: value.text
  | (key, value) :: rest => quote key ++ ':' :: value.text ++ ',' :: fieldsText rest

end

/-- The text of a value as a string. -/
def render (j : Json) : String := String.ofList j.text

end ColorChain.Json
