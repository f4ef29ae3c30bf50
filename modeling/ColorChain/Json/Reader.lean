import ColorChain.Json.Numeral

/-! Reading JSON text.

The reader takes one value with nothing but blanks around it. Of entries under one key in
an object the last counts. Arrays and objects may be nested 127 levels deep; text that goes
deeper is refused like any other text that is not JSON. -/
namespace ColorChain.Json.Reader

/-- The text without the blanks at its front. -/
def skipBlanks (s : List Char) : List Char :=
  s.dropWhile fun c => c = ' ' || c = '\n' || c = '\t' || c = '\r'

/-! ### Strings -/

/-- The value of four hexadecimal digits. -/
def hexWord? (a b c d : Char) : Option Nat := do
  return (← digit? a) * 4096 + (← digit? b) * 256 + (← digit? c) * 16 + (← digit? d)
where
  digit? (c : Char) : Option Nat :=
    if '0' ≤ c && c ≤ '9' then some (c.toNat - 48)
    else if 'a' ≤ c && c ≤ 'f' then some (c.toNat - 87)
    else if 'A' ≤ c && c ≤ 'F' then some (c.toNat - 55)
    else none

/-- The character that a letter after a backslash stands for. -/
def escaped? (c : Char) : Option Char :=
  if c = '"' || c = '\\' || c = '/' then some c
  else if c = 'b' then some (Char.ofNat 8)
  else if c = 'f' then some (Char.ofNat 12)
  else if c = 'n' then some '\n'
  else if c = 'r' then some '\r'
  else if c = 't' then some '\t'
  else none

/-- The first half of a character beyond the sixteen-bit range. -/
def isHighSurrogate (n : Nat) : Bool := 0xd800 ≤ n && n < 0xdc00

def isLowSurrogate (n : Nat) : Bool := 0xdc00 ≤ n && n < 0xe000

/-- Reads a string after its opening quote. A character beyond the sixteen-bit range may
be written as two escapes, and no half may stand alone. -/
def string? : List Char → Option (List Char × List Char)
  | [] => none
  | '"' :: rest => some ([], rest)
  | '\\' :: 'u' :: a :: b :: c :: d :: rest => do
    let n ← hexWord? a b c d
    if isLowSurrogate n then none
    else if isHighSurrogate n then
      match rest with
      | '\\' :: 'u' :: a :: b :: c :: d :: rest =>
        let low ← hexWord? a b c d
        if isLowSurrogate low then
          let (s, rest) ← string? rest
          return (Char.ofNat (0x10000 + (n - 0xd800) * 0x400 + (low - 0xdc00)) :: s, rest)
        else none
      | _ => none
    else
      let (s, rest) ← string? rest
      return (Char.ofNat n :: s, rest)
  | '\\' :: c :: rest => do
    let c ← escaped? c
    let (s, rest) ← string? rest
    return (c :: s, rest)
  | c :: rest => do
    if c.toNat < 32 || c = '\\' then none
    else
      let (s, rest) ← string? rest
      return (c :: s, rest)

/-! ### Values -/

mutual

/-- Reads a value that may hold `depth` further levels. The calls in one branch are at most
two for each character, which bounds `fuel`. -/
def value? (fuel depth : Nat) (s : List Char) : Option (Json × List Char) :=
  match fuel with
  | 0 => none
  | fuel + 1 =>
    match skipBlanks s with
    | 'n' :: 'u' :: 'l' :: 'l' :: rest => some (.null, rest)
    | 't' :: 'r' :: 'u' :: 'e' :: rest => some (.bool true, rest)
    | 'f' :: 'a' :: 'l' :: 's' :: 'e' :: rest => some (.bool false, rest)
    | '"' :: rest => do
      let (s, rest) ← string? rest
      return (.string (String.ofList s), rest)
    | '[' :: rest =>
      match depth with
      | 0 => none
      | depth + 1 =>
        match skipBlanks rest with
        | ']' :: rest => some (.array [], rest)
        | rest => do
          let (items, rest) ← items? fuel depth rest
          return (.array items, rest)
    | '\x7b' :: rest =>
      match depth with
      | 0 => none
      | depth + 1 =>
        match skipBlanks rest with
        | '\x7d' :: rest => some (.object [], rest)
        | rest => do
          let (entries, rest) ← entries? fuel depth rest
          return (.object (Fields.ofEntries entries), rest)
    | s => do
      let (numeral, rest) ← Numeral.scan? s
      let n ← numeral.value?
      return (.number n, rest)

/-- Reads the items of an array to its closing bracket. -/
def items? (fuel depth : Nat) (s : List Char) : Option (List Json × List Char) :=
  match fuel with
  | 0 => none
  | fuel + 1 => do
    let (item, rest) ← value? fuel depth s
    match skipBlanks rest with
    | ',' :: rest =>
      let (items, rest) ← items? fuel depth rest
      return (item :: items, rest)
    | ']' :: rest => return ([item], rest)
    | _ => none

/-- Reads the entries of an object to its closing brace. -/
def entries? (fuel depth : Nat) (s : List Char) : Option (List (String × Json) × List Char) :=
  match fuel with
  | 0 => none
  | fuel + 1 =>
    match skipBlanks s with
    | '"' :: rest => do
      let (key, rest) ← string? rest
      match skipBlanks rest with
      | ':' :: rest =>
        let (value, rest) ← value? fuel depth rest
        let entry := (String.ofList key, value)
        match skipBlanks rest with
        | ',' :: rest =>
          let (entries, rest) ← entries? fuel depth rest
          return (entry :: entries, rest)
        | '\x7d' :: rest => return ([entry], rest)
        | _ => none
      | _ => none
    | _ => none

end

/-- The deepest nesting that is read. -/
def maxDepth : Nat := 127

/-- Reads a text that is one JSON value. -/
def ofText? (s : List Char) : Option Json := do
  let (value, rest) ← value? (2 * s.length + 2) maxDepth s
  if (skipBlanks rest).isEmpty then some value else none

end ColorChain.Json.Reader

namespace ColorChain

/-- The value that a text spells. -/
def Json.parse? (text : String) : Option Json := Json.Reader.ofText? text.toList

end ColorChain
