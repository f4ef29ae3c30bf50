import ColorChain.Toml.Quoted

/-! Reading TOML documents.

A document is a row of lines: pairs of a key and a value, headers, comments and blank
lines. A pair belongs to the last header before it. Arrays and inline tables may be nested
79 levels deep, and a key may have as many parts. -/
namespace ColorChain.Toml.Reader

def skipSpaces (s : List Char) : List Char := s.dropWhile isSpace

/-- The text without a comment at its front. -/
def skipComment : List Char → List Char
  | '#' :: rest => rest.dropWhile isPrintable
  | s => s

/-- The rest after the end of a line, on which only blanks and a comment are left. -/
def endOfLine (s : List Char) : Option (List Char) :=
  match skipComment (skipSpaces s) with
  | [] => some []
  | rest => lineEnd? rest

/-- The text without blanks, line ends and comments at its front. Each line takes one unit
of `fuel`. -/
def skipLines (s : List Char) : Nat → List Char
  | 0 => s
  | fuel + 1 =>
    let s := skipSpaces s
    match lineEnd? (skipComment s) with
    | some rest => skipLines rest fuel
    | none => s

/-! ### Keys -/

def isBare (c : Char) : Bool := c.isAlphanum || c = '-' || c = '_'

/-- One part of a key: bare, or a string on one line. -/
def keyPart : List Char → Option (String × List Char)
  | '"' :: rest => (basic rest).map fun (s, rest) => (String.ofList s, rest)
  | '\'' :: rest => (literal rest).map fun (s, rest) => (String.ofList s, rest)
  | s =>
    let bare := s.takeWhile isBare
    if bare.isEmpty then none else some (String.ofList bare, s.drop bare.length)

/-- The parts of a key, at most `fuel` of them, with blanks around each. -/
def keyParts (s : List Char) : Nat → Option (List String × List Char)
  | 0 => none
  | fuel + 1 => do
    let (part, rest) ← keyPart (skipSpaces s)
    match skipSpaces rest with
    | '.' :: rest =>
      let (parts, rest) ← keyParts rest fuel
      return (part :: parts, rest)
    | rest => return ([part], rest)

/-- How deep values and keys may go. -/
def maxDepth : Nat := 79

def key (s : List Char) : Option (List String × List Char) := keyParts s maxDepth

/-! ### Values -/

mutual

/-- Reads a value that may hold `depth` further levels. The calls in one branch are at most
two for each character, which bounds `fuel`. -/
def value (fuel depth : Nat) (s : List Char) : Option (Toml × List Char) :=
  match fuel with
  | 0 => none
  | fuel + 1 =>
    match s with
    | '[' :: rest =>
      match depth with
      | 0 => none
      | depth + 1 => (items fuel depth rest).map fun (items, rest) => (.array items, rest)
    | '\x7b' :: rest =>
      match depth with
      | 0 => none
      | depth + 1 =>
        match skipSpaces rest with
        | '\x7d' :: rest => some (.table [], rest)
        | rest => do
          let (pairs, rest) ← inlinePairs fuel depth rest
          return (← ofPairs? pairs, rest)
    | 't' :: 'r' :: 'u' :: 'e' :: rest => some (.boolean true, rest)
    | 'f' :: 'a' :: 'l' :: 's' :: 'e' :: rest => some (.boolean false, rest)
    | s =>
      match s.head? with
      | some '"' | some '\'' => (quoted s).map fun (s, rest) => (.string s, rest)
      | _ => numeral s

/-- Reads the items of an array to its closing bracket. A comma may follow the last one. -/
def items (fuel depth : Nat) (s : List Char) : Option (List Toml × List Char) :=
  match fuel with
  | 0 => none
  | fuel + 1 =>
    match skipLines s s.length with
    | ']' :: rest => some ([], rest)
    | s => do
      let (item, rest) ← value fuel depth s
      match skipLines rest rest.length with
      | ',' :: rest =>
        let (more, rest) ← items fuel depth rest
        return (item :: more, rest)
      | ']' :: rest => return ([item], rest)
      | _ => none

/-- Reads the pairs of an inline table to its closing brace. -/
def inlinePairs (fuel depth : Nat) (s : List Char) : Option (List Entries.Pair × List Char) :=
  match fuel with
  | 0 => none
  | fuel + 1 => do
    let (key, rest) ← key s
    let rest ← mark '=' rest
    let (v, rest) ← value fuel depth (skipSpaces rest)
    match skipSpaces rest with
    | ',' :: rest =>
      let (pairs, rest) ← inlinePairs fuel depth rest
      return ((key, v) :: pairs, rest)
    | '\x7d' :: rest => return ([(key, v)], rest)
    | _ => none

end

/-! ### Lines -/

/-- What a line of a document says. -/
inductive Line where
  | blank
  | header (element : Bool) (path : List String)
  | pair (key : List String) (v : Toml)

/-- Reads a line and its end. -/
def line (s : List Char) : Option (Line × List Char) :=
  match skipSpaces s with
  | '[' :: '[' :: rest => do
    let (path, rest) ← key rest
    let rest ← mark ']' (← mark ']' rest)
    return (.header true path, ← endOfLine rest)
  | '[' :: rest => do
    let (path, rest) ← key rest
    return (.header false path, ← endOfLine (← mark ']' rest))
  | s =>
    match endOfLine s with
    | some rest => some (.blank, rest)
    | none => do
      let (key, rest) ← key s
      let rest ← mark '=' rest
      let (v, rest) ← value (2 * rest.length + 2) maxDepth (skipSpaces rest)
      return (.pair key v, ← endOfLine rest)

/-- Reads the lines of a document, at most `fuel` of them. -/
def lines (s : List Char) : Nat → Option (List Line)
  | 0 => if s.isEmpty then some [] else none
  | fuel + 1 =>
    if s.isEmpty then some []
    else do
      let (l, rest) ← line s
      return l :: (← lines rest fuel)

/-- The pairs before the first header, and the headers each with the pairs after it. -/
def sections : List Line → List Entries.Pair × List Section
  | [] => ([], [])
  | .blank :: rest => sections rest
  | .pair key v :: rest =>
    let (pairs, parts) := sections rest
    ((key, v) :: pairs, parts)
  | .header element path :: rest =>
    let (pairs, parts) := sections rest
    ([], ⟨element, path, pairs⟩ :: parts)

/-- The text without a byte order mark at its front. -/
def unmarked : List Char → List Char
  | c :: rest => if c.toNat = 0xfeff then rest else c :: rest
  | [] => []

/-- The document that a text spells. -/
def ofText? (s : List Char) : Option Toml := do
  let (pairs, parts) := sections (← lines s s.length)
  ofSections? pairs parts

end ColorChain.Toml.Reader

namespace ColorChain

/-- The document that a text spells. -/
def Toml.parse? (text : String) : Option Toml :=
  Toml.Reader.ofText? (Toml.Reader.unmarked text.toList)

end ColorChain
