import ColorChain.Toml.Numeral

/-! Strings in TOML text.

A basic string stands in double quotes and has escapes, a literal one in single quotes and
has none. Either may be opened by three quotes and then spans lines: a line end right after
the opening is dropped, every other counts as a line feed, and one or two quotes may stand
anywhere, also right before the three that close it. Every reader here starts after the
opening quotes. -/
namespace ColorChain.Toml.Reader

/-- A character that may stand for itself: no control character other than a tab. -/
def isPrintable (c : Char) : Bool := c = '\t' || (0x20 ≤ c.toNat && c.toNat ≠ 0x7f)

/-- Blanks within a line. -/
def isSpace (c : Char) : Bool := c = ' ' || c = '\t'

/-- The text after a line end. -/
def lineEnd? : List Char → Option (List Char)
  | '\n' :: rest => some rest
  | '\r' :: '\n' :: rest => some rest
  | _ => none

/-! ### Escapes -/

/-- The character that a letter after a backslash stands for. -/
def escaped? (c : Char) : Option Char :=
  if c = '"' || c = '\\' then some c
  else if c = 'b' then some (Char.ofNat 8)
  else if c = 't' then some '\t'
  else if c = 'n' then some '\n'
  else if c = 'f' then some (Char.ofNat 12)
  else if c = 'r' then some '\r'
  else none

/-- The character with the code point that the hexadecimal digits spell. -/
def codePoint? (ds : List Char) : Option Char :=
  let n := ofDigits 16 ds
  if ds.all (isDigitOf 16) && n.isValidChar then some (Char.ofNat n) else none

/-- Puts a character in front of a reading. -/
def prepend (c : Char) (r : Option (List Char × List Char)) : Option (List Char × List Char) :=
  r.map fun (s, rest) => (c :: s, rest)

/-! ### On one line -/

def basic : List Char → Option (List Char × List Char)
  | [] => none
  | '"' :: rest => some ([], rest)
  | '\\' :: 'u' :: a :: b :: c :: d :: rest => do
    prepend (← codePoint? [a, b, c, d]) (basic rest)
  | '\\' :: 'U' :: a :: b :: c :: d :: e :: f :: g :: h :: rest => do
    prepend (← codePoint? [a, b, c, d, e, f, g, h]) (basic rest)
  | '\\' :: c :: rest => do prepend (← escaped? c) (basic rest)
  | c :: rest => if isPrintable c && c ≠ '\\' then prepend c (basic rest) else none

def literal : List Char → Option (List Char × List Char)
  | [] => none
  | c :: rest =>
    if c = '\'' then some ([], rest)
    else if isPrintable c then prepend c (literal rest)
    else none

/-! ### Over several lines -/

/-- Whether only blanks stand before the end of the line. -/
def blankToLineEnd (s : List Char) : Bool := (lineEnd? (s.dropWhile isSpace)).isSome

/-- A basic string over several lines. A backslash at the end of a line leaves out the line
end and all blanks and line ends after it; `skipping` says that this is going on. -/
def basicLines (skipping : Bool) : List Char → Option (List Char × List Char)
  | [] => none
  | '"' :: '"' :: '"' :: '"' :: '"' :: rest => some (['"', '"'], rest)
  | '"' :: '"' :: '"' :: '"' :: rest => some (['"'], rest)
  | '"' :: '"' :: '"' :: rest => some ([], rest)
  | '\r' :: '\n' :: rest =>
    if skipping then basicLines true rest else prepend '\n' (basicLines false rest)
  | '\n' :: rest =>
    if skipping then basicLines true rest else prepend '\n' (basicLines false rest)
  | '\\' :: 'u' :: a :: b :: c :: d :: rest => do
    prepend (← codePoint? [a, b, c, d]) (basicLines false rest)
  | '\\' :: 'U' :: a :: b :: c :: d :: e :: f :: g :: h :: rest => do
    prepend (← codePoint? [a, b, c, d, e, f, g, h]) (basicLines false rest)
  | '\\' :: c :: rest => do
    if blankToLineEnd (c :: rest) then basicLines true (c :: rest)
    else prepend (← escaped? c) (basicLines false rest)
  | c :: rest =>
    if skipping && isSpace c then basicLines true rest
    else if isPrintable c && c ≠ '\\' then prepend c (basicLines false rest)
    else none

def literalLines : List Char → Option (List Char × List Char)
  | [] => none
  | '\'' :: '\'' :: '\'' :: '\'' :: '\'' :: rest => some (['\'', '\''], rest)
  | '\'' :: '\'' :: '\'' :: '\'' :: rest => some (['\''], rest)
  | '\'' :: '\'' :: '\'' :: rest => some ([], rest)
  | '\r' :: '\n' :: rest => prepend '\n' (literalLines rest)
  | c :: rest =>
    if c = '\n' || isPrintable c then prepend c (literalLines rest) else none

/-- The text without a line end at its front. -/
def afterLineEnd (s : List Char) : List Char := (lineEnd? s).getD s

/-- A string of any kind, from its opening quotes. -/
def quoted : List Char → Option (String × List Char)
  | '"' :: '"' :: '"' :: rest => text (basicLines false (afterLineEnd rest))
  | '"' :: rest => text (basic rest)
  | '\'' :: '\'' :: '\'' :: rest => text (literalLines (afterLineEnd rest))
  | '\'' :: rest => text (literal rest)
  | _ => none
where
  text (r : Option (List Char × List Char)) : Option (String × List Char) :=
    r.map fun (s, rest) => (String.ofList s, rest)

end ColorChain.Toml.Reader
