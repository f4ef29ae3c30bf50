/-! Text: classes of characters, and how it is cut.

White space and decimal digits are those of all scripts. A text can be cut at marks, at line ends
and at bytes. In encoded text a character takes from one to four bytes, and a place in the text is
told by the number of bytes before it. Text can be cut between two characters and at its ends. A
place inside a character, or behind the end, is no place to cut, and whoever asks for it has to be
told so. -/
namespace ColorChain.Text

/-! ### White space -/

/-- White space of any kind: what separates words or lines, in every script. -/
def isBlank (c : Char) : Bool :=
  let n := c.toNat
  (9 ≤ n && n ≤ 13) || n = 0x20 || n = 0x85 || n = 0xa0 || n = 0x1680 ||
    (0x2000 ≤ n && n ≤ 0x200a) || n = 0x2028 || n = 0x2029 || n = 0x202f || n = 0x205f ||
    n = 0x3000

/-- The text in front of the characters of a class that end it. -/
def trimEnd (p : Char → Bool) (s : List Char) : List Char := (s.reverse.dropWhile p).reverse

/-- The text without the white space at its two ends. -/
def trim (s : List Char) : List Char := trimEnd isBlank (s.dropWhile isBlank)

/-! ### Digits -/

/-- The code points of the zeros of the scripts that have decimal digits. A script's digits stand in
a row from its zero to its nine. -/
def digitZeros : List Nat := [
  0x30, 0x660, 0x6f0, 0x7c0, 0x966, 0x9e6, 0xa66, 0xae6, 0xb66, 0xbe6, 0xc66, 0xce6, 0xd66,
  0xde6, 0xe50, 0xed0, 0xf20, 0x1040, 0x1090, 0x17e0, 0x1810, 0x1946, 0x19d0, 0x1a80, 0x1a90,
  0x1b50, 0x1bb0, 0x1c40, 0x1c50, 0xa620, 0xa8d0, 0xa900, 0xa9d0, 0xa9f0, 0xaa50, 0xabf0,
  0xff10, 0x104a0, 0x10d30, 0x10d40, 0x11066, 0x110f0, 0x11136, 0x111d0, 0x112f0, 0x11450,
  0x114d0, 0x11650, 0x116c0, 0x116d0, 0x116da, 0x11730, 0x118e0, 0x11950, 0x11bf0, 0x11c50,
  0x11d50, 0x11da0, 0x11f50, 0x16130, 0x16a60, 0x16ac0, 0x16b50, 0x16d70, 0x1ccf0, 0x1d7ce,
  0x1d7d8, 0x1d7e2, 0x1d7ec, 0x1d7f6, 0x1e140, 0x1e2f0, 0x1e4f0, 0x1e5f1, 0x1e950, 0x1fbf0]

/-- A decimal digit of some script. -/
def isDecimalDigit (c : Char) : Bool :=
  digitZeros.any fun first => first ≤ c.toNat && c.toNat < first + 10

/-! ### Cutting at marks -/

/-- The text before and after the first `mark`; `none` when there is none. -/
def splitFirst (mark : Char) : List Char → Option (List Char × List Char)
  | [] => none
  | c :: rest =>
    if c = mark then some ([], rest)
    else (splitFirst mark rest).map fun (before, after) => (c :: before, after)

/-- The text between the marks, one piece more than there are marks. -/
def splitAll (mark : Char) : List Char → List (List Char)
  | [] => [[]]
  | c :: rest =>
    if c = mark then [] :: splitAll mark rest
    else match splitAll mark rest with
      | [] => [[c]]
      | piece :: pieces => (c :: piece) :: pieces

/-- The pieces with a mark between each two. -/
def join (mark : Char) : List (List Char) → List Char
  | [] => []
  | [piece] => piece
  | piece :: pieces => piece ++ mark :: join mark pieces

/-- The text before a `mark` that ends it. -/
def beforeLast? (mark : Char) (s : List Char) : Option (List Char) :=
  if s.getLast? = some mark then some s.dropLast else none

/-- The lines of a text. A line ends at a line feed, and a carriage return right before
the line feed belongs to the line end. Nothing after the last line end is no line. -/
def lines (s : List Char) : List (List Char) :=
  let pieces := splitAll '\n' s
  let ended := pieces.dropLast.map fun line => (beforeLast? '\r' line).getD line
  match pieces.getLast? with
  | none | some [] => ended
  | some rest => ended ++ [rest]

/-! ### Cutting at bytes -/

/-- The number of bytes that the text takes. -/
def byteLength : List Char → Nat
  | [] => 0
  | c :: rest => c.utf8Size + byteLength rest

/-- The text before and after the first `n` bytes, if these end where a character ends. -/
def cut? : Nat → List Char → Option (List Char × List Char)
  | 0, s => some ([], s)
  | _ + 1, [] => none
  | n + 1, c :: rest =>
    if n + 1 < c.utf8Size then none
    else (cut? (n + 1 - c.utf8Size) rest).map fun (before, after) => (c :: before, after)

/-- The text from byte `start` up to byte `stop`, if it can be cut at both. -/
def slice? (start stop : Nat) (s : List Char) : Option (List Char) :=
  if stop < start then none
  else (cut? start s).bind fun (_, rest) =>
    (cut? (stop - start) rest).map fun (middle, _) => middle

end ColorChain.Text
