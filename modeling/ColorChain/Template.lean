import ColorChain.Decimal.Basic
import ColorChain.Text

/-! Templates: shader text with placeholders for parameter slots.

A placeholder is a `$` with the decimal digits that follow it, as many as there are. One
that spells a slot number in ASCII digits stands for that local slot, and placing a
template at a base replaces it by the global slot. Any other run of digits after a `$`
stays as it is. -/
namespace ColorChain.Template

/-- The array of parameter slots in a shader program. -/
def paramArray : String := "_p"

inductive Piece where
  | text (c : Char)
  | placeholder (digits : List Char)
  deriving DecidableEq, Repr

/-- The digits at the front of a row of pieces, and the pieces after them. -/
def leadingDigits : List Piece → List Char × List Piece
  | .text c :: rest =>
    if Text.isDecimalDigit c then
      let (digits, rest) := leadingDigits rest
      (c :: digits, rest)
    else ([], .text c :: rest)
  | rest => ([], rest)

/-- The pieces of a text with a `$` in front: a placeholder if digits follow. -/
def mark (pieces : List Piece) : List Piece :=
  match leadingDigits pieces with
  | ([], _) => .text '$' :: pieces
  | (digits, rest) => .placeholder digits :: rest

/-- A template as characters and placeholders. -/
def pieces : List Char → List Piece
  | [] => []
  | c :: rest => if c = '$' then mark (pieces rest) else .text c :: pieces rest

/-- The text of a piece. -/
def Piece.spelling : Piece → List Char
  | .text c => [c]
  | .placeholder digits => '$' :: digits

theorem spelling_leadingDigits (ps : List Piece) :
    (leadingDigits ps).1 ++ (leadingDigits ps).2.flatMap Piece.spelling =
      ps.flatMap Piece.spelling := by
  fun_induction leadingDigits ps with
  | case1 c rest _ digits after h ih =>
    rw [h] at ih
    simpa [Piece.spelling] using ih
  | case2 => rfl
  | case3 => rfl

/-- Nothing of a template is lost in its pieces. -/
theorem spelling_pieces (cs : List Char) : (pieces cs).flatMap Piece.spelling = cs := by
  induction cs with
  | nil => rfl
  | cons c rest ih =>
    by_cases hc : c = '$'
    · have digits := spelling_leadingDigits (pieces rest)
      rw [pieces, if_pos hc, mark]
      split <;> rename_i h <;> rw [h] at digits <;> simp_all [Piece.spelling]
    · rw [pieces, if_neg hc, List.flatMap_cons, ih]
      rfl

/-- The slot number that a placeholder's digits spell: ASCII digits of a number below
`2 ^ 64`. -/
def slotNumber? (digits : List Char) : Option Nat :=
  if digits.all Char.isDigit then
    let n := ofDecimalDigits digits
    if n < 2 ^ (64 : Nat) then some n else none
  else none

/-- The local slot that a piece stands for. -/
def Piece.slot? : Piece → Option Nat
  | .text _ => none
  | .placeholder digits => slotNumber? digits

/-- The local slots that a template refers to, in order of appearance. -/
def slots (template : String) : List Nat := (pieces template.toList).filterMap Piece.slot?

theorem pieces_cons_of_ne {c : Char} (h : c ≠ '$') (rest : List Char) :
    pieces (c :: rest) = .text c :: pieces rest := by
  simp [pieces, h]

/-- Text without a `$` has no placeholder. -/
theorem pieces_append_of_notMem {cs : List Char} (h : '$' ∉ cs) (rest : List Char) :
    pieces (cs ++ rest) = cs.map .text ++ pieces rest := by
  induction cs with
  | nil => rfl
  | cons c cs ih =>
    rw [List.mem_cons, not_or] at h
    simp [pieces_cons_of_ne (Ne.symm h.1), ih h.2]

/-- What a text does not hold is seen on its characters. -/
theorem notMem_of_all {c : Char} {s : String} {cs : List Char} (h : s = String.ofList cs)
    (hcs : cs.all (· != c) = true) : c ∉ s.toList := by
  rw [h, String.toList_ofList]
  intro hc
  simpa using List.all_eq_true.mp hcs c hc

/-- Text without a `$` refers to no slot and does not change what follows it. -/
theorem slots_append_of_notMem {s t : String} (h : '$' ∉ s.toList) :
    slots (s ++ t) = slots t := by
  have none : s.toList.filterMap (Piece.slot? ∘ Piece.text) = [] :=
    List.filterMap_eq_nil_iff.mpr fun _ _ => rfl
  rw [slots, String.toList_append, pieces_append_of_notMem h, List.filterMap_append,
    List.filterMap_map, none, List.nil_append, slots]

/-- A reference to components of the first slot. -/
theorem slots_first_append (t : String) : slots ("$0." ++ t) = 0 :: slots t := by
  have digit : Text.isDecimalDigit '0' = true := by decide +kernel
  have point : Text.isDecimalDigit '.' = false := by decide +kernel
  have zero : Piece.slot? (.placeholder ['0']) = some 0 := by decide +kernel
  have text : Piece.slot? (.text '.') = none := rfl
  simp [slots, pieces, mark, leadingDigits, digit, point, zero, text]

/-- The text of global slot `n`. -/
def reference (n : Nat) : List Char := paramArray.toList ++ '[' :: decimalDigits n ++ [']']

/-- A piece placed at `base`. -/
def Piece.place (base : Nat) : Piece → List Char
  | .text c => [c]
  | .placeholder digits =>
    match slotNumber? digits with
    | some n => reference (base + n)
    | none => '$' :: digits

/-- The template with its local slots counted from `base`. -/
def place (template : String) (base : Nat) : String :=
  String.ofList ((pieces template.toList).flatMap (Piece.place base))

end ColorChain.Template
