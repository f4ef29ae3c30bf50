import ColorChain.Template

/-! Scanning a template from its front.

A text is searched for the first `$` with a digit behind it, all the digits there are taken, and the
search goes on behind them. Two passes over a template do this, each for itself: one collects the
local slots (`scan`), the other copies the text with the global slots in their place (`rewrite`).
Slots are counted in words of 64 bits. A sum beyond these is a fault of its own, so that none is
reached is to be shown. -/
namespace ColorChain.Template

/-- A run of digits behind a `$`, with the text on both sides. -/
structure Found where
  before : List Char
  digits : List Char
  after : List Char

/-- The first `$` with digits behind it, and all of these. -/
def search : List Char → Option Found
  | [] => none
  | c :: rest =>
    let digits := rest.takeWhile Text.isDecimalDigit
    if c = '$' && !digits.isEmpty then some ⟨[], digits, rest.dropWhile Text.isDecimalDigit⟩
    else (search rest).map fun found => { found with before := c :: found.before }

/-- What is left to search gets shorter. -/
theorem length_after_lt {cs : List Char} {found : Found} (h : search cs = some found) :
    found.after.length < cs.length := by
  induction cs generalizing found with
  | nil => cases h
  | cons c rest ih =>
    rw [search] at h
    split at h
    · cases h
      exact Nat.lt_succ_of_le (List.dropWhile_sublist _).length_le
    · obtain ⟨inner, hinner, rfl⟩ := Option.map_eq_some_iff.mp h
      have hlt := ih hinner
      exact Nat.lt_succ_of_lt hlt

/-- The local slots of a text. -/
def collect (cs : List Char) : List Nat :=
  match _ : search cs with
  | none => []
  | some found => (slotNumber? found.digits).toList ++ collect found.after
termination_by cs.length
decreasing_by exact length_after_lt ‹_›

/-- The local slots that a template refers to, in order of appearance. -/
def scan (template : String) : List Nat := collect template.toList

/-- A global slot that is no word: the sum of its base and a local slot has more than 64 bits. -/
structure Overflow where
  base : Nat
  slot : Nat
  deriving DecidableEq, Repr

/-- The slot that is the local slot `n` counted from `base`. -/
def globalSlot (base n : Nat) : Except Overflow Nat :=
  if base + n < 2 ^ (64 : Nat) then .ok (base + n) else .error ⟨base, n⟩

/-- What is put in the place of a `$` and its digits. -/
def substitute (base : Nat) (digits : List Char) : Except Overflow (List Char) :=
  match slotNumber? digits with
  | some n => (globalSlot base n).map reference
  | none => .ok ('$' :: digits)

/-- Copies a text behind what is written. -/
def copy (base : Nat) (written cs : List Char) : Except Overflow (List Char) :=
  match _ : search cs with
  | none => .ok (written ++ cs)
  | some found => do
    let put ← substitute base found.digits
    copy base (written ++ found.before ++ put) found.after
termination_by cs.length
decreasing_by exact length_after_lt ‹_›

/-- The template with its local slots counted from `base`. -/
def rewrite (template : String) (base : Nat) : Except Overflow String :=
  (copy base [] template.toList).map String.ofList

end ColorChain.Template
