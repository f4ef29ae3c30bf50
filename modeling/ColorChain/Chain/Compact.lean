import ColorChain.Chain.Loading
import ColorChain.Decimal.Display
import ColorChain.Decimal.Numeral
import ColorChain.Text

/-! The compact text of a chain.

A filter is a clause `id:field,field;` with one field for each control, and the chain is its
clauses followed by `~` and the name. Ids and fields contain none of the marks, and the
name is all that follows the first `~`, so it may contain anything. -/
namespace ColorChain

/-! ### Writing -/

/-- The text of a control's value: six digits for a colour, a displayed number. -/
def Control.fieldText (control : Control) : ControlValue → List Char
  | .color color => color.hexDigits
  | .number x => Display.number x control.precision

/-- A filter as a clause. -/
def Filter.clause (f : Filter) : List Char :=
  f.id.toList ++ ':' ::
    Text.join ',' (List.zipWith Control.fieldText f.definition.controls f.values) ++ [';']

/-- The compact text of a chain. -/
def Chain.encode (c : Chain) : String :=
  String.ofList (c.filters.flatMap Filter.clause ++ '~' :: c.name.toList)

/-! ### Reading -/

namespace Compact

/-- The number that a field spells between optional blanks, if it is finite. -/
def number? (field : List Char) : Option Single :=
  match Numeral.ofText? (Text.trim field) with
  | none => none
  | some numeral =>
    let x := numeral.toBinary
    if x.isFinite then some x else none

/-- Reads the field of a control. -/
def field (id : String) (control : Control) (text : List Char) :
    Except DecodeError ControlValue :=
  if control.isColor then
    match Color.ofHex? (String.ofList text) with
    | some color => .ok (.color color)
    | none => .error (.invalidColor id control.id (String.ofList text))
  else
    match number? text with
    | some x => .ok (.number x)
    | none => .error (.notANumber id control.id (String.ofList text))

/-- Reads the fields of a row of controls, each its own. -/
def fields (id : String) :
    List Control → List (List Char) → Except DecodeError (List ControlValue)
  | control :: controls, text :: texts => do
    let value ← field id control text
    let values ← fields id controls texts
    return value :: values
  | _, _ => .ok []

/-- The fields of a clause; no text at all is no field. -/
def splitFields (text : List Char) : List (List Char) :=
  if text.isEmpty then [] else Text.splitAll ',' text

/-- Reads a clause without its end mark. -/
def clause (r : Registry) (text : List Char) : Except DecodeError Entry :=
  match Text.splitFirst ':' text with
  | none | some ([], _) => .error (.malformedClause (String.ofList text))
  | some (id, rest) => do
    let id := String.ofList id
    let d ← r.lookup id
    let texts := splitFields rest
    if texts.length ≠ d.controls.length then
      .error (.arity id d.controls.length texts.length)
    else
      let values ← fields id d.controls texts
      return (d, values)

/-- Reads clauses without their end marks, up to the first that is wrong. -/
def clauses (r : Registry) : List (List Char) → Except DecodeError (List Entry)
  | [] => .ok []
  | text :: rest => do
    let entry ← clause r text
    let entries ← clauses r rest
    return entry :: entries

/-- Reads the clauses in front of a name. -/
def body (r : Registry) (text : List Char) : Except DecodeError (List Entry) :=
  if text.isEmpty then .ok []
  else match Text.beforeLast? ';' text with
    | none => .error (.malformedClause (String.ofList text))
    | some inner => clauses r (Text.splitAll ';' inner)

/-- Reads a chain's name and filters from compact text. -/
def read (r : Registry) (text : List Char) : Except DecodeError (String × List Entry) :=
  match Text.splitFirst '~' text with
  | none => .error .missingName
  | some (front, name) => do
    let entries ← body r front
    return (String.ofList name, entries)

end Compact
end ColorChain
