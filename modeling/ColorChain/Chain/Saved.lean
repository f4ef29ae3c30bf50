import ColorChain.Chain.Compact
import ColorChain.Json.Reader
import ColorChain.Json.Writer

/-! The JSON form of a chain.

A saved chain is its name and its filters, and a saved filter its id and the values of its
controls under the controls' ids. A number is saved as it is displayed, as an integer when
its control shows no decimal places; a colour is saved as `#` and six digits. Both records
may also be written as arrays of their two parts. -/
namespace ColorChain

structure SavedFilter where
  id : String
  args : Json.Fields

structure SavedChain where
  name : String
  filters : List SavedFilter

/-! ### Saving -/

/-- The whole part of a double as a 64-bit integer. -/
def Binary.toWord64 (x : Double) : Int := x.truncate (-2 ^ (63 : Nat)) (2 ^ (63 : Nat) - 1)

/-- The JSON value of a control's value. -/
def Control.saved (control : Control) : ControlValue → Json
  | .color color => .string (String.ofList ('#' :: color.hexDigits))
  | .number x =>
    let rounded := Display.rounded x control.precision
    if control.precision = 0 then .ofInt rounded.toWord64 else .ofDouble rounded

def Filter.saved (f : Filter) : SavedFilter where
  id := f.id
  args := Json.Fields.ofEntries <|
    List.zipWith (fun control value => (control.id, control.saved value))
      f.definition.controls f.values

def Chain.saved (c : Chain) : SavedChain := ⟨c.name, c.filters.map Filter.saved⟩

def SavedFilter.toJson (f : SavedFilter) : Json :=
  .object [("id", .string f.id), ("args", .object f.args)]

def SavedChain.toJson (c : SavedChain) : Json :=
  .object [("name", .string c.name), ("filters", .array (c.filters.map SavedFilter.toJson))]

/-- The chain as JSON text. -/
def Chain.toJsonText (c : Chain) : String := c.saved.toJson.render

/-! ### Reading -/

namespace Json

def string? : Json → Option String
  | .string s => some s
  | _ => none

def array? : Json → Option (List Json)
  | .array items => some items
  | _ => none

def object? : Json → Option Fields
  | .object fields => some fields
  | _ => none

/-- The two parts of a record: the values under two keys of an object, or the items of an
array of two. -/
def pair? (first second : String) : Json → Option (Json × Json)
  | .object fields => do return (← Fields.get? fields first, ← Fields.get? fields second)
  | .array [a, b] => some (a, b)
  | _ => none

end Json

/-- The saved filter that a JSON value is, if it has the shape of one. -/
def SavedFilter.ofJson? (j : Json) : Option SavedFilter := do
  let (id, args) ← j.pair? "id" "args"
  return ⟨← id.string?, ← args.object?⟩

/-- The saved chain that a JSON value is, if it has the shape of one. -/
def SavedChain.ofJson? (j : Json) : Option SavedChain := do
  let (name, filters) ← j.pair? "name" "filters"
  return ⟨← name.string?, ← (← filters.array?).mapM SavedFilter.ofJson?⟩

namespace SavedFilter

/-- The single-precision number of a JSON value, if it is one and finite. -/
def number? : Json → Option Single
  | .number n =>
    let x : Single := n.toDouble.convert
    if x.isFinite then some x else none
  | _ => none

/-- The colour that a JSON value spells. -/
def color? (j : Json) : Option Color := j.string?.bind Color.ofHex?

/-- Reads a control's argument. -/
def argument (id : String) (control : Control) (j : Json) : Except DecodeError ControlValue :=
  if control.isColor then
    match color? j with
    | some color => .ok (.color color)
    | none => .error (.invalidColor id control.id j.render)
  else
    match number? j with
    | some x => .ok (.number x)
    | none => .error (.notANumber id control.id j.render)

/-- Reads the arguments of a row of controls. Other arguments do not matter. -/
def arguments (f : SavedFilter) : List Control → Except DecodeError (List ControlValue)
  | [] => .ok []
  | control :: controls =>
    match Json.Fields.get? f.args control.id with
    | none => .error (.missingArgument f.id control.id)
    | some j => do
      let value ← argument f.id control j
      let values ← f.arguments controls
      return value :: values

def entry (r : Registry) (f : SavedFilter) : Except DecodeError Entry := do
  let d ← r.lookup f.id
  let values ← f.arguments d.controls
  return (d, values)

/-- Reads the saved filters up to the first that is wrong. -/
def entries (r : Registry) : List SavedFilter → Except DecodeError (List Entry)
  | [] => .ok []
  | f :: rest => do
    let entry ← f.entry r
    let entries ← entries r rest
    return entry :: entries

end SavedFilter

namespace Chain

/-- Replaces name and filters by those of a JSON value. -/
def loadJson (c : Chain) (j : Json) : Except DecodeError Chain :=
  match SavedChain.ofJson? j with
  | none => .error .jsonShape
  | some saved => do
    let entries ← SavedFilter.entries c.registry saved.filters
    c.load saved.name entries

/-- Replaces name and filters by those of a text: JSON if it starts with a brace, else
compact text. -/
def decode (c : Chain) (text : String) : Except DecodeError Chain :=
  if text.toList.head? = some '\x7b' then
    match Json.parse? text with
    | none => .error .jsonSyntax
    | some j => c.loadJson j
  else do
    let (name, entries) ← Compact.read c.registry text.toList
    c.load name entries

end Chain
end ColorChain
