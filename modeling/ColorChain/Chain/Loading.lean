import ColorChain.Chain.Basic

/-! Replacing the filters of a chain by ones read from text.

Both text forms of a chain are read into a name and a row of entries before the chain
changes, and `Chain.load` then builds every filter before it gives out a chain: a text is
taken whole or not at all. -/
namespace ColorChain

/-- Why a text is not a chain over a registry. -/
inductive DecodeError where
  | unknownFilter (id : String)
  | arity (id : String) (expected found : Nat)
  | invalidColor (id control value : String)
  | notANumber (id control value : String)
  | missingArgument (id control : String)
  | malformedClause (text : String)
  | missingName
  /-- The text is not JSON. -/
  | jsonSyntax
  /-- The JSON value has not the shape of a saved chain. -/
  | jsonShape
  | control (e : ControlError)
  deriving DecidableEq, Repr

def DecodeError.message : DecodeError → String
  | .unknownFilter id => s!"unknown filter '{id}'"
  | .arity id expected found => s!"filter '{id}' takes {expected} arguments, found {found}"
  | .invalidColor id owner value =>
    s!"filter '{id}': '{value}' is not a valid color for '{owner}'"
  | .notANumber id owner value =>
    s!"filter '{id}': '{value}' is not a finite number for '{owner}'"
  | .missingArgument id owner => s!"filter '{id}' is missing argument '{owner}'"
  | .malformedClause text => s!"malformed clause '{text}'"
  | .missingName => "encoded chain has no '~' before its name"
  | .jsonSyntax => "invalid chain JSON: the text is not JSON"
  | .jsonShape => "invalid chain JSON: the value is not a saved chain"
  | .control e => e.message

/-- A filter as read: its definition and the values of its controls. -/
abbrev Entry := Definition × List ControlValue

/-- The definition under an id. -/
def Registry.lookup (r : Registry) (id : String) : Except DecodeError Definition :=
  match r.get? id with
  | some d => .ok d
  | none => .error (.unknownFilter id)

/-- Visible filters for the entries, with keys counted from `key`. -/
def Entry.filters (key : Nat) : List Entry → Except ControlError (List Filter)
  | [] => .ok []
  | (d, values) :: rest => do
    let f ← Filter.ofValues ⟨key⟩ d values
    let fs ← Entry.filters (key + 1) rest
    return f :: fs

namespace Chain

/-- The chain with the given name and filters in place of its own. -/
def load (c : Chain) (name : String) (entries : List Entry) : Except DecodeError Chain :=
  match Entry.filters c.nextKey entries with
  | .error e => .error (.control e)
  | .ok filters => .ok { c with name, filters, nextKey := c.nextKey + filters.length }

end Chain
end ColorChain
