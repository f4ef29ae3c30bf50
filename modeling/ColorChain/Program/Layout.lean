import ColorChain.Registry

/-! Layouts: where the slots of a row of filters lie.

A program keeps the slots of all its filters in one array, in filter order, and a filter
owns the run of slots that starts where the runs before it end. A second array holds one
visibility flag for each filter, four flags a word. -/
namespace ColorChain

-- The zero of a sum is the core library's, whatever else is imported.
attribute [scoped instance (high)] Zero.ofOfNat0

/-- What a uniform block is measured by. -/
inductive Measure where
  | slots
  | filters
  | bytes
  deriving DecidableEq, Repr

def Measure.name : Measure → String
  | .slots => "slots"
  | .filters => "filters"
  | .bytes => "bytes"

inductive ProgramError where
  | unknownFilter (id : String)
  | tooManySlots (needed limit : Nat)
  /-- A refused program, with the whole fragment text. -/
  | compile (reason fragment : String)
  | uniformMismatch (measure : Measure) (expected found : Nat)
  deriving DecidableEq, Repr

def ProgramError.message : ProgramError → String
  | .unknownFilter id => s!"unknown filter '{id}'"
  | .tooManySlots needed limit => s!"chain needs {needed} parameter slots, the limit is {limit}"
  | .compile reason fragment => s!"failed to compile filter program: {reason}\n{fragment}"
  | .uniformMismatch measure expected found =>
    s!"uniform data does not match the program: expected {expected} {measure.name}, found {found}"

/-- The run of slots that a filter owns. -/
structure FilterSlots where
  id : String
  base : Nat
  count : Nat
  deriving DecidableEq, Repr

def FilterSlots.indexes (s : FilterSlots) : List Nat := List.range' s.base s.count

structure Layout where
  filters : List FilterSlots
  deriving DecidableEq, Repr

namespace Layout

def slotCount (l : Layout) : Nat := (l.filters.map FilterSlots.count).sum

def filterCount (l : Layout) : Nat := l.filters.length

/-- The length of the parameter array, which is never empty. -/
def paramLength (l : Layout) : Nat := max l.slotCount 1

/-- The length of the visibility array, which is never empty. -/
def visibleLength (l : Layout) : Nat := max ((l.filterCount + 3) / 4) 1

/-- The size of both arrays, sixteen bytes a word. -/
def byteSize (l : Layout) : Nat := (l.paramLength + l.visibleLength) * 16

/-- The runs of a row of definitions, the first from `base`. -/
def runs (base : Nat) : List Definition → List FilterSlots
  | [] => []
  | d :: rest => ⟨d.id, base, d.slotCount⟩ :: runs (base + d.slotCount) rest

def ofDefinitions (ds : List Definition) : Layout := ⟨runs 0 ds⟩

end Layout

namespace Registry

/-- The definitions of a row of ids, or the first id that has none. -/
def resolve (r : Registry) : List String → Except ProgramError (List Definition)
  | [] => .ok []
  | id :: rest =>
    match r.get? id with
    | none => .error (.unknownFilter id)
    | some d => do
      let ds ← r.resolve rest
      return d :: ds

/-- The layout of a row of ids. -/
def layout (r : Registry) (ids : List String) : Except ProgramError Layout :=
  (r.resolve ids).map Layout.ofDefinitions

end Registry
end ColorChain
