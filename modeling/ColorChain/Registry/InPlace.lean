import ColorChain.Registry

/-! A registry that is held.

A program that holds a registry keeps three things apart on a shelf: a table in which a definition
is found by its id, the ids in the order of their registration, and the menu. The operations here
change them write by write, and an error leaves the shelf as the writes so far have made it. That
the table and the ids never disagree is then a fact about the order of checks and writes. -/
namespace ColorChain

/-- Definitions under ids. What is put under an id hides what is there already. -/
structure DefinitionTable where
  entries : List (String × Definition)

namespace DefinitionTable

def empty : DefinitionTable := ⟨[]⟩

def get? (t : DefinitionTable) (id : String) : Option Definition := t.entries.lookup id

def insert (t : DefinitionTable) (id : String) (d : Definition) : DefinitionTable :=
  ⟨(id, d) :: t.entries⟩

theorem get?_insert (t : DefinitionTable) (id id' : String) (d : Definition) :
    (t.insert id d).get? id' = if id' = id then some d else t.get? id' := by
  show (match id' == id with
    | true => some d
    | false => t.entries.lookup id') = _
  by_cases h : id' = id
  · rw [if_pos h, beq_iff_eq.mpr h]
  · rw [if_neg h, beq_eq_false_iff_ne.mpr h]
    rfl

end DefinitionTable

structure Shelf where
  table : DefinitionTable
  /-- The registered ids in the order of registration. -/
  ids : List String
  menuOrder : List String

namespace Shelf

def empty : Shelf := ⟨.empty, [], []⟩

def get? (s : Shelf) (id : String) : Option Definition := s.table.get? id

def contains (s : Shelf) (id : String) : Bool := (s.get? id).isSome

/-- The definitions that the menu shows, in menu order. -/
def menu (s : Shelf) : List Definition := s.menuOrder.filterMap s.get?

def menuReport (s : Shelf) : Registry.MenuReport where
  unlisted := s.ids.filter fun id => !s.menuOrder.contains id
  unknown := s.menuOrder.filter fun id => !s.contains id

end Shelf

/-- Work on a shelf. An error keeps the shelf as it is when the error arises. -/
abbrev Shelving (α : Type) := EStateM RegistryError Shelf α

namespace Shelving

def register (d : Definition) : Shelving Unit := do
  match d.fault? with
  | some fault => throw (.invalidDefinition d.id fault)
  | none =>
    if (← get).contains d.id then
      throw (.duplicate d.id)
    modify fun s => { s with ids := s.ids ++ [d.id] }
    modify fun s => { s with table := s.table.insert d.id d }

/-- Puts another menu up and reports what does not line up with it. -/
def setMenu (ids : List String) : Shelving Registry.MenuReport := do
  modify fun s => { s with menuOrder := ids }
  return (← get).menuReport

/-- What a step returns. -/
inductive Answer where
  | registered
  | menu (report : Registry.MenuReport)
  deriving DecidableEq, Repr

/-- Takes a step. -/
def perform : Registry.Step → Shelving Answer
  | .register d => do register d; return .registered
  | .setMenu ids => return .menu (← setMenu ids)

end Shelving

namespace Shelf

/-- The shelf after a step, taken or refused. -/
def after (s : Shelf) (e : Registry.Step) : Shelf :=
  match (Shelving.perform e).run s with
  | .ok _ s => s
  | .error _ s => s

/-- The shelf after a history of steps. -/
def history (s : Shelf) : List Registry.Step → Shelf
  | [] => s
  | e :: rest => history (s.after e) rest

end Shelf
end ColorChain
