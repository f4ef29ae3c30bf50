import ColorChain.Catalog

/-! The registry of filter definitions.

A registry holds definitions in the order of their registration, each valid and each under
an id of its own, and the order of the menu, which may name ids that are not registered.
`Registry.register` keeps both properties: it refuses a definition that breaks the slot
contract or whose id is taken. -/
namespace ColorChain

inductive RegistryError where
  | invalidDefinition (id : String) (fault : DefinitionFault)
  | duplicate (id : String)
  deriving DecidableEq, Repr

def RegistryError.message : RegistryError → String
  | .invalidDefinition id fault => s!"filter '{id}' is invalid: {fault.reason}"
  | .duplicate id => s!"filter '{id}' is already registered"

structure Registry where
  definitions : List Definition
  menuOrder : List String
  valid : ∀ d ∈ definitions, d.fault? = none
  distinct : (definitions.map Definition.id).Nodup

namespace Registry

def empty : Registry := ⟨[], [], by simp, by simp⟩

/-- The registered ids in the order of registration. -/
def ids (r : Registry) : List String := r.definitions.map Definition.id

def get? (r : Registry) (id : String) : Option Definition :=
  r.definitions.find? fun d => d.id == id

def contains (r : Registry) (id : String) : Bool := r.ids.contains id

def register (r : Registry) (d : Definition) : Except RegistryError Registry :=
  match hv : d.fault? with
  | some fault => .error (.invalidDefinition d.id fault)
  | none =>
    if hd : d.id ∈ r.ids then .error (.duplicate d.id)
    else .ok {
      definitions := r.definitions ++ [d]
      menuOrder := r.menuOrder
      valid := by
        intro e he
        rcases List.mem_append.mp he with he | he
        · exact r.valid e he
        · rw [List.mem_singleton.mp he]
          exact hv
      distinct := by
        rw [List.map_append, List.nodup_append]
        refine ⟨r.distinct, by simp, ?_⟩
        intro a ha b hb hab
        rw [hab, List.mem_singleton.mp hb] at ha
        exact hd ha }

/-- The registry after a registration: as before when the definition is refused. -/
def offer (r : Registry) (d : Definition) : Registry := (r.register d).toOption.getD r

/-- Registers the definitions one by one and leaves out those that are refused. -/
def registerAll (r : Registry) (ds : List Definition) : Registry := ds.foldl offer r

def setMenu (r : Registry) (ids : List String) : Registry := { r with menuOrder := ids }

/-- The definitions that the menu shows, in menu order. -/
def menu (r : Registry) : List Definition := r.menuOrder.filterMap r.get?

/-- Registered ids and menu entries that do not line up. -/
structure MenuReport where
  /-- Registered but absent from the menu. -/
  unlisted : List String
  /-- In the menu but not registered. -/
  unknown : List String
  deriving DecidableEq, Repr

def MenuReport.isClean (report : MenuReport) : Bool :=
  report.unlisted.isEmpty && report.unknown.isEmpty

def menuReport (r : Registry) : MenuReport where
  unlisted := r.ids.filter fun id => !r.menuOrder.contains id
  unknown := r.menuOrder.filter fun id => !r.contains id

/-! ### Histories -/

/-- A change to a registry. -/
inductive Step where
  | register (d : Definition)
  | setMenu (ids : List String)

/-- The registry after a step. -/
def step (r : Registry) : Step → Registry
  | .register d => r.offer d
  | .setMenu ids => r.setMenu ids

/-- The registry after a history. -/
def run (r : Registry) : List Step → Registry
  | [] => r
  | e :: rest => (r.step e).run rest

/-! ### The built-in registry -/

/-- The catalog with its menu. -/
def builtin : Registry where
  definitions := Catalog.definitions
  menuOrder := Catalog.menuOrder
  valid := Catalog.fault?_of_mem_definitions
  distinct := Catalog.nodup_ids

end Registry
end ColorChain
