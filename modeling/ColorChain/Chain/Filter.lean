import ColorChain.Registry

/-! A filter of a chain: a definition with values for its controls. -/
namespace ColorChain

/-- A handle that stays with a filter while its position changes. -/
structure FilterKey where
  number : Nat
  deriving DecidableEq, Repr

def FilterKey.text (key : FilterKey) : String := s!"filter#{key.number}"

structure Filter where
  key : FilterKey
  definition : Definition
  values : List ControlValue
  visible : Bool

namespace Filter

/-- A visible filter with the default values of its definition. -/
def ofDefaults (key : FilterKey) (d : Definition) : Filter := ⟨key, d, d.defaults, true⟩

def id (f : Filter) : String := f.definition.id

/-- Gives control `index` a new value, if that control accepts it. -/
def setValue (f : Filter) (index : Nat) (value : ControlValue) : Except ControlError Filter :=
  match f.definition.controls[index]? with
  | none => .error (.unknownControl index)
  | some control => (control.accept value).map fun value =>
      { f with values := f.values.set index value }

/-- Gives the controls from `index` on the listed values, in order. -/
def setValues (f : Filter) (index : Nat) : List ControlValue → Except ControlError Filter
  | [] => .ok f
  | value :: rest => do
    let f ← f.setValue index value
    f.setValues (index + 1) rest

/-- A visible filter with the given values; controls without one keep their default. -/
def ofValues (key : FilterKey) (d : Definition) (values : List ControlValue) :
    Except ControlError Filter :=
  (ofDefaults key d).setValues 0 values

def slots (f : Filter) : List Slot := f.definition.vectorize f.values

/-- The result of the filter on a colour, whether it is visible or not. -/
def apply (f : Filter) (color : Color) : Color := f.definition.apply color f.slots

/-- Filters are equal when they do the same: the key does not count. -/
def same (f g : Filter) : Bool :=
  f.id == g.id && f.values == g.values && f.visible == g.visible

instance : BEq Filter := ⟨same⟩

end Filter
end ColorChain
