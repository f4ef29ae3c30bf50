import ColorChain.Chain.Filter
import ColorChain.Color.Hsl

/-! Filter chains.

A chain starts from a colour given by hue in degrees, saturation and lightness, and
applies its visible filters from left to right. Every result is held within the unit range
before the next filter sees it. The filters have keys from a counter that only grows, so a
key once given out never comes to mean another filter. -/
namespace ColorChain

/-- A colour by hue in degrees, saturation and lightness. -/
structure Seed where
  hue : Single
  saturation : Single
  lightness : Single
  deriving DecidableEq, BEq

namespace Seed

/-- A light orange. -/
def default : Seed := ⟨30, 1, 0.75⟩

/-- The seed with its hue as a fraction of a turn. -/
def normalized (s : Seed) : Color := ⟨s.hue / 360, s.saturation, s.lightness⟩

def color (s : Seed) : Color := Hsl.degreesToRgb s.hue s.saturation s.lightness

end Seed

structure Chain where
  name : String
  seed : Seed
  filters : List Filter
  /-- The number of the next key. -/
  nextKey : Nat
  registry : Registry

inductive ChainError where
  | unknownFilter (id : String)
  | unknownKey (key : FilterKey)
  | indexOutOfRange (index length : Nat)
  | control (e : ControlError)
  deriving DecidableEq, Repr

def ChainError.message : ChainError → String
  | .unknownFilter id => s!"unknown filter '{id}'"
  | .unknownKey key => s!"no filter with key {key.text}"
  | .indexOutOfRange index length =>
    s!"index {index} is out of range for a chain of {length} filters"
  | .control e => e.message

namespace Chain

def defaultName : String := "Unnamed"

/-- The empty chain over a registry. -/
def new (registry : Registry) : Chain := ⟨defaultName, .default, [], 0, registry⟩

/-- Chains are equal when they show the same: name, seed and filters count, keys and
registries do not. -/
def same (c d : Chain) : Bool :=
  c.name == d.name && c.seed == d.seed && c.filters == d.filters

instance : BEq Chain := ⟨same⟩

/-! ### Looking up -/

def get? (c : Chain) (key : FilterKey) : Option Filter :=
  c.filters.find? fun f => f.key == key

def position? (c : Chain) (key : FilterKey) : Option Nat :=
  c.filters.findIdx? fun f => f.key == key

/-- The index of the filter under `key`, the chain's length if there is none. -/
def indexOf (c : Chain) (key : FilterKey) : Nat := c.filters.findIdx fun f => f.key == key

/-- The ids of the filters: all that a shader program depends on. -/
def ids (c : Chain) : List String := c.filters.map Filter.id

/-- The slots of all filters one after the other, hidden filters included. -/
def slots (c : Chain) : List Slot := c.filters.flatMap Filter.slots

def visibility (c : Chain) : List Bool := c.filters.map Filter.visible

/-! ### Evaluating -/

/-- The visible filters applied to a colour, every result held within the unit range. -/
def apply (c : Chain) (color : Color) : Color :=
  (c.filters.filter Filter.visible).foldl
    (fun color f => Vector.unitClamp (f.apply color)) color

/-- The colour that the chain makes of its seed. -/
def color (c : Chain) : Color := c.apply c.seed.color

/-! ### Editing

An edit that cannot be made returns its error and no chain. -/

def setName (c : Chain) (name : String) : Chain := { c with name }

def setSeed (c : Chain) (seed : Seed) : Chain := { c with seed }

/-- Puts a new filter at `index` and returns its key. -/
def insert (c : Chain) (index : Nat) (id : String) : Except ChainError (FilterKey × Chain) :=
  if c.filters.length < index then .error (.indexOutOfRange index c.filters.length)
  else match c.registry.get? id with
    | none => .error (.unknownFilter id)
    | some d =>
      let key : FilterKey := ⟨c.nextKey⟩
      .ok (key, { c with
        filters := c.filters.insertIdx index (.ofDefaults key d)
        nextKey := c.nextKey + 1 })

/-- Puts a new filter at the end and returns its key. -/
def add (c : Chain) (id : String) : Except ChainError (FilterKey × Chain) :=
  c.insert c.filters.length id

/-- Takes a filter out and returns it. -/
def remove (c : Chain) (key : FilterKey) : Except ChainError (Filter × Chain) :=
  match c.get? key with
  | none => .error (.unknownKey key)
  | some f => .ok (f, { c with filters := c.filters.eraseIdx (c.indexOf key) })

/-- Moves the filter at `source` so that it ends up at `target`. -/
def move (c : Chain) (source target : Nat) : Except ChainError Chain :=
  let length := c.filters.length
  match c.filters[source]? with
  | none => .error (.indexOutOfRange source length)
  | some f =>
    if target < length then
      .ok { c with filters := (c.filters.eraseIdx source).insertIdx target f }
    else .error (.indexOutOfRange target length)

/-- The chain with another filter in place of the one under `key`. -/
def replace (c : Chain) (key : FilterKey) (f : Filter) : Chain :=
  { c with filters := c.filters.set (c.indexOf key) f }

def setVisible (c : Chain) (key : FilterKey) (visible : Bool) : Except ChainError Chain :=
  match c.get? key with
  | none => .error (.unknownKey key)
  | some f => .ok (c.replace key { f with visible })

def setValue (c : Chain) (key : FilterKey) (control : Nat) (value : ControlValue) :
    Except ChainError Chain :=
  match c.get? key with
  | none => .error (.unknownKey key)
  | some f => match f.setValue control value with
    | .error e => .error (.control e)
    | .ok f => .ok (c.replace key f)

/-- Takes all filters out. The key counter stays. -/
def clear (c : Chain) : Chain := { c with filters := [] }

end Chain
end ColorChain
