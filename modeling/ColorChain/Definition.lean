import ColorChain.Control
import ColorChain.Template

/-! Filter definitions: what a filter does, apart from any chosen values.

A definition turns control values into parameter slots, and slots with a colour into a
colour. The shader does the second step from its template. `Definition.fault?` checks the
contract between the two: as many slots are produced for the default values as the
definition declares, and the template refers to exactly that many. -/
namespace ColorChain

/-- How a filter changes a colour. -/
inductive Kernel where
  /-- A function of the whole colour and the slots. -/
  | direct (apply : Color → List Slot → Color)
  /-- A function of one channel and the same channel of a blend colour. -/
  | blend (mode : Single → Single → Single)

structure Definition where
  id : String
  name : String
  controls : List Control
  slotCount : Nat
  /-- The slots that a row of control values makes. -/
  vectorize : List ControlValue → List Slot
  kernel : Kernel
  /-- Shader text that changes `color`, with `$n` for slot `n`. -/
  template : String

/-- Slot `index`, or zero when there is none. -/
def slotAt (slots : List Slot) (index : Nat) : Slot :=
  slots[index]?.getD (.splat (.zero false))

/-- The number at `index`, or 0 when there is none. -/
def numberAt (values : List ControlValue) (index : Nat) : Single :=
  (values[index]?.map ControlValue.asNumber).getD (.zero false)

/-- The colour at `index`, or black when there is none. -/
def colorAt (values : List ControlValue) (index : Nat) : Color :=
  (values[index]?.map ControlValue.asColor).getD (.splat (.zero false))

/-- Why a definition does not keep the slot contract. -/
inductive DefinitionFault where
  | badId
  | duplicateControl (id : String)
  | emptyRange (id : String)
  | slotsProduced (found expected : Nat)
  | slotsReferenced (found expected : Nat)
  /-- The number of slots that a template refers to has more than 64 bits. -/
  | slotsBeyond (found : Nat)
  deriving DecidableEq, Repr

def DefinitionFault.reason : DefinitionFault → String
  | .badId => "id must be non-empty ASCII alphanumerics or '_'"
  | .duplicateControl id => s!"duplicate control id '{id}'"
  | .emptyRange id => s!"control '{id}' has min > max"
  | .slotsProduced found expected => s!"vectorize produced {found} slots, expected {expected}"
  | .slotsReferenced found expected =>
    s!"template references {found} slots, expected {expected}"
  | .slotsBeyond found => s!"template references {found} slots, which no word counts"

namespace Definition

def isBlend (d : Definition) : Bool :=
  match d.kernel with
  | .blend _ => true
  | .direct _ => false

def defaults (d : Definition) : List ControlValue := d.controls.map Control.default

/-- The result of a filter on a colour and its slots, not held within the unit range. A
blend mixes the blended colour in by the fourth component of its slot. -/
def apply (d : Definition) (color : Color) (slots : List Slot) : Color :=
  match d.kernel with
  | .direct apply => apply color slots
  | .blend mode =>
    let top := slotAt slots 0
    Vector.mix color (Vec3.zip mode color top.rgb) top.w

def evaluate (d : Definition) (color : Color) (values : List ControlValue) : Color :=
  d.apply color (d.vectorize values)

/-! ### The slot contract -/

def idChar (c : Char) : Bool := c.isAlphanum || c = '_'

def goodId (id : String) : Bool := !id.toList.isEmpty && id.toList.all idChar

theorem goodId_of_eq {id : String} {cs : List Char} (h : id = String.ofList cs)
    (hcs : (!cs.isEmpty && cs.all idChar) = true) : goodId id = true := by
  rw [goodId, h, String.toList_ofList]
  exact hcs

/-- The first control that repeats an id of `seen` or of a control before it, or whose
least value is above its greatest. -/
def controlFault? (seen : List String) : List Control → Option DefinitionFault
  | [] => none
  | c :: rest =>
    if seen.contains c.id then some (.duplicateControl c.id)
    else if c.range?.any fun range => range.max.lt range.min then some (.emptyRange c.id)
    else controlFault? (c.id :: seen) rest

/-- One more than the largest number in the list, 0 if it is empty. -/
def countTo (indexes : List Nat) : Nat := indexes.foldl (fun n i => max n (i + 1)) 0

/-- How many slots a template refers to. -/
def referenced (template : String) : Nat := countTo (Template.slots template)

/-- What is wrong with a definition, first things first. -/
def fault? (d : Definition) : Option DefinitionFault :=
  if !goodId d.id then some .badId
  else match controlFault? [] d.controls with
    | some fault => some fault
    | none =>
      let produced := (d.vectorize d.defaults).length
      if produced ≠ d.slotCount then some (.slotsProduced produced d.slotCount)
      else if 2 ^ (64 : Nat) ≤ referenced d.template then
        some (.slotsBeyond (referenced d.template))
      else if referenced d.template ≠ d.slotCount then
        some (.slotsReferenced (referenced d.template) d.slotCount)
      else none

theorem fault?_eq_none {d : Definition} (hid : goodId d.id = true)
    (hc : controlFault? [] d.controls = none)
    (hp : (d.vectorize d.defaults).length = d.slotCount) (hword : d.slotCount < 2 ^ (64 : Nat))
    (hr : referenced d.template = d.slotCount) : d.fault? = none := by
  simp [fault?, hid, hc, hp, hr, hword]

end Definition
end ColorChain
