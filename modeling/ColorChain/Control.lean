import ColorChain.Color.Hex

/-! Controls: what a filter lets its user set.

A control holds either a number within a range or a colour. `Control.accept` is the only
way a value gets into a filter: it refuses a value of the other kind and a number that is
not finite, and holds everything else within the control's domain. -/
namespace ColorChain

/-- The current value of one control. -/
inductive ControlValue where
  | number (value : Single)
  | color (value : Color)
  deriving DecidableEq, BEq

namespace ControlValue

/-- The number of a value; a colour reads as 0. -/
def asNumber : ControlValue → Single
  | .number value => value
  | .color _ => .zero false

/-- The colour of a value; a number reads as black. -/
def asColor : ControlValue → Color
  | .number _ => .splat (.zero false)
  | .color value => value

end ControlValue

/-- The two kinds of value, as error texts name them. -/
inductive ValueKind where
  | numeric
  | color
  deriving DecidableEq, Repr

def ValueKind.name : ValueKind → String
  | .numeric => "numeric"
  | .color => "color"

inductive ControlError where
  | wrongKind (control : String) (expected : ValueKind)
  | nonFinite (control : String)
  | invalidColor (text : String)
  | unknownControl (index : Nat)
  deriving DecidableEq, Repr

def ControlError.message : ControlError → String
  | .wrongKind control expected => s!"control '{control}' expects a {expected.name} value"
  | .nonFinite control => s!"control '{control}' received a non-finite number"
  | .invalidColor text => s!"invalid color '{text}'"
  | .unknownControl index => s!"no control at index {index}"

/-- Reads a colour from hexadecimal text. -/
def Color.parse (text : String) : Except ControlError Color :=
  match Color.ofHex? text with
  | some color => .ok color
  | none => .error (.invalidColor text)

/-- The numbers a control takes, and how they are shown. -/
structure NumericRange where
  min : Single
  max : Single
  step : Single
  /-- Decimal places kept when a value is written. -/
  precision : UInt32
  deriving DecidableEq

/-- `x` held within the range. A not-a-number stays. -/
def NumericRange.clamp (range : NumericRange) (x : Single) : Single :=
  let x := if x.lt range.min then range.min else x
  if range.max.lt x then range.max else x

inductive ControlKind where
  /-- Free numeric entry. -/
  | number (default : Single) (range : NumericRange)
  /-- A bounded slider. -/
  | slider (default : Single) (range : NumericRange)
  /-- A colour picker. -/
  | color (default : Color)
  deriving DecidableEq

structure Control where
  id : String
  label : String
  kind : ControlKind
  deriving DecidableEq

namespace Control

def default (c : Control) : ControlValue :=
  match c.kind with
  | .number value _ | .slider value _ => .number value
  | .color value => .color value

/-- The range of a numeric control. -/
def range? (c : Control) : Option NumericRange :=
  match c.kind with
  | .number _ range | .slider _ range => some range
  | .color _ => none

def isColor (c : Control) : Bool := c.range?.isNone

/-- Decimal places of a control's numbers. -/
def precision (c : Control) : UInt32 := (c.range?.map NumericRange.precision).getD 0

/-- The value as the control stores it, or why it cannot be stored. -/
def accept (c : Control) (value : ControlValue) : Except ControlError ControlValue :=
  match c.range?, value with
  | some range, .number x =>
    if x.isFinite then .ok (.number (range.clamp x)) else .error (.nonFinite c.id)
  | none, .color color => .ok (.color (Vector.unitClamp color))
  | none, .number _ => .error (.wrongKind c.id .color)
  | some _, .color _ => .error (.wrongKind c.id .numeric)

end Control
end ColorChain
