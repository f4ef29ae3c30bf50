import ColorChain.Vector

/-! Rationals that remember a division by zero.

Division of rationals by zero has a value, so an exact formula does not tell whether it divides by
zero. Read over `Checked`, a third reading besides the rounded and the exact one, it does: a
division by zero gives no rational, and neither does any operation on what is none. A formula
that gives a rational has then not divided by zero on the way to it. -/
namespace ColorChain

inductive Checked where
  | value (q : Rat)
  | divisionByZero
  deriving DecidableEq

namespace Checked

def map (f : Rat → Rat) : Checked → Checked
  | value a => value (f a)
  | divisionByZero => divisionByZero

def map₂ (f : Rat → Rat → Rat) : Checked → Checked → Checked
  | value a, value b => value (f a b)
  | _, _ => divisionByZero

def div : Checked → Checked → Checked
  | value a, value b => if b = 0 then divisionByZero else value (a / b)
  | _, _ => divisionByZero

/-- A comparison, which holds of rationals only. -/
def test (r : Rat → Rat → Bool) : Checked → Checked → Bool
  | value a, value b => r a b
  | _, _ => false

instance : Scalar Checked where
  add := map₂ (· + ·)
  sub := map₂ (· - ·)
  mul := map₂ (· * ·)
  div := div
  neg := map (- ·)
  ratio n d := div (value n) (value d)
  floor := map Scalar.floor
  abs := map Scalar.abs
  lower := map₂ Scalar.lower
  upper := map₂ Scalar.upper
  lt := test Scalar.lt
  same := test Scalar.same

end Checked

/-- The components as values that no division by zero has gone into. -/
def Vec3.checked (c : Vec3 Rat) : Vec3 Checked := ⟨.value c.x, .value c.y, .value c.z⟩

end ColorChain
