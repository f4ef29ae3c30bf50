import ColorChain.Binary.Arithmetic

/-! The arithmetic that colour formulas need.

A formula written over `Scalar` can be read twice: over `Single`, where every operation
rounds and which the filters run on, and over the rationals, where the same formula is
exact. `ratio n d` is the constant `n / d`, in a binary format the nearest number to it. -/
namespace ColorChain

class Scalar (α : Type) extends Add α, Sub α, Mul α, Div α, Neg α where
  ratio : Nat → Nat → α
  floor : α → α
  abs : α → α
  lower : α → α → α
  upper : α → α → α
  lt : α → α → Bool
  same : α → α → Bool

instance {f : Format} : Scalar (Binary f) where
  ratio := Binary.ofRatio
  floor := Binary.floor
  abs := Binary.abs
  lower := Binary.lower
  upper := Binary.upper
  lt := Binary.lt
  same := Binary.same

instance : Scalar Rat where
  ratio n d := (n : Rat) / (d : Rat)
  floor x := x.floor
  abs x := if x < 0 then -x else x
  lower x y := if x < y then x else y
  upper x y := if y < x then x else y
  lt x y := decide (x < y)
  same x y := decide (x = y)

namespace Scalar

variable {α : Type} [Scalar α]

def zero : α := ratio 0 1

def one : α := ratio 1 1

/-- The part of `x` above the largest whole number not above it. -/
def fract (x : α) : α := x - floor x

/-- `x` held within `low` and `high`; what compares with neither stays as it is. -/
def clamp (x low high : α) : α :=
  if lt x low then low else if lt high x then high else x

/-- The blend that is `x` at `t = 0` and `y` at `t = 1`. -/
def mix (x y t : α) : α := x * (one - t) + y * t

end Scalar
end ColorChain
