import ColorChain.Scalar

/-! Vectors of three and four components.

A `Vec3` is a colour, or a hue with saturation and lightness; a `Vec4` is a parameter
slot. All operations act on each component by itself, and a single number stands for the
vector that holds it in every component. -/
namespace ColorChain

structure Vec3 (α : Type) where
  x : α
  y : α
  z : α
  deriving DecidableEq, BEq

structure Vec4 (α : Type) where
  x : α
  y : α
  z : α
  w : α
  deriving DecidableEq, BEq

namespace Vec3

variable {α : Type}

def splat (a : α) : Vec3 α := ⟨a, a, a⟩

def map (f : α → α) (v : Vec3 α) : Vec3 α := ⟨f v.x, f v.y, f v.z⟩

def zip (f : α → α → α) (v w : Vec3 α) : Vec3 α := ⟨f v.x w.x, f v.y w.y, f v.z w.z⟩

def toList (v : Vec3 α) : List α := [v.x, v.y, v.z]

/-- The slot with these three components and a fourth. -/
def extend (v : Vec3 α) (w : α) : Vec4 α := ⟨v.x, v.y, v.z, w⟩

end Vec3

namespace Vec4

variable {α : Type}

def splat (a : α) : Vec4 α := ⟨a, a, a, a⟩

def map (f : α → α) (v : Vec4 α) : Vec4 α := ⟨f v.x, f v.y, f v.z, f v.w⟩

def zip (f : α → α → α) (v w : Vec4 α) : Vec4 α :=
  ⟨f v.x w.x, f v.y w.y, f v.z w.z, f v.w w.w⟩

def toList (v : Vec4 α) : List α := [v.x, v.y, v.z, v.w]

/-- The first three components. -/
def rgb (v : Vec4 α) : Vec3 α := ⟨v.x, v.y, v.z⟩

end Vec4

/-- A vector with components of type `α`: what is written once for both arities. -/
class Vector (V : Type → Type) where
  splat : {α : Type} → α → V α
  map : {α : Type} → (α → α) → V α → V α
  zip : {α : Type} → (α → α → α) → V α → V α → V α

instance : Vector Vec3 := ⟨Vec3.splat, Vec3.map, Vec3.zip⟩

instance : Vector Vec4 := ⟨Vec4.splat, Vec4.map, Vec4.zip⟩

namespace Vector

variable {V : Type → Type} [Vector V] {α : Type} [Scalar α]

instance : Add (V α) := ⟨zip (· + ·)⟩
instance : Sub (V α) := ⟨zip (· - ·)⟩
instance : Mul (V α) := ⟨zip (· * ·)⟩
instance : Div (V α) := ⟨zip (· / ·)⟩
instance : Neg (V α) := ⟨map (- ·)⟩
instance : HAdd (V α) α (V α) := ⟨fun v a => map (· + a) v⟩
instance : HSub (V α) α (V α) := ⟨fun v a => map (· - a) v⟩
instance : HMul (V α) α (V α) := ⟨fun v a => map (· * a) v⟩
instance : HDiv (V α) α (V α) := ⟨fun v a => map (· / a) v⟩

def floor (v : V α) : V α := map Scalar.floor v

def fract (v : V α) : V α := map Scalar.fract v

def abs (v : V α) : V α := map Scalar.abs v

/-- Component by component the smaller one; where neither is smaller, that of `v`. -/
def min (v w : V α) : V α := zip (fun a b => if Scalar.lt b a then b else a) v w

/-- Component by component the larger one; where neither is larger, that of `v`. -/
def max (v w : V α) : V α := zip (fun a b => if Scalar.lt a b then b else a) v w

def clamp (v low high : V α) : V α := min (max v low) high

/-- Every component held within 0 and 1. -/
def unitClamp (v : V α) : V α := clamp v (splat Scalar.zero) (splat Scalar.one)

def mix (v w : V α) (t : α) : V α := v * (Scalar.one - t) + w * t

end Vector

/-- A colour by red, green and blue, or by hue, saturation and lightness. -/
abbrev Color := Vec3 Single

/-- One parameter slot. -/
abbrev Slot := Vec4 Single

end ColorChain
