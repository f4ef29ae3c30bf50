import ColorChain.Vector

/-! Computations operation by operation.

A `Traced` result comes with the operations that made it, in the order in which they were done.
Comparing numbers and choosing one of two makes no number and is no operation. What has to hold
of each single operation of a formula, such as that none of them divides by zero, can then be
said of the formula as a whole: an operation whose result a later choice drops is on record, too. -/
namespace ColorChain

/-- One operation with its operands. -/
inductive Operation where
  | add (x y : Single)
  | sub (x y : Single)
  | mul (x y : Single)
  | div (x y : Single)
  | floor (x : Single)
  | abs (x : Single)
  | lower (x y : Single)
  | upper (x y : Single)
  | ofInt (n : Int)
  deriving DecidableEq

namespace Operation

def result : Operation → Single
  | add x y => x + y
  | sub x y => x - y
  | mul x y => x * y
  | div x y => x / y
  | floor x => x.floor
  | abs x => x.abs
  | lower x y => x.lower y
  | upper x y => x.upper y
  | ofInt n => .ofInt n

def dividesByZero : Operation → Bool
  | div _ y => y.isZero
  | _ => false

/-- The operation does not divide by zero, and its result is a number. -/
structure Regular (o : Operation) : Prop where
  divisor : o.dividesByZero = false
  isNaN : o.result.isNaN = false

end Operation

structure Traced (α : Type) where
  result : α
  /-- The earliest first. -/
  operations : List Operation

namespace Traced

variable {α β : Type}

instance : Monad Traced where
  pure a := ⟨a, []⟩
  bind t f := ⟨(f t.result).result, t.operations ++ (f t.result).operations⟩

/-- All operations are regular. -/
def Regular (t : Traced α) : Prop := ∀ o ∈ t.operations, o.Regular

/-! ### Results

The result of a computation is what it would be without a record. -/

@[simp] theorem result_pure (a : α) : (pure a : Traced α).result = a := rfl

@[simp] theorem result_bind (t : Traced α) (f : α → Traced β) :
    (t >>= f).result = (f t.result).result := rfl

end Traced

/-- Does an operation. -/
def perform (o : Operation) : Traced Single := ⟨o.result, [o]⟩

@[simp] theorem result_perform (o : Operation) : (perform o).result = o.result := rfl

namespace Vec3

variable {α β γ : Type}

/-- A computation on each component, in order. -/
def traverse (f : α → Traced β) (v : Vec3 α) : Traced (Vec3 β) := do
  return ⟨← f v.x, ← f v.y, ← f v.z⟩

/-- A computation on the components of two vectors at the same place, in order. -/
def traverse₂ (f : α → β → Traced γ) (v : Vec3 α) (w : Vec3 β) : Traced (Vec3 γ) := do
  return ⟨← f v.x w.x, ← f v.y w.y, ← f v.z w.z⟩

theorem result_traverse₂ (f : α → β → Traced γ) (v : Vec3 α) (w : Vec3 β) :
    (v.traverse₂ f w).result =
      ⟨(f v.x w.x).result, (f v.y w.y).result, (f v.z w.z).result⟩ := rfl

end Vec3
end ColorChain
