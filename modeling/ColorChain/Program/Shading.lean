import ColorChain.Program.Source
import ColorChain.Program.UniformBlock

/-! Shading: what a fragment program makes of a colour.

A program sees no chain. It has the runs of its layout, in filter order, and the two arrays
of its uniform block. The filter at a position is shown when its visibility flag is above
one half; then it works on the slots of its run, and the result is held within the unit
range. -/
namespace ColorChain

/-- The component at an index below 4; the last one at any other. -/
def Vec4.component {α : Type} (v : Vec4 α) : Nat → α
  | 0 => v.x
  | 1 => v.y
  | 2 => v.z
  | _ => v.w

namespace UniformBlock

/-- The visibility flag of the filter at a position, 0 past the last word. -/
def flagAt (b : UniformBlock) (position : Nat) : Single :=
  (b.visible[position / 4]?.getD zeroSlot).component (position % 4)

def shows (b : UniformBlock) (position : Nat) : Bool := Binary.lt 0.5 (b.flagAt position)

/-- The slots of a run. -/
def slotsOf (b : UniformBlock) (run : FilterSlots) : List Slot :=
  (b.params.drop run.base).take run.count

/-- The colour after the filter at a position. -/
def shadeFilter (r : Registry) (b : UniformBlock) (color : Color) (position : Nat)
    (run : FilterSlots) : Color :=
  if b.shows position then
    match r.get? run.id with
    | some d => Vector.unitClamp (d.apply color (b.slotsOf run))
    | none => color
  else color

/-- The colour after a row of filters, the first at `position`. -/
def shadeFrom (r : Registry) (b : UniformBlock) (position : Nat) (color : Color) :
    List FilterSlots → Color
  | [] => color
  | run :: rest => b.shadeFrom r (position + 1) (b.shadeFilter r color position run) rest

/-- The colour after all filters of a layout. -/
def shade (r : Registry) (l : Layout) (b : UniformBlock) (color : Color) : Color :=
  b.shadeFrom r 0 color l.filters

end UniformBlock
end ColorChain
