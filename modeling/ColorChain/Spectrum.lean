import ColorChain.Chain.Basic

/-! Spectra: a chain over a sweep of seeds.

Each axis of an image may drive one of hue, saturation and lightness from 0 at its start to
1 at its end, or the other way round when inverted; what no axis drives keeps the seed's
value. The raster takes every pixel at its centre. The quad takes the four corners and
leaves what lies between to linear interpolation. -/
namespace ColorChain

/-- What an image axis drives. -/
inductive Axis where
  | none
  | hue
  | saturation
  | lightness
  deriving DecidableEq, Repr

namespace Axis

variable {α : Type}

/-- The vector with the axis's component set to `t`. -/
def sweep (axis : Axis) (hsl : Vec3 α) (t : α) : Vec3 α :=
  match axis with
  | .none => hsl
  | .hue => { hsl with x := t }
  | .saturation => { hsl with y := t }
  | .lightness => { hsl with z := t }

end Axis

/-- An axis and whether it runs from 1 to 0. -/
structure Direction where
  axis : Axis
  inverted : Bool
  deriving DecidableEq, Repr

namespace Spectrum
open Scalar

variable {α : Type} [Scalar α]

/-- A position counted from the other end, if inverted. -/
def along (inverted : Bool) (t : α) : α := if inverted then one - t else t

/-- The position of the centre of pixel `index` on an axis of `extent` pixels. -/
def position (index extent : Nat) (inverted : Bool) : α :=
  along inverted ((ratio index 1 + ratio 1 2) / ratio extent 1)

/-- The seed of a pixel: `y` drives its component first, then `x`. -/
def pixelSeed (base : Vec3 α) (x y : Direction) (width height column row : Nat) : Vec3 α :=
  x.axis.sweep (y.axis.sweep base (position row height y.inverted))
    (position column width x.inverted)

/-! ### The raster -/

/-- A colour as four bytes, opaque. -/
def pixelBytes (c : Color) : List UInt8 :=
  [Color.toByte c.x, Color.toByte c.y, Color.toByte c.z, 255]

/-- The raster of a chain: rows from the top, each from the left, four bytes a pixel. -/
def raster (c : Chain) (width height : Nat) (x y : Direction) : List UInt8 :=
  (List.range height).flatMap fun row =>
    (List.range width).flatMap fun column =>
      pixelBytes (c.apply (Hsl.toRgb (pixelSeed c.seed.normalized x y width height column row)))

/-- The raster as it is painted, into one growing row of bytes. What a line drives of the seed is set
once for all its pixels. Where the bytes of a pixel stand is nowhere said: it comes of the order in
which they are put down. -/
def paint (c : Chain) (width height : Nat) (x y : Direction) : Array UInt8 := Id.run do
  let base := c.seed.normalized
  let mut bytes := Array.emptyWithCapacity (width * height * 4)
  for row in List.range height do
    let line := y.axis.sweep base (position row height y.inverted)
    for column in List.range width do
      let seed := x.axis.sweep line (position column width x.inverted)
      bytes := bytes ++ pixelBytes (c.apply (Hsl.toRgb seed))
  return bytes

/-! ### The quad -/

/-- A corner of the quad: its place in clip space and its seed. -/
structure Vertex (α : Type) where
  x : α
  y : α
  hsl : Vec3 α
  deriving DecidableEq

/-- The vertex at a place in clip space, whose left and lower edges are at -1 and whose
right and upper edges are at 1. -/
def vertex (base : Vec3 α) (right down : Direction) (x y : α) : Vertex α :=
  let row := down.axis.sweep base (along down.inverted ((one - y) * ratio 1 2))
  ⟨x, y, right.axis.sweep row (along right.inverted ((x + one) * ratio 1 2))⟩

/-- Two triangles over the whole of clip space. -/
def quad (base : Vec3 α) (right down : Direction) : List (Vertex α) :=
  let corner := vertex base right down
  [corner (-one) (-one), corner one (-one), corner one one,
    corner (-one) (-one), corner one one, corner (-one) one]

end Spectrum
end ColorChain
