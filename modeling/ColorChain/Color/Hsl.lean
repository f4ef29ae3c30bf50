import ColorChain.Vector

/-! Hue, saturation and lightness against red, green and blue.

Hue is a fraction of a full turn and wraps. The formulas are stated over `Scalar`, so the
program's rounded conversion and the exact one over the rationals are one definition. -/
namespace ColorChain.Hsl
open Scalar

variable {α : Type} [Scalar α]

/-- The channel a third of a turn apart from its neighbours: `t` is the hue as this
channel sees it, `p` the least and `q` the greatest value a channel takes. -/
def channel (p q t : α) : α :=
  let t := if lt t zero then t + one else t
  let t := if lt one t then t - one else t
  if lt t (ratio 1 6) then p + (q - p) * ratio 6 1 * t
  else if lt t (ratio 1 2) then q
  else if lt t (ratio 2 3) then p + (q - p) * (ratio 2 3 - t) * ratio 6 1
  else p

/-- The colour of a hue, saturation and lightness. -/
def toRgb (c : Vec3 α) : Vec3 α :=
  let hue := fract c.x
  let saturation := c.y
  let lightness := c.z
  if same saturation zero then Vec3.splat lightness
  else
    let q :=
      if lt lightness (ratio 1 2) then lightness * (one + saturation)
      else lightness + saturation - lightness * saturation
    let p := ratio 2 1 * lightness - q
    ⟨channel p q (hue + ratio 1 3), channel p q hue, channel p q (hue - ratio 1 3)⟩

/-- The hue of a colour whose largest and smallest channels differ by `range`, in sixths
of a turn from red, possibly negative. -/
def sextant (c : Vec3 α) (largest range : α) : α :=
  if same c.x largest then (c.y - c.z) / range
  else if same c.y largest then ratio 2 1 + (c.z - c.x) / range
  else ratio 4 1 + (c.x - c.y) / range

/-- The hue, saturation and lightness of a colour. A grey has hue and saturation 0. -/
def ofRgb (c : Vec3 α) : Vec3 α :=
  let smallest := lower c.x (lower c.y c.z)
  let largest := upper c.x (upper c.y c.z)
  let lightness := (largest + smallest) / ratio 2 1
  if same largest smallest then ⟨zero, zero, lightness⟩
  else
    let range := largest - smallest
    let saturation :=
      if lt lightness (ratio 1 2) then range / (largest + smallest)
      else range / (ratio 2 1 - largest - smallest)
    let hue := sextant c largest range / ratio 6 1
    ⟨if lt hue zero then hue + one else hue, saturation, lightness⟩

/-- The colour of a hue in degrees with a saturation and a lightness. -/
def degreesToRgb (hue saturation lightness : α) : Vec3 α :=
  toRgb ⟨hue / ratio 360 1, saturation, lightness⟩

end ColorChain.Hsl
