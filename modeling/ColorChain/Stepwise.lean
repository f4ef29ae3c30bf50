import ColorChain.Chain.Basic
import ColorChain.Trace

/-! Filters operation by operation.

What the built-in filters do to a colour, with every operation on record: the slots made of the
control values, then the kernel. The formulas are those of `Hsl` and `Catalog`, each operation
in its place there. -/
namespace ColorChain.Stepwise

/-! ### Vectors and hues -/

def mix (v w : Color) (t : Single) : Traced Color := do
  let rest ← perform (.sub 1 t)
  let kept ← v.traverse fun a => perform (.mul a rest)
  let added ← w.traverse fun b => perform (.mul b t)
  kept.traverse₂ (fun a b => perform (.add a b)) added

def fract (x : Single) : Traced Single := do
  let whole ← perform (.floor x)
  perform (.sub x whole)

/-- A hue less than a turn away from the first turn, moved there. -/
def turn (t : Single) : Traced Single := do
  let t ← (if t.lt 0 then perform (.add t 1) else pure t : Traced Single)
  if Binary.lt 1 t then perform (.sub t 1) else pure t

def channel (p q t : Single) : Traced Single := do
  let t ← turn t
  if t.lt (Scalar.ratio 1 6) then
    let range ← perform (.sub q p)
    let sixfold ← perform (.mul range 6)
    let above ← perform (.mul sixfold t)
    perform (.add p above)
  else if t.lt (Scalar.ratio 1 2) then pure q
  else if t.lt (Scalar.ratio 2 3) then
    let range ← perform (.sub q p)
    let rest ← perform (.sub (Scalar.ratio 2 3) t)
    let scaled ← perform (.mul range rest)
    let above ← perform (.mul scaled 6)
    perform (.add p above)
  else pure p

/-- The greatest value that a channel takes at a saturation and a lightness. -/
def greatest (saturation lightness : Single) : Traced Single :=
  if lightness.lt (Scalar.ratio 1 2) then do
    let factor ← perform (.add 1 saturation)
    perform (.mul lightness factor)
  else do
    let sum ← perform (.add lightness saturation)
    let product ← perform (.mul lightness saturation)
    perform (.sub sum product)

def toRgb (c : Color) : Traced Color := do
  let hue ← fract c.x
  if c.y.same 0 then pure (Vec3.splat c.z)
  else
    let q ← greatest c.y c.z
    let double ← perform (.mul 2 c.z)
    let p ← perform (.sub double q)
    let before ← perform (.add hue (Scalar.ratio 1 3))
    let behind ← perform (.sub hue (Scalar.ratio 1 3))
    return ⟨← channel p q before, ← channel p q hue, ← channel p q behind⟩

/-- How far two channels are apart, in ranges. -/
def offset (x y range : Single) : Traced Single := do
  let difference ← perform (.sub x y)
  perform (.div difference range)

def sextant (c : Color) (largest range : Single) : Traced Single :=
  if c.x.same largest then offset c.y c.z range
  else if c.y.same largest then do
    let quotient ← offset c.z c.x range
    perform (.add 2 quotient)
  else do
    let quotient ← offset c.x c.y range
    perform (.add 4 quotient)

/-- The saturation of a colour whose extreme channels differ by `range`. -/
def saturation (largest smallest range lightness : Single) : Traced Single :=
  if lightness.lt (Scalar.ratio 1 2) then do
    let sum ← perform (.add largest smallest)
    perform (.div range sum)
  else do
    let below ← perform (.sub 2 largest)
    let rest ← perform (.sub below smallest)
    perform (.div range rest)

/-- The hue, saturation and lightness of a colour with the given extreme channels. -/
def ofExtremes (c : Color) (largest smallest lightness : Single) : Traced Color :=
  if largest.same smallest then pure ⟨0, 0, lightness⟩
  else do
    let range ← perform (.sub largest smallest)
    let saturation ← saturation largest smallest range lightness
    let sixths ← sextant c largest range
    let hue ← perform (.div sixths 6)
    let hue ← (if hue.lt 0 then perform (.add hue 1) else pure hue : Traced Single)
    return ⟨hue, saturation, lightness⟩

def ofRgb (c : Color) : Traced Color := do
  let smaller ← perform (.lower c.y c.z)
  let smallest ← perform (.lower c.x smaller)
  let larger ← perform (.upper c.y c.z)
  let largest ← perform (.upper c.x larger)
  let sum ← perform (.add largest smallest)
  let lightness ← perform (.div sum 2)
  ofExtremes c largest smallest lightness

/-- One filter: its slots for a row of control values, and its kernel. -/
structure Evaluation where
  definition : Definition
  vectorize : List ControlValue → Traced (List Slot)
  kernel : Color → List Slot → Traced Color

/-! ### Direct filters -/

def posterize : Evaluation where
  definition := Catalog.posterize
  vectorize values := do
    let levels := numberAt values 0
    let steps ← perform (.sub levels 1)
    return [⟨levels, steps, 0, 0⟩]
  kernel color slots := do
    let factor := slotAt slots 0
    let scaled ← color.traverse fun a => perform (.mul a factor.x)
    let whole ← scaled.traverse fun a => perform (.floor a)
    whole.traverse fun a => perform (.div a factor.y)

def brightnessContrast : Evaluation where
  definition := Catalog.brightnessContrast
  vectorize values := do
    let brightness ← perform (.div (numberAt values 0) 100)
    let contrast ← perform (.div (numberAt values 1) 100)
    return [⟨brightness, contrast, 0, 0⟩]
  kernel color slots := do
    let params := slotAt slots 0
    let moved ← color.traverse fun a => perform (.sub a 0.5)
    let scale ← perform (.add 1 params.y)
    let scaled ← moved.traverse fun a => perform (.mul a scale)
    let back ← scaled.traverse fun a => perform (.add a 0.5)
    back.traverse fun a => perform (.add a params.x)

def combineHsl (combine : Single → Single → Operation) (color : Color) (slot : Slot) :
    Traced Color := do
  let hsl ← ofRgb color
  let hue ← perform (combine hsl.x slot.x)
  let hue ← fract hue
  let saturation ← perform (combine hsl.y slot.y)
  let lightness ← perform (combine hsl.z slot.z)
  toRgb ⟨hue, Scalar.clamp saturation 0 1, Scalar.clamp lightness 0 1⟩

def hslAdjust : Evaluation where
  definition := Catalog.hslAdjust
  vectorize values := do
    let hue ← perform (.div (numberAt values 0) 360)
    let saturation ← perform (.div (numberAt values 1) 100)
    let lightness ← perform (.div (numberAt values 2) 100)
    return [⟨hue, saturation, lightness, 0⟩]
  kernel color slots := combineHsl .add color (slotAt slots 0)

def hslMultiply : Evaluation where
  definition := Catalog.hslMultiply
  vectorize values := pure [⟨numberAt values 0, numberAt values 1, numberAt values 2, 0⟩]
  kernel color slots := combineHsl .mul color (slotAt slots 0)

/-! ### Blend modes -/

def multiply (a b : Single) : Traced Single := perform (.mul a b)

def screen (a b : Single) : Traced Single := do
  let a ← perform (.sub 1 a)
  let b ← perform (.sub 1 b)
  let product ← perform (.mul a b)
  perform (.sub 1 product)

def overlay (a b : Single) : Traced Single :=
  if a.lt 0.5 then do
    let double ← perform (.mul 2 a)
    perform (.mul double b)
  else do
    let a ← perform (.sub 1 a)
    let double ← perform (.mul 2 a)
    let b ← perform (.sub 1 b)
    let product ← perform (.mul double b)
    perform (.sub 1 product)

def difference (a b : Single) : Traced Single := do
  let difference ← perform (.sub a b)
  perform (.abs difference)

def dodge (a b : Single) : Traced Single :=
  if Binary.le 1 b then pure 1
  else do
    let rest ← perform (.sub 1 b)
    let quotient ← perform (.div a rest)
    perform (.lower quotient 1)

def burn (a b : Single) : Traced Single :=
  if b.le 0 then pure 0
  else do
    let rest ← perform (.sub 1 a)
    let quotient ← perform (.div rest b)
    let value ← perform (.sub 1 quotient)
    perform (.upper value 0)

def channelWord (a : Single) : Traced (BitVec 32) := do
  let scaled ← perform (.mul a 255)
  let shifted ← perform (.add scaled 0.5)
  return .ofInt 32 (shifted.truncate (-2 ^ (31 : Nat)) (2 ^ (31 : Nat) - 1))

def xorChannels (a b : Single) : Traced Single := do
  let v ← channelWord a
  let w ← channelWord b
  let value ← perform (.ofInt (v ^^^ w).toInt)
  perform (.div value 255)

def negation (a b : Single) : Traced Single := do
  let rest ← perform (.sub 1 a)
  let difference ← perform (.sub rest b)
  let distance ← perform (.abs difference)
  perform (.sub 1 distance)

/-- The blend modes in the order of the catalog. -/
def modes : List (Single → Single → Traced Single) := [
  fun _ b => pure b, multiply, fun a b => perform (.add a b), fun a b => perform (.sub a b),
  screen, overlay, difference, dodge, burn, fun a b => perform (.lower a b),
  fun a b => perform (.upper a b), xorChannels, negation]

/-- A blend filter with its mode. -/
def blend (b : Blend) (mode : Single → Single → Traced Single) : Evaluation where
  definition := b.definition
  vectorize values := do
    let opacity ← perform (.div (numberAt values 1) 100)
    return [(colorAt values 0).extend opacity]
  kernel color slots := do
    let top := slotAt slots 0
    let blended ← color.traverse₂ mode top.rgb
    mix color blended top.w

/-! ### Chains -/

/-- The built-in filters in the order of the catalog. -/
def evaluations : List Evaluation :=
  [posterize, brightnessContrast, hslAdjust, hslMultiply] ++
    List.zipWith blend Catalog.blends modes

theorem definitions_evaluations : evaluations.map Evaluation.definition = Catalog.definitions := rfl

/-- The filter on a colour, if it is built in. -/
def filter? (f : Filter) (color : Color) : Option (Traced Color) :=
  (evaluations.find? fun e => e.definition.id == f.id).map fun e => do
    let slots ← e.vectorize f.values
    e.kernel color slots

/-- A row of filters on a colour, every result held within the unit range. -/
def run? : List Filter → Color → Option (Traced Color)
  | [], color => some (pure color)
  | f :: rest, color => do
    let first ← filter? f color
    let others ← run? rest (Vector.unitClamp first.result)
    return do
      let _ ← first
      others

/-- The visible filters of a chain on a colour, if all of them are built in. -/
def chain? (c : Chain) (color : Color) : Option (Traced Color) :=
  run? (c.filters.filter Filter.visible) color

end ColorChain.Stepwise
