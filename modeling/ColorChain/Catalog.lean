import ColorChain.Blend
import ColorChain.Color.Hsl

/-! The built-in filters. -/
namespace ColorChain.Catalog

open Hsl (ofRgb toRgb)

/-- The order of the menu from which filters are added. -/
def menuOrder : List String := [
  "posterize", "brightness_contrast", "hsl_adjust", "hsl_multiply", "blend_normal",
  "blend_multiply", "blend_additive", "blend_subtract", "blend_screen", "blend_overlay",
  "blend_difference", "blend_dodge", "blend_burn", "blend_darken", "blend_lighten",
  "blend_xor", "blend_negation"]

/-! ### Blend modes -/

/-- A channel as a 32-bit word: scaled to 255 and rounded, cut off at the word's ends. -/
def channelWord (a : Single) : BitVec 32 :=
  .ofInt 32 ((a * 255 + 0.5).truncate (-2 ^ (31 : Nat)) (2 ^ (31 : Nat) - 1))

/-- The exclusive or of two channels as words, back on the scale of a channel. -/
def xorChannels (a b : Single) : Single :=
  Binary.ofInt (channelWord a ^^^ channelWord b).toInt / 255

def blends : List Blend := [
  { id := "blend_normal", name := "Blend Normal", color := ⟨1, 0, 0⟩, opacity := 100
    expression := "b"
    mode := fun _ b => b },
  { id := "blend_multiply", name := "Blend Multiply", color := ⟨1, 0.5, 0⟩, opacity := 100
    expression := "a * b"
    mode := fun a b => a * b },
  { id := "blend_additive", name := "Blend Additive", color := ⟨0.2, 0.2, 0.2⟩, opacity := 100
    expression := "a + b"
    mode := fun a b => a + b },
  { id := "blend_subtract", name := "Blend Subtract", color := ⟨0.2, 0.2, 0.2⟩, opacity := 100
    expression := "a - b"
    mode := fun a b => a - b },
  { id := "blend_screen", name := "Blend Screen", color := ⟨0, 0, 1⟩, opacity := 100
    expression := "1.0 - (1.0 - a) * (1.0 - b)"
    mode := fun a b => 1 - (1 - a) * (1 - b) },
  { id := "blend_overlay", name := "Blend Overlay", color := ⟨0.5, 0.5, 1⟩, opacity := 100
    expression := "a < 0.5 ? 2.0 * a * b : 1.0 - 2.0 * (1.0 - a) * (1.0 - b)"
    mode := fun a b => if a.lt 0.5 then 2 * a * b else 1 - 2 * (1 - a) * (1 - b) },
  { id := "blend_difference", name := "Blend Difference", color := ⟨1, 1, 1⟩, opacity := 100
    expression := "abs(a - b)"
    mode := fun a b => (a - b).abs },
  { id := "blend_dodge", name := "Blend Dodge", color := ⟨0.5, 0.5, 0.5⟩, opacity := 100
    expression := "b >= 1.0 ? 1.0 : min(a / (1.0 - b), 1.0)"
    mode := fun a b => if Binary.le 1 b then 1 else (a / (1 - b)).lower 1 },
  { id := "blend_burn", name := "Blend Burn", color := ⟨0.5, 0.5, 0.5⟩, opacity := 100
    expression := "b <= 0.0 ? 0.0 : max(1.0 - (1.0 - a) / b, 0.0)"
    mode := fun a b => if b.le 0 then 0 else (1 - (1 - a) / b).upper 0 },
  { id := "blend_darken", name := "Blend Darken", color := ⟨0.5, 0.5, 0.5⟩, opacity := 100
    expression := "min(a, b)"
    mode := fun a b => a.lower b },
  { id := "blend_lighten", name := "Blend Lighten", color := ⟨0.5, 0.5, 0.5⟩, opacity := 100
    expression := "max(a, b)"
    mode := fun a b => a.upper b },
  { id := "blend_xor", name := "Blend XOR", color := ⟨1, 1, 1⟩, opacity := 100
    expression := "float(int(a * 255.0 + 0.5) ^ int(b * 255.0 + 0.5)) / 255.0"
    mode := xorChannels },
  { id := "blend_negation", name := "Blend Negation", color := ⟨1, 1, 1⟩, opacity := 100
    expression := "1.0 - abs(1.0 - a - b)"
    mode := fun a b => 1 - (1 - a - b).abs }]

/-! ### Direct filters -/

/-- Every channel cut to a number of evenly spaced levels. -/
def posterize : Definition where
  id := "posterize"
  name := "Posterize"
  controls := [⟨"levels", "Levels", .number 5 ⟨2, 64, 1, 0⟩⟩]
  slotCount := 1
  vectorize values :=
    let levels := numberAt values 0
    [⟨levels, levels - 1, 0, 0⟩]
  kernel := .direct fun color slots =>
    let factor := slotAt slots 0
    Vector.floor (color * factor.x) / factor.y
  template := "color = floor(color * $0.x) / $0.y;"

def percent : NumericRange := ⟨-100, 100, 1, 0⟩

/-- Channels moved away from the middle grey and shifted. -/
def brightnessContrast : Definition where
  id := "brightness_contrast"
  name := "Brightness / Contrast"
  controls := [
    ⟨"brightness", "Brightness", .slider 0 percent⟩,
    ⟨"contrast", "Contrast", .slider 0 percent⟩]
  slotCount := 1
  vectorize values := [⟨numberAt values 0 / 100, numberAt values 1 / 100, 0, 0⟩]
  kernel := .direct fun color slots =>
    let params := slotAt slots 0
    (color - (0.5 : Single)) * (1 + params.y) + (0.5 : Single) + params.x
  template := "color = (color - 0.5) * (1.0 + $0.y) + 0.5 + $0.x;"

/-- A colour whose hue, saturation and lightness are combined with those of a slot: the
hue wraps, the other two are held within 0 and 1. -/
def combineHsl (combine : Single → Single → Single) (color : Color) (slot : Slot) : Color :=
  let hsl := ofRgb color
  toRgb ⟨Scalar.fract (combine hsl.x slot.x), Scalar.clamp (combine hsl.y slot.y) 0 1,
    Scalar.clamp (combine hsl.z slot.z) 0 1⟩

/-- The same in shader text, with an operator between blanks. -/
def combineText (operator : String) : String :=
  "vec3 hsl = rgb2hsl(color);\ncolor = hsl2rgb(vec3(\n    fract(hsl.x" ++ operator ++ ("$0." ++
    ("x),\n    clamp(hsl.y" ++ operator ++ ("$0." ++
    ("y, 0.0, 1.0),\n    clamp(hsl.z" ++ operator ++ ("$0." ++
    "z, 0.0, 1.0)\n));")))))

theorem slots_combineText {operator : String} (h : '$' ∉ operator.toList) :
    Template.slots (combineText operator) = [0, 0, 0] := by
  have text {s : String} (hs : '$' ∉ s.toList) : '$' ∉ (s ++ operator).toList := by
    rw [String.toList_append, List.mem_append, not_or]
    exact ⟨hs, h⟩
  have last : Template.slots "z, 0.0, 1.0)\n));" = [] := by decide +kernel
  unfold combineText
  rw [Template.slots_append_of_notMem (text (by decide +kernel)), Template.slots_first_append,
    Template.slots_append_of_notMem (text (by decide +kernel)), Template.slots_first_append,
    Template.slots_append_of_notMem (text (by decide +kernel)), Template.slots_first_append, last]

/-- Hue, saturation and lightness shifted. -/
def hslAdjust : Definition where
  id := "hsl_adjust"
  name := "HSL Adjust"
  controls := [
    ⟨"hue", "Hue", .slider 0 ⟨-180, 180, 1, 0⟩⟩,
    ⟨"saturation", "Saturation", .slider 0 percent⟩,
    ⟨"lightness", "Lightness", .slider 0 percent⟩]
  slotCount := 1
  vectorize values :=
    [⟨numberAt values 0 / 360, numberAt values 1 / 100, numberAt values 2 / 100, 0⟩]
  kernel := .direct fun color slots => combineHsl (· + ·) color (slotAt slots 0)
  template := combineText " + "

def factor : NumericRange := ⟨0, 10, 0.05, 2⟩

/-- Hue, saturation and lightness scaled. -/
def hslMultiply : Definition where
  id := "hsl_multiply"
  name := "HSL Multiply"
  controls := [
    ⟨"hue", "Hue", .number 1 factor⟩,
    ⟨"saturation", "Saturation", .number 1 factor⟩,
    ⟨"lightness", "Lightness", .number 1 factor⟩]
  slotCount := 1
  vectorize values := [⟨numberAt values 0, numberAt values 1, numberAt values 2, 0⟩]
  kernel := .direct fun color slots => combineHsl (· * ·) color (slotAt slots 0)
  template := combineText " * "

/-- Every built-in definition, the direct filters first. -/
def definitions : List Definition :=
  [posterize, brightnessContrast, hslAdjust, hslMultiply] ++ blends.map Blend.definition

theorem fault?_of_mem_definitions : ∀ d ∈ definitions, d.fault? = none := by
  have good : ∀ b ∈ blends, Definition.goodId b.id = true ∧ '$' ∉ b.expression.toList := by
    simp only [blends, List.forall_mem_cons, List.not_mem_nil, false_implies, implies_true, and_true]
    and_intros
    all_goals first
      | exact Definition.goodId_of_eq rfl rfl
      | exact Template.notMem_of_all rfl rfl
  have hsl {operator : String} (h : '$' ∉ operator.toList) :
      Definition.referenced (combineText operator) = 1 := by
    rw [Definition.referenced, slots_combineText h]
    rfl
  intro d hd
  rcases List.mem_append.mp hd with hd | hd
  · simp only [List.mem_cons, List.not_mem_nil, or_false] at hd
    rcases hd with rfl | rfl | rfl | rfl
    · decide +kernel
    · decide +kernel
    · refine Definition.fault?_eq_none ?_ ?_ ?_ ?_ (hsl ?_) <;> decide +kernel
    · refine Definition.fault?_eq_none ?_ ?_ ?_ ?_ (hsl ?_) <;> decide +kernel
  · obtain ⟨b, hb, rfl⟩ := List.mem_map.mp hd
    exact b.fault?_definition (good b hb).1 (good b hb).2

theorem nodup_ids : (definitions.map Definition.id).Nodup := by decide +kernel

end ColorChain.Catalog
