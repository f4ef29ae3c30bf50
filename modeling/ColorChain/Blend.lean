import ColorChain.Definition

/-! Blend filters.

A blend mode is one expression over a channel `a` of the colour and the same channel `b`
of a chosen colour, given as shader text and as a function. `Blend.definition` makes the
filter from both: a colour and an opacity to set, one slot, and a template that applies
the expression to each channel and mixes the result in. -/
namespace ColorChain

structure Blend where
  id : String
  name : String
  color : Color
  /-- In percent. -/
  opacity : Single
  /-- Shader text over `a` and `b`. -/
  expression : String
  mode : Single → Single → Single

namespace Blend

/-- The colour with the opacity as a fraction. -/
def slot (values : List ControlValue) : Slot :=
  (colorAt values 0).extend (numberAt values 1 / 100)

/-- The statements that blend one channel. -/
def channelText (expression channel : String) : String :=
  "float blend_" ++ channel ++ " = 0.0;\n\x7b float a = base." ++ channel ++
    "; float b = top." ++ channel ++ "; blend_" ++ channel ++ " = (" ++ expression ++ "); \x7d\n"

def template (expression : String) : String :=
  "vec3 base = color;\nvec3 top = " ++ ("$0." ++ ("rgb;\n" ++
    channelText expression "r" ++ channelText expression "g" ++ channelText expression "b" ++
    "color = mix(base, vec3(blend_r, blend_g, blend_b), " ++ ("$0." ++ "a);")))

def controls (b : Blend) : List Control := [
  ⟨"color", "Color", .color b.color⟩,
  ⟨"opacity", "Opacity", .slider b.opacity ⟨0, 100, 1, 0⟩⟩]

def definition (b : Blend) : Definition where
  id := b.id
  name := b.name
  controls := b.controls
  slotCount := 1
  vectorize values := [slot values]
  kernel := .blend b.mode
  template := template b.expression

/-! ### The slot contract

A blend keeps the contract whatever its expression is, as long as that refers to no slot. -/

theorem notMem_channelText {expression channel : String} (he : '$' ∉ expression.toList)
    (hc : '$' ∉ channel.toList) : '$' ∉ (channelText expression channel).toList := by
  unfold channelText
  simp only [String.toList_append, List.mem_append, he, hc, or_false, not_or]
  and_intros
  all_goals decide +kernel

theorem slots_template {expression : String} (h : '$' ∉ expression.toList) :
    Template.slots (template expression) = [0, 0] := by
  have front : '$' ∉ ("rgb;\n" ++ channelText expression "r" ++ channelText expression "g" ++
      channelText expression "b" ++
      "color = mix(base, vec3(blend_r, blend_g, blend_b), ").toList := by
    simp only [String.toList_append, List.mem_append, not_or]
    refine ⟨⟨⟨⟨?_, notMem_channelText h ?_⟩, notMem_channelText h ?_⟩,
      notMem_channelText h ?_⟩, ?_⟩
    all_goals decide +kernel
  have last : Template.slots "a);" = [] := by decide +kernel
  unfold template
  rw [Template.slots_append_of_notMem (by decide +kernel), Template.slots_first_append,
    Template.slots_append_of_notMem front, Template.slots_first_append, last]

theorem controlFault?_controls (b : Blend) : Definition.controlFault? [] b.controls = none := by
  have range : (100 : Single).lt 0 = false := by decide +kernel
  simp [Definition.controlFault?, controls, Control.range?, range]

theorem fault?_definition (b : Blend) (hid : Definition.goodId b.id = true)
    (h : '$' ∉ b.expression.toList) : b.definition.fault? = none := by
  have refs : Definition.referenced (template b.expression) = 1 := by
    rw [Definition.referenced, slots_template h]
    rfl
  exact Definition.fault?_eq_none hid b.controlFault?_controls rfl (show 1 < _ by decide) refs

end Blend
end ColorChain
