import ColorChain.Proofs.Registry
import ColorChain.Proofs.Template.Splitting

/-! The slot contract of blends.

The template of a blend has its expression in it three times, between fixed text with two
placeholders. The text in front of an expression has no `$` and the text behind it starts with no
digit, so nothing runs together where they meet, and the runs of the template are those of its parts
(`runs_template`). A blend is therefore registered under every free id if its expression has no
placeholder, and more generally just if none of its placeholders spells another number than zero
(`keeps_contract`). -/
namespace ColorChain

namespace Template

/-! ### Runs of assembled text -/

theorem runs_plain_append {front : String} (h : '$' ∉ front.toList) (text : String) :
    runs (front ++ text).toList = runs text.toList := by
  rw [String.toList_append, runs_append_of_notMem h]

/-- A reference to a component of the first slot. -/
theorem runs_first_append (text : String) :
    runs ("$0." ++ text).toList = ['0'] :: runs text.toList := by
  have hzero : ∀ c ∈ ['0'], Text.isDecimalDigit c = true :=
    List.forall_mem_singleton.mpr (by decide +kernel)
  have hpoint : Undigited ('.' :: text.toList) := undigited_cons (by decide +kernel) _
  have hplain : '$' ∉ ['.'] := by decide
  have hrest : runs ('.' :: text.toList) = runs text.toList := runs_append_of_notMem hplain _
  have htext : ("$0." ++ text).toList = '$' :: ['0'] ++ '.' :: text.toList :=
    String.toList_append
  rw [htext, runs_placeholder (by decide) hzero hpoint, hrest]

/-- Text that is pasted between texts without a `$`, of which the one behind it does not start with
a digit, has its runs for itself. -/
theorem runs_pasted {front back : String} (hfront : '$' ∉ front.toList)
    (hback : '$' ∉ back.toList) {c : Char} {cs : List Char} (hcs : back.toList = c :: cs)
    (hc : Text.isDecimalDigit c = false) (pasted text : String) :
    runs (front ++ pasted ++ back ++ text).toList = runs pasted.toList ++ runs text.toList := by
  have hclose : Undigited (back.toList ++ text.toList) := by
    rw [hcs]
    exact undigited_cons hc _
  rw [String.toList_append, String.toList_append, String.toList_append, List.append_assoc,
    List.append_assoc, runs_append_of_notMem hfront, runs_append _ hclose,
    runs_append_of_notMem hback]

end Template

namespace Blend

open Template

variable (b : Blend)

/-- The runs of what is written for a channel are those of the expression. -/
theorem runs_channelText_append (expression : String) {channel : String}
    (h : '$' ∉ channel.toList) (text : String) :
    runs (channelText expression channel ++ text).toList =
      runs expression.toList ++ runs text.toList := by
  have hfront : '$' ∉ ("float blend_" ++ channel ++ " = 0.0;\n\x7b float a = base." ++ channel ++
      "; float b = top." ++ channel ++ "; blend_" ++ channel ++ " = (").toList := by
    simp only [String.toList_append, List.mem_append, h, or_false, not_or]
    and_intros
    all_goals exact notMem_of_all rfl rfl
  exact runs_pasted hfront (notMem_of_all rfl rfl) rfl (by decide +kernel) expression text

/-- The parts of a template, one behind the other. -/
theorem template_eq (expression : String) :
    template expression = "vec3 base = color;\nvec3 top = " ++ ("$0." ++ ("rgb;\n" ++
      (channelText expression "r" ++ (channelText expression "g" ++ (channelText expression "b" ++
        ("color = mix(base, vec3(blend_r, blend_g, blend_b), " ++ ("$0." ++ "a);"))))))) := by
  have hassoc (s t u v w x : String) :
      s ++ t ++ u ++ v ++ w ++ x = s ++ (t ++ (u ++ (v ++ (w ++ x)))) := by
    simp only [String.append_assoc]
  exact congrArg (fun text => "vec3 base = color;\nvec3 top = " ++ ("$0." ++ text)) (hassoc ..)

/-- **Nothing runs together** where an expression meets the text around it. -/
theorem runs_template (expression : String) :
    runs (template expression).toList =
      ['0'] :: (runs expression.toList ++ (runs expression.toList ++
        (runs expression.toList ++ [['0']]))) := by
  have hopening : '$' ∉ "vec3 base = color;\nvec3 top = ".toList := notMem_of_all rfl rfl
  have hmix : '$' ∉ "color = mix(base, vec3(blend_r, blend_g, blend_b), ".toList :=
    notMem_of_all rfl rfl
  have hlast : runs "a);".toList = [] := runs_of_notMem (notMem_of_all rfl rfl)
  rw [template_eq, runs_plain_append hopening, runs_first_append,
    runs_plain_append (notMem_of_all rfl rfl), runs_channelText_append expression (by decide),
    runs_channelText_append expression (by decide), runs_channelText_append expression (by decide),
    runs_plain_append hmix, runs_first_append, hlast]

/-- The slots of the expression, three times over, between two references to the first slot. -/
theorem slots_definition :
    slots b.definition.template =
      0 :: (slots b.expression ++ (slots b.expression ++ (slots b.expression ++ [0]))) := by
  have hzero : slotNumber? ['0'] = some 0 := by decide
  show slots (template b.expression) = _
  rw [slots_eq_filterMap, slots_eq_filterMap, runs_template, List.filterMap_cons_some hzero]
  simp only [List.filterMap_append, List.filterMap_cons_some hzero, List.filterMap_nil]

theorem referenced_definition :
    Definition.referenced b.definition.template = 1 ↔ ∀ n ∈ slots b.expression, n = 0 := by
  rw [Definition.referenced, slots_definition,
    Definition.countTo_eq_one (List.mem_cons_self ..)]
  simp only [List.forall_mem_cons, List.forall_mem_append, List.not_mem_nil, false_implies,
    implies_true, and_true, true_and]
  exact ⟨fun h => h.1, fun h => ⟨h, h, h⟩⟩

/-- A blend with a good id has no fault just if its expression refers to no slot but the first. -/
theorem fault?_definition_iff (hid : Definition.goodId b.id = true) :
    b.definition.fault? = none ↔ ∀ n ∈ slots b.expression, n = 0 := by
  rw [← referenced_definition]
  exact ⟨fun h => (Definition.referenced_template h).1,
    Definition.fault?_eq_none hid b.controlFault?_controls rfl (show 1 < _ by decide)⟩

/-- A blend under a free id is added behind the other definitions, where it is found. -/
theorem register_definition (hvalid : b.definition.fault? = none) {r : Registry}
    (hfree : b.id ∉ r.ids) :
    ∃ r', r.register b.definition = .ok r' ∧ r'.definitions = r.definitions ++ [b.definition] ∧
      r'.menuOrder = r.menuOrder ∧ r'.get? b.id = some b.definition := by
  obtain ⟨r', hregister, hdefinitions, hmenu⟩ := Registry.register_of_free hvalid hfree
  refine ⟨r', hregister, hdefinitions, hmenu, Registry.get?_of_mem (d := b.definition) ?_⟩
  rw [hdefinitions]
  exact List.mem_append_right _ (List.mem_singleton_self _)

/-- **A blend keeps the slot contract.** Whatever the name, colour, opacity and mode of a blend are,
it makes one slot of any row of values, and its template refers to what its expression refers to,
three times over, between two references to the first slot. So if the id is good, the blend has no
fault just if every slot number in its expression is zero. Without a `$` in the expression the
template has two placeholders, both for the first slot, whatever the expression starts or ends
with, and every registry in which the id is free takes the blend. -/
theorem keeps_contract (hid : b.id.toList ≠ [])
    (hchars : ∀ c ∈ b.id.toList, c.isAlphanum = true ∨ c = '_') :
    (∀ values, (b.definition.vectorize values).length = 1) ∧
      slots b.definition.template =
        0 :: (slots b.expression ++ (slots b.expression ++ (slots b.expression ++ [0]))) ∧
      (b.definition.fault? = none ↔ ∀ n ∈ slots b.expression, n = 0) ∧
      ('$' ∉ b.expression.toList →
        b.definition.fault? = none ∧ runs b.definition.template.toList = [['0'], ['0']] ∧
          slots b.definition.template = [0, 0] ∧
          ∀ r : Registry, b.id ∉ r.ids → ∃ r', r.register b.definition = .ok r' ∧
            r'.definitions = r.definitions ++ [b.definition] ∧ r'.menuOrder = r.menuOrder ∧
            r'.get? b.id = some b.definition) := by
  have hgood : Definition.goodId b.id = true := by
    rw [Definition.goodId, Bool.and_eq_true, List.all_eq_true]
    exact ⟨by simpa using hid, fun c hc => by simpa [Definition.idChar] using hchars c hc⟩
  refine ⟨fun values => rfl, b.slots_definition, b.fault?_definition_iff hgood, fun hplain => ?_⟩
  have hvalid := b.fault?_definition hgood hplain
  refine ⟨hvalid, ?_, slots_template hplain, fun r hfree => b.register_definition hvalid hfree⟩
  have hnone : runs b.expression.toList = [] := runs_of_notMem hplain
  show runs (template b.expression).toList = _
  rw [runs_template, hnone]
  rfl

/-- A blend whose expression starts and ends with a digit. -/
def edged : Blend where
  id := "half_1"
  name := ""
  color := .splat (.ofBits 0x7fc00000)
  opacity := 1000
  expression := "0.5*a+0"
  mode a _ := a

/-- A blend whose expression refers to the second slot. -/
def twofold : Blend := { edged with expression := "$00 + $1" }

/-- Digits at both ends of an expression join no placeholder, and one for the second slot is a
fault. -/
theorem keeps_contract_edged :
    (edged.id.toList ≠ [] ∧ ∀ c ∈ edged.id.toList, c.isAlphanum = true ∨ c = '_') ∧
      '$' ∉ edged.expression.toList ∧ edged.id ∉ Registry.builtin.ids ∧
      (∃ r', Registry.builtin.register edged.definition = .ok r' ∧
        r'.get? "half_1" = some edged.definition) ∧
      slots edged.definition.template = [0, 0] ∧ twofold.definition.fault? ≠ none := by
  have hid : edged.id.toList ≠ [] := by decide
  have hall : (edged.id.toList.all fun c => c.isAlphanum || c = '_') = true := by decide
  have hchars : ∀ c ∈ edged.id.toList, c.isAlphanum = true ∨ c = '_' := fun c hc => by
    simpa using List.all_eq_true.mp hall c hc
  have hplain : '$' ∉ edged.expression.toList := notMem_of_all rfl rfl
  have hfree : edged.id ∉ Registry.builtin.ids := by decide +kernel
  obtain ⟨-, -, -, hkept⟩ := keeps_contract edged hid hchars
  obtain ⟨-, -, hslots, hregistered⟩ := hkept hplain
  obtain ⟨r', hregister, -, -, hget⟩ := hregistered .builtin hfree
  obtain ⟨-, -, hvalid, -⟩ := keeps_contract twofold hid hchars
  refine ⟨⟨hid, hchars⟩, hplain, hfree, ⟨r', hregister, hget⟩, hslots, fun hnone => ?_⟩
  have hzero := hvalid.mp hnone 1 (by decide +kernel)
  cases hzero

end Blend
end ColorChain
