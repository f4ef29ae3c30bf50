import ColorChain.Proofs.Chain.Copy
import ColorChain.Proofs.Compact.Clause
import ColorChain.Proofs.Control.Exact
import ColorChain.Proofs.Decimal.Places

/-! The text of a field.

Ids and fields are written in characters that are no mark (`Plain`), and equal values have
one text. A value that its control shows in full comes back from its text
(`Control.Exact.returns_fieldText`). -/
namespace ColorChain

/-! ### Characters -/

/-- The characters of ids, numbers and digits. -/
def Compact.Plain (c : Char) : Prop := c.isAlphanum = true ∨ c = '_' ∨ c = '.' ∨ c = '-'

theorem Compact.not_plain : ∀ mark ∈ [';', ',', ':', '~', '\x7b'], ¬ Compact.Plain mark := by
  unfold Compact.Plain
  simp

theorem Control.plain_fieldText (control : Control) (v : ControlValue) :
    ∀ c ∈ control.fieldText v, Compact.Plain c := by
  intro c hc
  cases v with
  | color color => exact .inl (Color.isAlphanum_of_mem_hexDigits c hc)
  | number x =>
    rcases Display.isTextChar_number x control.precision c hc with h | h | h
    · exact .inl h
    · exact .inr (.inr (.inl h))
    · exact .inr (.inr (.inr h))

theorem Definition.plain_id {d : Definition} (h : d.fault? = none) :
    ∀ c ∈ d.id.toList, Compact.Plain c := by
  intro c hc
  have hgood := goodId_of_fault? h
  simp only [goodId, Bool.and_eq_true, List.all_eq_true] at hgood
  have hchar := hgood.2 c hc
  simp only [idChar, Bool.or_eq_true, decide_eq_true_eq] at hchar
  rcases hchar with hchar | hchar
  · exact .inl hchar
  · exact .inr (.inl hchar)

/-- Equal values have one text. -/
theorem Control.fieldText_beq (control : Control) {v w : ControlValue} (h : (v == w) = true) :
    control.fieldText v = control.fieldText w := by
  rcases ControlValue.beq_cases h with ⟨x, y, rfl, rfl, hxy⟩ | ⟨c, d, rfl, rfl, hcd⟩
  · have hrounded := Display.rounded_alike (Binary.beq_iff.mp hxy).2.2 control.precision
    show Display.number x _ = Display.number y _
    unfold Display.number
    rw [hrounded]
  · exact Color.hexDigits_beq hcd

/-! ### Values that come back -/

theorem Text.trim_eq_self {s : List Char} (h : ∀ c ∈ s, isBlank c = false) : trim s = s := by
  have hfront {t : List Char} (ht : ∀ c ∈ t, isBlank c = false) : t.dropWhile isBlank = t := by
    cases t with
    | nil => rfl
    | cons c rest => simp [ht c]
  rw [trim, trimEnd, hfront h, hfront (by simpa using h), List.reverse_reverse]

theorem Text.not_isBlank_of_isTextChar {c : Char} (h : Display.IsTextChar c) :
    isBlank c = false := by
  have hrange : 45 ≤ c.toNat ∧ c.toNat ≤ 122 := by
    rcases h with h | rfl | rfl
    · delta Char.isAlphanum Char.isAlpha Char.isUpper Char.isLower Char.isDigit at h
      simp only [Bool.or_eq_true, Bool.and_eq_true, decide_eq_true_eq, ge_iff_le,
        UInt32.le_iff_toNat_le, Char.reduceVal, UInt32.reduceToNat] at h
      have hnat : c.toNat = c.val.toNat := rfl
      omega
    · decide
    · decide
  simp only [isBlank, Bool.or_eq_false_iff, Bool.and_eq_false_imp, decide_eq_true_eq,
    decide_eq_false_iff_not]
  omega

/-- A displayed number is read as the number nearest to what it shows. -/
theorem Compact.number?_number {x : Single} {p : UInt32} (hp : p.toNat ≤ 15)
    (hx : x.isFinite = true) : number? (Display.number x p) = some (Display.shown x p) := by
  obtain ⟨n, htext, hvalue⟩ := Display.ofText?_number hp hx
  have hblank : ∀ c ∈ Display.number x p, Text.isBlank c = false :=
    fun c hc => Text.not_isBlank_of_isTextChar (Display.isTextChar_number x p c hc)
  refine number?_eq_some.mpr ⟨n, ?_, hvalue, Display.isFinite_shown hp hx⟩
  rw [Text.trim_eq_self hblank, htext]

/-- The field of a value is read as what its control shows of it. -/
theorem Control.Suits.field_fieldText {control : Control} {v : ControlValue}
    (h : control.Suits v) (hp : control.precision.toNat ≤ 15) (id : String) :
    Compact.field id control (control.fieldText v) = .ok (control.displayed v) := by
  cases h with
  | number hkind hfinite =>
    rw [Compact.field, hkind, fieldText]
    simp only [Compact.number?_number hp hfinite]
    rfl
  | color hkind =>
    rw [Compact.field, hkind, fieldText, Color.ofHex?_hexDigits]
    rfl

/-- **An exact value comes back from its text.** -/
theorem Control.Exact.returns_fieldText {control : Control} {v : ControlValue}
    (h : control.Exact v) (hsmall : ∀ range ∈ control.range?, range.Small) (id : String) :
    control.Returns v (Compact.field id control (control.fieldText v)) := by
  refine h.returns hsmall (fun v => Compact.field id control (control.fieldText v)) ?_ ?_
  · intro v w hvw
    rw [control.fieldText_beq hvw]
  · intro w hw _
    exact hw.field_fieldText ((precision_le hsmall).trans (by decide)) id

end ColorChain
