import ColorChain.Chain.Saved
import ColorChain.Proofs.Control.Admits
import ColorChain.Proofs.Decimal.Order
import ColorChain.Proofs.Decimal.Places

/-! What is shown of a value is shown of what was read of it.

A control reads back what it showed of a value and holds it within its range, so it may store
another value than before. But that one lies between the value and what was shown of it, or is
what was shown, and both are displayed alike; so is then what lies between
(`NumericRange.count_clamp_shown`). A colour is shown in bytes, which are within every bound.
This needs ranges in which a single tells all displayed decimals apart, as those of the built-in
filters are (`Control.Modest`). -/
namespace ColorChain

/-! ### Numbers -/

namespace NumericRange

variable {range : NumericRange} {x : Single}

/-- A number within a small range has few places. -/
theorem Small.places_lt (h : range.Small) (hmin : range.min.le x = true)
    (hmax : x.le range.max = true) : Display.places x range.precision < 2 ^ 22 := by
  obtain ⟨hfinite, hmagnitude⟩ := h.magnitude_lt hmin hmax
  have hplaces : range.precision.toNat ≤ Display.maxPlaces := h.1.trans (by decide)
  have hten : (10 : Rat) ^ range.precision.toNat ≤ 10 ^ 2 := pow_le_pow_right₀ (by norm_num) h.1
  have hproduct : x.magnitude * 10 ^ range.precision.toNat ≤ 2 ^ 9 * 10 ^ 2 :=
    mul_le_mul hmagnitude.le hten (by positivity) (by norm_num)
  obtain ⟨-, hnear⟩ := abs_le.mp (Display.places_near hplaces hfinite)
  have hlt : (Display.places x range.precision : Rat) < 2 ^ 22 := by linarith
  exact_mod_cast hlt

/-- What is displayed of a number within a small range, held within the range, has the number's
count: it has not been moved past the number. -/
theorem count_clamp_shown (h : range.Small) (hmin : range.min.le x = true)
    (hmax : x.le range.max = true) :
    (range.clamp (Display.shown x range.precision)).isFinite = true ∧
      Display.count (range.clamp (Display.shown x range.precision)) range.precision =
        Display.count x range.precision := by
  obtain ⟨hfinite, -⟩ := h.magnitude_lt hmin hmax
  have hfew : range.precision.toNat ≤ 15 := h.1.trans (by decide)
  have hplaces : range.precision.toNat ≤ Display.maxPlaces := h.1.trans (by decide)
  have hshown := Display.isFinite_shown hfew hfinite
  have hcount := Display.count_shown hplaces (h.places_lt hmin hmax) hshown
  have hclamp := isFinite_clamp_of_within hmin hmax hfinite hshown
  obtain ⟨-, -, hlow⟩ := Binary.le_iff.mp hmin
  obtain ⟨-, -, hhigh⟩ := Binary.le_iff.mp hmax
  obtain ⟨-, hposition⟩ :=
    clamp_position (Binary.le_trans hmin hmax) (Binary.isNaN_of_isFinite hshown)
  generalize hs : Display.shown x range.precision = s at *
  generalize hy : range.clamp s = y at *
  refine ⟨hclamp, ?_⟩
  -- Where the shown number was moved to is on the way to the number itself.
  have hbetween : s.position ≤ y.position ∧ y.position ≤ x.position ∨
      x.position ≤ y.position ∧ y.position ≤ s.position ∨ y.position = s.position := by omega
  rcases hbetween with ⟨hsy, hyx⟩ | ⟨hxy, hys⟩ | hys
  · have hle := Display.count_le hplaces hshown hclamp hsy
    have hle' := Display.count_le hplaces hclamp hfinite hyx
    omega
  · have hle := Display.count_le hplaces hfinite hclamp hxy
    have hle' := Display.count_le hplaces hclamp hshown hys
    omega
  · have hle := Display.count_le hplaces hclamp hshown hys.le
    have hle' := Display.count_le hplaces hshown hclamp hys.ge
    omega

end NumericRange

/-! ### Colours -/

namespace Color

/-- Bytes are within the unit range. -/
theorem unitClamp_rounded (c : Color) : Vector.unitClamp c.rounded = c.rounded := by
  have hchannel (b : UInt8) : NumericRange.unit.clamp (ofByte b.toNat) = ofByte b.toNat := by
    obtain ⟨hlow, hhigh⟩ := channel_within b.toNat_lt
    rw [ofByte_eq_ofRatio b.toNat_lt]
    exact NumericRange.clamp_of_within hlow hhigh
  rw [Vector.unitClamp_eq]
  unfold rounded
  rw [hchannel, hchannel, hchannel]

theorem hexDigits_rounded (c : Color) : hexDigits c.rounded = hexDigits c := by
  unfold hexDigits rounded
  rw [toByte_ofByte, toByte_ofByte, toByte_ofByte]

end Color

/-! ### Controls -/

namespace Control

/-- The control takes the value as it is. -/
def Keeps (control : Control) (v : ControlValue) : Prop := control.accept v = .ok v

instance (control : Control) (v : ControlValue) : Decidable (control.Keeps v) :=
  match h : control.accept v with
  | .ok w => decidable_of_iff (w = v) (by rw [Keeps, h, Except.ok.injEq])
  | .error _ => isFalse (by rw [Keeps, h]; simp)

/-- A control that keeps its default, with finite ordered bounds and a small range. -/
structure Modest (control : Control) : Prop where
  default : control.Keeps control.default
  bounded : control.Bounded
  ordered : ∀ range ∈ control.range?, range.min.le range.max = true
  small : ∀ range ∈ control.range?, range.Small

instance (control : Control) : Decidable control.Modest :=
  decidable_of_iff (control.Keeps control.default ∧ control.Bounded ∧
      (∀ range ∈ control.range?, range.min.le range.max = true) ∧
      ∀ range ∈ control.range?, range.Small)
    ⟨fun ⟨hdefault, hbounded, hordered, hsmall⟩ => ⟨hdefault, hbounded, hordered, hsmall⟩,
      fun h => ⟨h.default, h.bounded, h.ordered, h.small⟩⟩

variable {control : Control} {v w : ControlValue}

/-- A number that is kept is within the range, and a colour is kept by a colour control. -/
theorem Keeps.cases (h : control.Keeps v)
    (hordered : ∀ range ∈ control.range?, range.min.le range.max = true) :
    (∃ range x, control.range? = some range ∧ v = .number x ∧ x.isFinite = true ∧
      range.min.le x = true ∧ x.le range.max = true) ∨
    ∃ c, control.range? = none ∧ v = .color c := by
  rcases accept_cases h with ⟨range, x, hrange, rfl, hfinite, hclamp⟩ | ⟨c, hrange, rfl, -⟩
  · have hwithin := NumericRange.clamp_within (hordered range hrange)
      (Binary.isNaN_of_isFinite hfinite)
    rw [← ControlValue.number.inj hclamp] at hwithin
    exact .inl ⟨range, x, hrange, rfl, hfinite, hwithin⟩
  · exact .inr ⟨c, hrange, rfl⟩

theorem precision_of_range {range : NumericRange} (hrange : control.range? = some range) :
    control.precision = range.precision := by
  rw [precision, hrange]
  rfl

namespace Modest

theorem keeps_stored (h : control.Modest) (hv : control.accept v = .ok w) : control.Keeps w :=
  accept_stored (fun range hrange => Binary.not_lt_of_le (h.ordered range hrange)) h.bounded hv

theorem moderate (h : control.Modest) : control.Moderate where
  default := by
    rcases h.default.cases h.ordered with ⟨range, x, -, hx, hfinite, -⟩ | ⟨c, -, hc⟩
    · rw [hx]
      exact hfinite
    · rw [hc]
      trivial
  bounded := h.bounded
  precision := (precision_le h.small).trans (by decide)

theorem not_overflows (h : control.Modest) (hv : control.Keeps v) : ¬ control.Overflows v := by
  rcases hv.cases h.ordered with ⟨range, x, hrange, rfl, -, hmin, hmax⟩ | ⟨c, -, rfl⟩
  · rintro ⟨-, hmany⟩
    rw [precision_of_range hrange] at hmany
    have hfew := (h.small range hrange).places_lt hmin hmax
    omega
  · exact not_false

/-- **What a control shows of a value it keeps, it shows of what it stores of that.** -/
theorem shows_alike (h : control.Modest) (hv : control.Keeps v)
    (hw : control.accept (control.displayed v) = .ok w) :
    control.fieldText w = control.fieldText v ∧ control.saved w = control.saved v := by
  rcases hv.cases h.ordered with ⟨range, x, hrange, rfl, hfinite, hmin, hmax⟩ | ⟨c, hrange, rfl⟩
  · have hsmall := h.small range hrange
    have hfew : range.precision.toNat ≤ 15 := hsmall.1.trans (by decide)
    have hplaces : range.precision.toNat ≤ Display.maxPlaces := hsmall.1.trans (by decide)
    have hprecision := precision_of_range hrange
    obtain ⟨hstored, hcount⟩ := NumericRange.count_clamp_shown hsmall hmin hmax
    have hrounded := Display.rounded_of_count hplaces hstored hfinite hcount
    rw [displayed, hprecision, accept_number hrange (Display.isFinite_shown hfew hfinite)] at hw
    cases hw
    rw [← hprecision] at hrounded ⊢
    refine ⟨?_, ?_⟩
    · rw [fieldText, fieldText, Display.number, Display.number, hrounded]
    · simp only [saved, hrounded]
  · rw [displayed, accept_color hrange, Color.unitClamp_rounded] at hw
    cases hw
    refine ⟨?_, ?_⟩
    · rw [fieldText, fieldText, Color.hexDigits_rounded]
    · rw [saved, saved, Color.hexDigits_rounded]

end Modest

end Control

/-- The built-in controls are modest. -/
theorem Catalog.modest : ∀ d ∈ definitions, ∀ control ∈ d.controls, control.Modest := by
  decide +kernel

end ColorChain
