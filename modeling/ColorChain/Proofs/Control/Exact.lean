import ColorChain.Proofs.Control.Stored
import ColorChain.Proofs.Decimal.Display
import ColorChain.Registry

/-! What a control shows of its value.

A control shows its numbers with a fixed number of decimal places and its colours with one
byte for each channel, and both written forms are meant to keep this much of the value
(`Control.displayed`). One of them writes a number without decimal places as an integer of 64 bits,
which the largest numbers are beyond (`Control.Overflows`). `Control.Exact` are the values that are
shown in full: what is written of them is meant to be read back. The ranges of the built-in filters
are so small that a single tells all their decimals apart (`NumericRange.Small`). -/
namespace ColorChain

namespace Control

/-- The value that a control shows: the single nearest to the displayed decimal, and the colour
whose channels are bytes. -/
def displayed (control : Control) : ControlValue → ControlValue
  | .number x => .number (Display.shown x control.precision)
  | .color c => .color c.rounded

/-- A number without decimal places that is beyond the integers of 64 bits. -/
def Overflows (control : Control) : ControlValue → Prop
  | .number x => control.precision = 0 ∧ 2 ^ 63 < Display.places x control.precision
  | .color _ => False

instance (control : Control) (v : ControlValue) : Decidable (control.Overflows v) :=
  match v with
  | .number _ => inferInstanceAs (Decidable (_ ∧ _))
  | .color _ => inferInstanceAs (Decidable False)

/-- The value that is left of it in an integer of 64 bits: of a number beyond them their bound. -/
def confined (control : Control) (v : ControlValue) : ControlValue :=
  if control.Overflows v then .number (.nearest v.asNumber.negative (2 ^ 63))
  else control.displayed v

theorem confined_of_not_overflows {control : Control} {v : ControlValue}
    (h : ¬ control.Overflows v) : control.confined v = control.displayed v := if_neg h

/-- A control whose default value and bounds are finite, with at most fifteen decimal places. -/
structure Moderate (control : Control) : Prop where
  default : control.default.Finite
  bounded : control.Bounded
  precision : control.precision.toNat ≤ 15

instance (control : Control) : Decidable control.Moderate :=
  decidable_of_iff (control.default.Finite ∧ control.Bounded ∧ control.precision.toNat ≤ 15)
    ⟨fun ⟨hdefault, hbounded, hplaces⟩ => ⟨hdefault, hbounded, hplaces⟩,
      fun h => ⟨h.default, h.bounded, h.precision⟩⟩

end Control

/-! ### Values that are shown in full -/

/-- The values that a control shows in full: an in-range number nearest to a decimal with
the control's places, and a colour of bytes. -/
inductive Control.Exact (control : Control) : ControlValue → Prop where
  | number {range x} {negative : Bool} {n : Nat} (hrange : control.range? = some range)
      (hmin : range.min.le x = true) (hmax : x.le range.max = true)
      (hnear : (x == .nearest negative (n / 10 ^ range.precision.toNat)) = true) :
      Exact control (.number x)
  | color {c} (hkind : control.isColor = true) (hbytes : c.OfBytes) : Exact control (.color c)

/-! ### Small ranges -/

namespace NumericRange

/-- At most two places, and bounds below 512. -/
def Small (range : NumericRange) : Prop :=
  range.precision.toNat ≤ 2 ∧ range.max.position < 136 * 2 ^ 23 ∧
    -(136 * 2 ^ 23) < range.min.position

instance (range : NumericRange) : Decidable range.Small := inferInstanceAs (Decidable (_ ∧ _ ∧ _))

variable {range : NumericRange} {x : Single}

/-- A number within a small range is finite, and below 512. -/
theorem Small.magnitude_lt (h : range.Small) (hmin : range.min.le x = true)
    (hmax : x.le range.max = true) : x.isFinite = true ∧ x.magnitude < 2 ^ 9 := by
  obtain ⟨-, hhigh, hlow⟩ := h
  simp only [Binary.le, Bool.and_eq_true, decide_eq_true_eq] at hmin hmax
  have hindex : x.index < 136 * 2 ^ 23 := Binary.index_lt_of_position (by omega) (by omega)
  refine ⟨decide_eq_true ?_, Binary.magnitude_lt_of_index (k := 135) hindex rfl⟩
  exact hindex.trans_le (by decide)

/-- Within a small range there are not many decimals. -/
theorem Small.count_lt (h : range.Small) (hmin : range.min.le x = true)
    (hmax : x.le range.max = true) {negative : Bool} {n : Nat}
    (hnear : (x == .nearest negative (n / 10 ^ range.precision.toNat)) = true) : n < 2 ^ 22 := by
  obtain ⟨hfinite, hmagnitude⟩ := h.magnitude_lt hmin hmax
  have halike := (Binary.beq_iff.mp hnear).2.2
  rw [halike.isFinite] at hfinite
  rw [halike.magnitude] at hmagnitude
  have hplaces : range.precision.toNat ≤ Display.maxPlaces := h.1.trans (by decide)
  have hten : (0 : Rat) < 10 ^ range.precision.toNat := by positivity
  have hhundred : (10 : Rat) ^ range.precision.toNat ≤ 10 ^ 2 := pow_le_pow_right₀ (by norm_num) h.1
  by_cases hzero : n = 0
  · omega
  · have herror := Binary.magnitude_nearest_error (by positivity)
      (Binary.le_unit (f := .single) (by decide) hplaces (by omega)) hfinite
    obtain ⟨hlow, -⟩ := abs_le.mp (Display.error_mul hten herror)
    have hbits : Format.single.fractionBits + 1 = 24 := rfl
    rw [hbits] at hlow
    have hten' := lt_of_le_of_lt hhundred (by norm_num : (10 : Rat) ^ 2 < 101)
    have hproduct := mul_lt_mul'' hmagnitude hten'
      (Binary.magnitude_nonneg _) hten.le
    have hlt : (n : Rat) < 2 ^ 22 := by linarith
    exact_mod_cast hlt

end NumericRange

/-- A control with a small range shows at most two places. -/
theorem Control.precision_le {control : Control}
    (hsmall : ∀ range ∈ control.range?, range.Small) : control.precision.toNat ≤ 2 := by
  unfold precision
  cases hrange : control.range? with
  | none => simp
  | some range => exact (hsmall range hrange).1

/-! ### Exact values -/

namespace Control.Exact

variable {control : Control} {v : ControlValue}

theorem unitClamp_beq {c : Color} (h : c.OfBytes) : (Vector.unitClamp c == c) = true := by
  obtain ⟨r, hr, g, hg, b, hb, h⟩ := h
  have hchannel {n : Nat} (hn : n < 256) :
      NumericRange.unit.clamp (Binary.ofRatio n 255) = Binary.ofRatio n 255 :=
    NumericRange.clamp_of_within (Color.channel_within hn).1 (Color.channel_within hn).2
  have hclamp := Vector.unitClamp_beq h
  rw [Vector.unitClamp_eq ⟨.ofRatio r 255, _, _⟩, hchannel hr, hchannel hg, hchannel hb] at hclamp
  exact Color.beq_trans hclamp (Color.beq_symm h)

/-- A control with a small range stores an exact value as it is. -/
theorem accept (h : control.Exact v) (hsmall : ∀ range ∈ control.range?, range.Small) :
    ∃ w, control.accept v = .ok w ∧ (w == v) = true := by
  cases h with
  | @number range x negative n hrange hmin hmax hnear =>
    have hfinite := ((hsmall range hrange).magnitude_lt hmin hmax).1
    refine ⟨.number x, ?_, Binary.beq_self (Binary.isNaN_of_isFinite hfinite)⟩
    rw [accept_number hrange hfinite, NumericRange.clamp_of_within hmin hmax]
  | @color c hkind hbytes =>
    rw [isColor, Option.isNone_iff_eq_none] at hkind
    exact ⟨.color (Vector.unitClamp c), accept_color hkind c, unitClamp_beq hbytes⟩

/-- **An exact value comes back** from a form that equal values share, if what is read of a value
is what its control shows of it, large numbers apart. -/
theorem returns {ε : Type} (h : control.Exact v) (hsmall : ∀ range ∈ control.range?, range.Small)
    (read : ControlValue → Except ε ControlValue)
    (hbeq : ∀ v w : ControlValue, (v == w) = true → read v = read w)
    (hread : ∀ w, control.Suits w → ¬ control.Overflows w → read w = .ok (control.displayed w)) :
    control.Returns v (read v) := by
  refine ⟨?_, h.accept hsmall⟩
  cases h with
  | @number range x negative n hrange hmin hmax hnear =>
    have hrangeSmall := hsmall range hrange
    have hplaces : range.precision.toNat ≤ Display.maxPlaces := hrangeSmall.1.trans (by decide)
    have hn := hrangeSmall.count_lt hmin hmax hnear
    have hvalue : (ControlValue.number x ==
        .number (.nearest negative (n / 10 ^ range.precision.toNat))) = true := hnear
    obtain ⟨hnan, hnan', halike⟩ := Binary.beq_iff.mp hnear
    have hfinite := (hrangeSmall.magnitude_lt hmin hmax).1
    rw [halike.isFinite] at hfinite
    have hkind : control.isColor = false := by simp [isColor, hrange]
    have hprecision : control.precision = range.precision := by simp [precision, hrange]
    have hshown := Display.shown_nearest hplaces hn hfinite
    have hcount := Display.places_nearest hplaces hn hfinite
    refine ⟨.number (Display.shown (.nearest negative (n / 10 ^ range.precision.toNat))
      range.precision), ?_, ?_⟩
    · rw [hbeq _ _ hvalue, ← hprecision]
      rw [← hprecision] at hcount hfinite
      refine hread _ (.number hkind hfinite) fun hbeyond => ?_
      have hcontradiction := hbeyond.2
      rw [hcount] at hcontradiction
      omega
    · exact Binary.beq_iff.mpr ⟨hshown.isNaN.trans hnan', hnan, hshown.trans halike.symm⟩
  | @color c hkind hbytes =>
    exact ⟨.color c.rounded, hread _ (.color hkind) not_false, hbytes.rounded_beq⟩

/-- A decimal with two places is shown in full by a control that shows two places. -/
theorem of_factor {label id : String} :
    Control.Exact ⟨id, label, .number 1 Catalog.factor⟩ (.number 1.15) := by
  refine @Exact.number _ Catalog.factor _ false 115 rfl ?_ ?_ ?_
  · decide +kernel
  · decide +kernel
  · decide +kernel

end Control.Exact

/-- The ranges of the built-in controls are small. -/
theorem Catalog.small_range : ∀ d ∈ definitions, ∀ control ∈ d.controls,
    ∀ range ∈ control.range?, range.Small := by decide +kernel

end ColorChain
