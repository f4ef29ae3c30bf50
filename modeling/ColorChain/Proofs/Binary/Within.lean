import ColorChain.Proofs.Binary.Signed
import Mathlib.Algebra.Order.Ring.Abs

/-! Singles of bounded magnitude.

A formula on numbers of moderate size has results of moderate size, whatever is rounded on the
way: a power of two that bounds the exact result of an operation bounds the rounded one
(`Rounds.within`), so each operation has a rule for the exponents, and as long as they stay small
every result is a finite number. Numbers between zero and one are the closer case. -/
namespace ColorChain.Binary

variable {x y z : Single} {d e : Nat} {q : Rat}

/-- A finite number of a magnitude of `2 ^ e` at most. -/
structure Within (e : Nat) (x : Single) : Prop where
  isFinite : x.isFinite = true
  abs_le : |x.rational| ≤ 2 ^ e

theorem Within.isNaN (h : Within e x) : x.isNaN = false := isNaN_of_isFinite h.isFinite

theorem Within.mono (h : Within d x) (hde : d ≤ e) : Within e x :=
  ⟨h.isFinite, h.abs_le.trans (pow_le_pow_right₀ one_le_two hde)⟩

/-- What is bounded by a power of two is so after rounding. -/
theorem Rounds.within (h : Rounds z q) (he : e < 64) (hq : |q| ≤ 2 ^ e) : Within e z := by
  have hpow : (0 : Rat) ≤ 2 ^ e := by positivity
  have hfinite : (nearest false (2 ^ e) : Single).isFinite = true :=
    isFinite_single hpow (pow_lt_pow_right₀ one_lt_two he) false
  have hmagnitude : (nearest false (2 ^ e) : Single).magnitude = 2 ^ e := by
    refine magnitude_nearest_shift (m := 1) (t := e + Format.single.unitBits) hpow ?_ ?_ hfinite
    · exact Nat.one_lt_two_pow (by decide)
    · rw [pow_add, Nat.cast_one, one_mul]
  have hle := h.abs_mono (nearest_rounds false hpow) hq
  have hrational : (nearest false (2 ^ e) : Single).rational = 2 ^ e := hmagnitude
  refine ⟨isFinite_of_rational hfinite ?_, by rw [← hrational]; exact hle⟩
  rw [hrational, abs_of_nonneg hpow, ← hrational]
  exact hle

/-! ### Constants -/

theorem within_ofRatio (n : Nat) {d : Nat} (hd : 0 < d) (he : e < 64) (h : n ≤ 2 ^ e * d) :
    Within e (ofRatio n d) := by
  refine (ofRatio_rounds n hd).within he ?_
  have hpos : (0 : Rat) < d := by exact_mod_cast hd
  rw [abs_of_nonneg (by positivity), div_le_iff₀ hpos]
  exact_mod_cast h

theorem rational_ofNat {n : Nat} (hn : n < 2 ^ 24) : (OfNat.ofNat n : Single).rational = n := by
  show (ofRatio n 1 : Single).rational = n
  rw [ofRatio_one]
  exact magnitude_small hn false

theorem rational_ofNat_zero : (0 : Single).rational = 0 := by
  exact_mod_cast rational_ofNat (n := 0) (by decide)

theorem rational_one : (1 : Single).rational = 1 := by
  exact_mod_cast rational_ofNat (n := 1) (by decide)

theorem rational_two : (2 : Single).rational = 2 := by
  exact_mod_cast rational_ofNat (n := 2) (by decide)

theorem isNaN_zero : (0 : Single).isNaN = false := rfl

theorem within_half : Within 0 0.5 :=
  within_ofRatio 5 (Nat.pow_pos (by decide)) (by decide) (by decide)

theorem within_one : Within 0 1 := within_ofRatio 1 Nat.one_pos (by decide) (by decide)

theorem within_two : Within 1 2 := within_ofRatio 2 Nat.one_pos (by decide) (by decide)

theorem within_six : Within 3 6 := within_ofRatio 6 Nat.one_pos (by decide) (by decide)

/-- The scale of a channel as a byte. -/
theorem within_byte : Within 8 255 := within_ofRatio 255 Nat.one_pos (by decide) (by decide)

theorem one_le_ofNat {n : Nat} (hn : n < 2 ^ 24) (hone : 1 ≤ n) :
    1 ≤ (OfNat.ofNat n : Single).rational := by
  rw [rational_ofNat hn]
  exact_mod_cast hone

/-! ### Operations -/

theorem within_add (hx : Within d x) (hy : Within e y) (h : max d e < 63) :
    Within (max d e + 1) (x + y) := by
  refine (add_rounds hx.isFinite hy.isFinite).within (by omega) ?_
  have hx' := (hx.mono (le_max_left d e)).abs_le
  have hy' := (hy.mono (le_max_right d e)).abs_le
  rw [pow_succ]
  linarith [abs_add_le x.rational y.rational]

theorem within_sub (hx : Within d x) (hy : Within e y) (h : max d e < 63) :
    Within (max d e + 1) (x - y) := by
  refine (sub_rounds hx.isFinite hy.isFinite).within (by omega) ?_
  have hx' := (hx.mono (le_max_left d e)).abs_le
  have hy' := (hy.mono (le_max_right d e)).abs_le
  rw [pow_succ]
  linarith [abs_sub x.rational y.rational]

theorem within_mul (hx : Within d x) (hy : Within e y) (h : d + e < 64) :
    Within (d + e) (x * y) := by
  refine (mul_rounds hx.isFinite hy.isFinite).within h ?_
  rw [abs_mul, pow_add]
  exact mul_le_mul hx.abs_le hy.abs_le (abs_nonneg _) (by positivity)

/-- A quotient is bounded by how many times the divisor fits. -/
theorem within_div (hx : x.isFinite = true) (hy : y.isFinite = true) (hpos : 0 < y.rational)
    (he : e < 64) (h : |x.rational| ≤ 2 ^ e * y.rational) : Within e (x / y) := by
  refine (div_rounds hx hy hpos.ne').within he ?_
  rw [abs_div, abs_of_pos hpos, div_le_iff₀ hpos]
  exact h

/-- A divisor of one or more makes nothing larger. -/
theorem within_div_of_one_le (hx : Within e x) (hy : y.isFinite = true) (hone : 1 ≤ y.rational)
    (he : e < 64) : Within e (x / y) := by
  refine within_div hx.isFinite hy (by linarith) he ?_
  have hpow : (0 : Rat) < 2 ^ e := by positivity
  calc |x.rational| ≤ 2 ^ e := hx.abs_le
    _ ≤ 2 ^ e * y.rational := le_mul_of_one_le_right hpow.le hone

theorem within_floor (hx : Within e x) (he : e < 64) : Within e x.floor := by
  refine (floor_rounds hx.isFinite).within he ?_
  obtain ⟨hlow, hhigh⟩ := abs_le.mp hx.abs_le
  refine abs_le.mpr ⟨?_, (Int.floor_le _).trans hhigh⟩
  have hfloor : (-2 ^ e : Int) ≤ ⌊x.rational⌋ := Int.le_floor.mpr (by exact_mod_cast hlow)
  exact_mod_cast hfloor

theorem within_ofInt {n : Int} (he : e < 64) (h : |n| ≤ 2 ^ e) : Within e (ofInt n) := by
  refine (ofInt_rounds n).within he ?_
  exact_mod_cast h

theorem rational_abs (x : Single) : x.abs.rational = |x.rational| := by
  rw [abs_rational]
  rfl

theorem within_abs (hx : Within e x) : Within e x.abs := by
  refine ⟨hx.isFinite, ?_⟩
  rw [rational_abs, abs_abs]
  exact hx.abs_le

theorem within_neg (hx : Within e x) : Within e (-x) := by
  refine ⟨isFinite_neg hx.isFinite, ?_⟩
  rw [rational_neg, abs_neg]
  exact hx.abs_le

/-- The smaller of two numbers. -/
theorem lower_eq (hx : x.isNaN = false) (hy : y.isNaN = false) :
    (x.lower y).isNaN = false ∧ (x.lower y).rational = min x.rational y.rational := by
  simp only [lower, hy, Bool.false_eq_true, if_false, lt_iff_rational hx hy]
  split
  · next h => exact ⟨hx, (min_eq_left h.le).symm⟩
  · next h => exact ⟨hy, (min_eq_right (not_lt.mp h)).symm⟩

theorem upper_eq (hx : x.isNaN = false) (hy : y.isNaN = false) :
    (x.upper y).isNaN = false ∧ (x.upper y).rational = max x.rational y.rational := by
  simp only [upper, hy, Bool.false_eq_true, if_false, lt_iff_rational hy hx]
  split
  · next h => exact ⟨hx, (max_eq_left h.le).symm⟩
  · next h => exact ⟨hy, (max_eq_right (not_lt.mp h)).symm⟩

/-! ### Differences

The unit is the least distance of two numbers, so that a difference that is not zero is not
rounded to zero; and no difference with an infinity is undefined, as long as the other number is
finite. -/

/-- The least positive number. -/
def unit : Single := ofIndex false 1

theorem rational_unit : unit.rational = 1 / 2 ^ Format.single.unitBits := by
  have hunits : unit.units = 1 := rfl
  rw [rational_eq_units, hunits, Int.cast_one]

theorem sub_pos (hx : x.isFinite = true) (hy : y.isFinite = true) (h : y.rational < x.rational) :
    0 < (x - y).rational := by
  have hscale : (0 : Rat) < 2 ^ Format.single.unitBits := by positivity
  have hunits : y.units + 1 ≤ x.units := by
    rw [rational_eq_units, rational_eq_units, div_lt_div_iff_of_pos_right hscale] at h
    exact_mod_cast h
  have hgap : unit.rational ≤ x.rational - y.rational := by
    rw [rational_unit, rational_eq_units, rational_eq_units, ← sub_div,
      div_le_div_iff_of_pos_right hscale, le_sub_iff_add_le']
    exact_mod_cast hunits
  have hunit : 0 < unit.rational := by
    rw [rational_unit]
    positivity
  exact hunit.trans_le ((sub_rounds hx hy).ge rfl hgap)

theorem isInfinite_of_not (hx : x.isNaN = false) (hfinite : ¬ x.isFinite = true) :
    x.isInfinite = true := by
  simp only [isNaN, isFinite, isInfinite, decide_eq_true_eq, decide_eq_false_iff_not,
    beq_iff_eq] at *
  omega

theorem sub_infinite (hx : x.isFinite = true) (hy : y.isInfinite = true) : x - y = -y := by
  have hnan : y.isNaN = false := by
    simp only [isInfinite, beq_iff_eq] at hy
    simp [isNaN, hy]
  show sub x y = neg y
  have hneg : (neg y).isInfinite = true := hy
  have hnegNaN : (neg y).isNaN = false := hnan
  simp only [sub, add, orNaN, isNaN_of_isFinite hx, isInfinite_of_isFinite hx, hnan, hneg, hnegNaN,
    Bool.false_eq_true, if_true, if_false]

/-- Taking a number from `x` that is not negative, and possibly infinite, gives no more than `x`. -/
theorem sub_le (hx : x.isFinite = true) (hx0 : 0 ≤ x.rational) (hy : y.isNaN = false)
    (hy0 : 0 ≤ y.rational) : (x - y).isNaN = false ∧ (x - y).rational ≤ x.rational := by
  by_cases hfinite : y.isFinite = true
  · have hrounds := sub_rounds hx hfinite
    exact ⟨hrounds.isNaN, hrounds.le (isNaN_of_isFinite hx) (by linarith)⟩
  · rw [sub_infinite hx (isInfinite_of_not hy hfinite), rational_neg]
    exact ⟨hy, by linarith⟩

/-! ### Between zero and one -/

/-- A number between zero and one. -/
structure InUnit (x : Single) : Prop where
  isNaN : x.isNaN = false
  nonneg : 0 ≤ x.rational
  le_one : x.rational ≤ 1

theorem inUnit_iff : Binary.le 0 x = true ∧ x.le 1 = true ↔ InUnit x := by
  rw [le_iff_rational, le_iff_rational, rational_ofNat_zero, rational_one]
  constructor
  · rintro ⟨⟨-, hx, hlow⟩, -, -, hhigh⟩
    exact ⟨hx, hlow, hhigh⟩
  · rintro ⟨hx, hlow, hhigh⟩
    exact ⟨⟨isNaN_zero, hx, hlow⟩, hx, within_one.isNaN, hhigh⟩

theorem inUnit_zero : InUnit 0 := ⟨isNaN_zero, rational_ofNat_zero.ge, by
  rw [rational_ofNat_zero]
  exact zero_le_one⟩

theorem inUnit_one : InUnit 1 := ⟨within_one.isNaN, by
  rw [rational_one]
  exact zero_le_one, rational_one.le⟩

theorem InUnit.within (h : InUnit x) : Within 0 x := by
  have hle : |x.rational| ≤ 1 := abs_le.mpr ⟨by linarith [h.nonneg], h.le_one⟩
  refine ⟨isFinite_of_rational within_one.isFinite ?_, by rw [pow_zero]; exact hle⟩
  rw [rational_one, abs_one]
  exact hle

theorem inUnit_lower_one (hx : x.isNaN = false) (hnonneg : 0 ≤ x.rational) :
    InUnit (x.lower 1) := by
  obtain ⟨hnan, hvalue⟩ := lower_eq hx within_one.isNaN
  rw [rational_one] at hvalue
  refine ⟨hnan, ?_, ?_⟩
  · rw [hvalue]
    exact le_min hnonneg zero_le_one
  · rw [hvalue]
    exact min_le_right _ _

theorem inUnit_upper_zero (hx : x.isNaN = false) (hle : x.rational ≤ 1) :
    InUnit (x.upper 0) := by
  obtain ⟨hnan, hvalue⟩ := upper_eq hx isNaN_zero
  rw [rational_ofNat_zero] at hvalue
  refine ⟨hnan, ?_, ?_⟩
  · rw [hvalue]
    exact le_max_right _ _
  · rw [hvalue]
    exact max_le hle zero_le_one

theorem InUnit.lower (hx : InUnit x) (hy : InUnit y) : InUnit (x.lower y) := by
  obtain ⟨hnan, hvalue⟩ := lower_eq hx.isNaN hy.isNaN
  refine ⟨hnan, ?_, ?_⟩
  · rw [hvalue]
    exact le_min hx.nonneg hy.nonneg
  · rw [hvalue]
    exact (min_le_left _ _).trans hx.le_one

theorem InUnit.upper (hx : InUnit x) (hy : InUnit y) : InUnit (x.upper y) := by
  obtain ⟨hnan, hvalue⟩ := upper_eq hx.isNaN hy.isNaN
  refine ⟨hnan, ?_, ?_⟩
  · rw [hvalue]
    exact hx.nonneg.trans (le_max_left _ _)
  · rw [hvalue]
    exact max_le hx.le_one hy.le_one

/-- Any number is between zero and one when it is held there. -/
theorem inUnit_clamp (hx : x.isNaN = false) : InUnit (Scalar.clamp x 0 1) := by
  have hlow := lt_iff_rational hx isNaN_zero
  have hhigh := lt_iff_rational within_one.isNaN hx
  rw [rational_ofNat_zero] at hlow
  rw [rational_one] at hhigh
  show InUnit (if x.lt 0 then 0 else if Binary.lt 1 x then 1 else x)
  split
  · exact inUnit_zero
  · next h =>
    split
    · exact inUnit_one
    · next h' => exact ⟨hx, not_lt.mp (hlow.not.mp h), not_lt.mp (hhigh.not.mp h')⟩

end ColorChain.Binary
