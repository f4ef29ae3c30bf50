import ColorChain.Proofs.Binary.Rounding
import ColorChain.Proofs.Binary.Same
import Mathlib.Data.Rat.Cast.Order
import Mathlib.Tactic.FieldSimp
import Mathlib.Tactic.Linarith
import Mathlib.Tactic.Positivity

/-! Binary numbers as rationals.

`Binary.nearest` is the number nearest to a rational, and every operation on finite numbers
is the nearest number to the exact result. How far the two can be apart is said once, for
`nearest`: no number of the format is nearer (`magnitude_nearest_le`), a magnitude of the format
is met exactly, and any other with a relative error of half the last fraction bit. -/
namespace ColorChain

/-- The magnitude of index `n`. -/
def Format.value (f : Format) (n : Nat) : Rat := (f.units n : Rat) / 2 ^ f.unitBits

theorem Format.value_mul_unit (f : Format) (n : Nat) : f.value n * 2 ^ f.unitBits = f.units n :=
  div_mul_cancel₀ _ (by positivity)

namespace Binary

variable {f : Format}

/-- The magnitude of a finite number. -/
def magnitude (x : Binary f) : Rat := f.value x.index

/-- The number with the given sign whose magnitude is nearest to `q`. -/
def nearest (negative : Bool) (q : Rat) : Binary f :=
  ofQuotient negative (q.num.natAbs * 2 ^ f.unitBits) q.den

theorem natAbs_num {q : Rat} (hq : 0 ≤ q) : (q.num.natAbs : Rat) = q * q.den := by
  have hnum : ((q.num.natAbs : Int) : Rat) = q.num := by
    rw [Int.natAbs_of_nonneg (Rat.num_nonneg.mpr hq)]
  rw [Rat.mul_den_eq_num, ← hnum, Int.cast_natCast]

theorem ofQuotient_eq_nearest (negative : Bool) (num : Nat) {den : Nat} (hden : 0 < den) :
    (ofQuotient negative num den : Binary f) =
      nearest negative ((num : Rat) / (den * 2 ^ f.unitBits)) := by
  generalize hq : (num : Rat) / (den * 2 ^ f.unitBits) = q
  have hq0 : 0 ≤ q := by rw [← hq]; positivity
  have hcross : q.num.natAbs * 2 ^ f.unitBits * den = num * q.den := by
    have hd : (den : Rat) ≠ 0 := by exact_mod_cast hden.ne'
    have hcast : ((q.num.natAbs * 2 ^ f.unitBits * den : Nat) : Rat) = (num * q.den : Nat) := by
      push_cast
      rw [natAbs_num hq0]
      nth_rewrite 1 [← hq]
      field_simp
    exact_mod_cast hcast
  have hindex : f.nearestIndex num den = f.nearestIndex (q.num.natAbs * 2 ^ f.unitBits) q.den := by
    rw [← f.nearestIndex_mul_right num den q.den_pos, ← f.nearestIndex_mul_right _ q.den hden,
      ← hcross, Nat.mul_comm den]
  unfold nearest ofQuotient
  simp only [hindex]

theorem magnitude_nonneg (x : Binary f) : 0 ≤ x.magnitude := by
  unfold magnitude Format.value
  positivity

theorem Alike.magnitude {x y : Binary f} (h : Alike x y) : x.magnitude = y.magnitude := by
  rw [Binary.magnitude, Binary.magnitude, h.index]

/-- The magnitudes of the first `k` blocks and one. -/
theorem magnitude_lt_of_index {x : Binary f} {k e : Nat}
    (h : x.index < (k + 1) * 2 ^ f.fractionBits)
    (he : f.fractionBits + k = e + f.unitBits) : x.magnitude < 2 ^ e := by
  have hunits := f.units_lt h
  have hcast : (f.units x.index : Rat) < 2 ^ e * 2 ^ f.unitBits := by
    rw [← pow_add, ← he]
    exact_mod_cast hunits
  exact (div_lt_iff₀ (by positivity)).mpr hcast

theorem magnitude_zero (negative : Bool) : (zero negative : Binary f).magnitude = 0 := by
  have hindex : (zero negative : Binary f).index = 0 := rfl
  rw [magnitude, hindex, Format.value, units_zero, Nat.cast_zero, zero_div]

theorem not_isZero_of_magnitude {x : Binary f} (h : 0 < x.magnitude) : x.isZero = false := by
  by_contra hzero
  have hindex : x.index = 0 := by simpa [isZero] using hzero
  have hmagnitude : x.magnitude = (zero x.negative : Binary f).magnitude := by
    rw [magnitude, magnitude, hindex]
    rfl
  rw [hmagnitude, magnitude_zero] at h
  exact lt_irrefl 0 h

theorem isNaN_of_isFinite {x : Binary f} (h : x.isFinite = true) : x.isNaN = false := by
  unfold isFinite isNaN at *
  simp only [decide_eq_true_eq, decide_eq_false_iff_not] at *
  omega

theorem isInfinite_of_isFinite {x : Binary f} (h : x.isFinite = true) : x.isInfinite = false := by
  unfold isFinite isInfinite at *
  simp only [decide_eq_true_eq, beq_eq_false_iff_ne] at *
  omega

/-! ### Every operation rounds the exact result once -/

theorem mul_eq_nearest {x y : Binary f} (hx : x.isFinite = true) (hy : y.isFinite = true) :
    x * y = nearest (x.negative != y.negative) (x.magnitude * y.magnitude) := by
  show mul x y = _
  simp only [mul, orNaN, isNaN_of_isFinite hx, isNaN_of_isFinite hy, isInfinite_of_isFinite hx,
    isInfinite_of_isFinite hy, Bool.false_eq_true, Bool.or_false, if_false]
  rw [ofQuotient_eq_nearest _ _ (Nat.two_pow_pos _)]
  congr 1
  unfold magnitude Format.value
  push_cast
  rw [div_mul_div_comm]

theorem div_eq_nearest {x y : Binary f} (hx : x.isFinite = true) (hy : y.isFinite = true)
    (hzero : y.isZero = false) :
    x / y = nearest (x.negative != y.negative) (x.magnitude / y.magnitude) := by
  have hpos : 0 < f.units y.index := by
    simp only [isZero, beq_eq_false_iff_ne] at hzero
    exact f.units_pos (by omega)
  show div x y = _
  simp only [div, orNaN, isNaN_of_isFinite hx, isNaN_of_isFinite hy, isInfinite_of_isFinite hx,
    isInfinite_of_isFinite hy, hzero, Bool.false_eq_true, if_false]
  rw [ofQuotient_eq_nearest _ _ hpos]
  congr 1
  have hunits : (f.units y.index : Rat) ≠ 0 := by exact_mod_cast hpos.ne'
  unfold magnitude Format.value
  push_cast
  field_simp

theorem convert_eq_nearest {g : Format} {x : Binary f} (hx : x.isFinite = true) :
    (x.convert : Binary g) = nearest x.negative x.magnitude := by
  simp only [convert, isNaN_of_isFinite hx, isInfinite_of_isFinite hx, Bool.false_eq_true, if_false]
  rw [ofQuotient_eq_nearest _ _ (Nat.two_pow_pos _)]
  congr 1
  unfold magnitude Format.value
  push_cast
  field_simp

/-- The whole number that a finite number is rounded to, without its sign. -/
def whole (x : Binary f) : Nat := roundHalfUp (f.units x.index) (2 ^ f.unitBits)

/-- A magnitude in parts less than a half away from `n`, in units. -/
theorem units_parts {x : Binary f} {parts n : Nat} (h : |x.magnitude * parts - n| < 1 / 2) :
    2 * (n * 2 ^ f.unitBits) < 2 * (f.units x.index * parts) + 2 ^ f.unitBits ∧
      2 * (f.units x.index * parts) < 2 * (n * 2 ^ f.unitBits) + 2 ^ f.unitBits := by
  obtain ⟨hlow, hhigh⟩ := abs_lt.mp h
  have hscale : (0 : Rat) < 2 ^ f.unitBits := by positivity
  have hunits : (f.units x.index : Rat) = x.magnitude * 2 ^ f.unitBits :=
    (f.value_mul_unit x.index).symm
  refine ⟨?_, ?_⟩
  · have hcast : (2 * (n * 2 ^ f.unitBits) : Rat) <
        2 * (f.units x.index * parts) + 2 ^ f.unitBits := by
      rw [hunits]
      nlinarith
    exact_mod_cast hcast
  · have hcast : (2 * (f.units x.index * parts) : Rat) <
        2 * (n * 2 ^ f.unitBits) + 2 ^ f.unitBits := by
      rw [hunits]
      nlinarith
    exact_mod_cast hcast

/-- A number goes up to a whole number that is a half away and not down to one. -/
theorem whole_bounds (x : Binary f) :
    (x.whole : Rat) ≤ x.magnitude + 1 / 2 ∧ x.magnitude < x.whole + 1 / 2 := by
  obtain ⟨hhigh, hlow⟩ := roundHalfUp_error (f.units x.index) (Nat.two_pow_pos f.unitBits)
  have hscale : (0 : Rat) < 2 ^ f.unitBits := by positivity
  have hhigh' := (Nat.cast_le (α := Rat)).mpr hhigh
  have hlow' := (Nat.cast_lt (α := Rat)).mpr hlow
  push_cast at hhigh' hlow'
  rw [← f.value_mul_unit x.index] at hhigh' hlow'
  unfold whole magnitude
  refine ⟨?_, ?_⟩
  · refine le_of_mul_le_mul_right ?_ hscale
    linarith
  · refine lt_of_mul_lt_mul_right ?_ hscale.le
    linarith

/-- A rounded number is at most a half away. -/
theorem whole_near (x : Binary f) : |(x.whole : Rat) - x.magnitude| ≤ 1 / 2 := by
  obtain ⟨hhigh, hlow⟩ := x.whole_bounds
  rw [abs_le]
  exact ⟨by linarith, by linarith⟩

/-- What is less than a half away from a whole number is rounded to it. -/
theorem whole_eq {x : Binary f} {n : Nat} (h : |x.magnitude - n| < 1 / 2) : x.whole = n := by
  obtain ⟨hlow, hhigh⟩ := @units_parts _ x 1 n (by simpa using h)
  exact roundHalfUp_eq (by omega) (by omega)

theorem roundHalfEven_parts {x : Binary f} {parts n : Nat} (h : |x.magnitude * parts - n| < 1 / 2) :
    roundHalfEven (f.units x.index * parts) (2 ^ f.unitBits) = n := by
  obtain ⟨hlow, hhigh⟩ := units_parts h
  exact roundHalfEven_eq hlow hhigh

/-- A magnitude in parts, rounded, is at most a half away from what it was. -/
theorem roundHalfEven_parts_near (x : Binary f) (parts : Nat) :
    |(roundHalfEven (f.units x.index * parts) (2 ^ f.unitBits) : Rat) - x.magnitude * parts| ≤
      1 / 2 := by
  obtain ⟨hhigh, hlow⟩ :=
    roundHalfEven_error (f.units x.index * parts) (Nat.two_pow_pos f.unitBits)
  have hscale : (0 : Rat) < 2 ^ f.unitBits := by positivity
  have hhigh' := (Nat.cast_le (α := Rat)).mpr hhigh
  have hlow' := (Nat.cast_le (α := Rat)).mpr hlow
  push_cast at hhigh' hlow'
  rw [← f.value_mul_unit x.index] at hhigh' hlow'
  unfold magnitude
  rw [abs_le]
  refine ⟨?_, ?_⟩
  · refine le_of_mul_le_mul_right ?_ hscale
    linarith
  · refine le_of_mul_le_mul_right ?_ hscale
    linarith

theorem round_eq_nearest {x : Binary f} (hx : x.isFinite = true) :
    x.round = nearest x.negative x.whole := by
  simp only [round, isNaN_of_isFinite hx, isInfinite_of_isFinite hx, Bool.false_eq_true, if_false]
  rw [ofQuotient_eq_nearest _ _ Nat.one_pos]
  congr 1
  unfold whole
  push_cast
  field_simp

/-- The whole part of a whole number is the number itself, with its sign. -/
theorem truncate_whole {x : Binary f} {n : Nat} (hx : x.isFinite = true) (h : x.magnitude = n)
    (low high : Int) :
    x.truncate low high = max low (min high (if x.negative then -(n : Int) else n)) := by
  have hunits : f.units x.index = n * 2 ^ f.unitBits := by
    have hvalue := f.value_mul_unit x.index
    rw [← magnitude, h] at hvalue
    exact_mod_cast hvalue.symm
  have hpos : ((2 ^ f.unitBits : Nat) : Int) ≠ 0 := by exact_mod_cast (Nat.two_pow_pos _).ne'
  simp only [truncate, isNaN_of_isFinite hx, isInfinite_of_isFinite hx, Bool.false_eq_true,
    if_false, units, hunits]
  generalize 2 ^ f.unitBits = unit at *
  split
  · rw [Nat.cast_mul, Int.neg_tdiv, Int.mul_tdiv_cancel _ hpos]
  · rw [Nat.cast_mul, Int.mul_tdiv_cancel _ hpos]

theorem ofRatio_eq_nearest (n : Nat) {d : Nat} (hd : 0 < d) :
    (ofRatio n d : Binary f) = nearest false (n / d) := by
  unfold ofRatio
  rw [ofQuotient_eq_nearest _ _ hd]
  congr 1
  push_cast
  field_simp

theorem ofRatio_one (n : Nat) : (ofRatio n 1 : Binary f) = nearest false n := by
  rw [ofRatio_eq_nearest n Nat.one_pos, Nat.cast_one, div_one]

theorem ofInt_eq_nearest (n : Int) : (ofInt n : Binary f) = nearest (n < 0) n.natAbs := by
  unfold ofInt
  rw [ofQuotient_eq_nearest _ _ Nat.one_pos]
  congr 1
  push_cast
  rw [one_mul, mul_div_cancel_right₀ _ (by positivity)]

/-! ### The nearest number -/

end Binary

/-- The index of the magnitude nearest to a rational. -/
def Format.nearestTo (f : Format) (q : Rat) : Nat :=
  f.nearestIndex (q.num.natAbs * 2 ^ f.unitBits) q.den

/-- No magnitude is nearer to a rational than the nearest one. -/
theorem Format.value_nearestTo_le (f : Format) {q : Rat} (hq : 0 ≤ q) (n : Nat) :
    |f.value (f.nearestTo q) - q| ≤ |f.value n - q| := by
  have hscale : (0 : Rat) < q.den * 2 ^ f.unitBits := by positivity
  have hdistance (n : Nat) :
      |f.value n - q| * (q.den * 2 ^ f.unitBits) =
        apart (f.units n * q.den) (q.num.natAbs * 2 ^ f.unitBits) := by
    have hunits : (f.value n - q) * (q.den * 2 ^ f.unitBits) =
        f.units n * q.den - q.num.natAbs * 2 ^ f.unitBits := by
      rw [Binary.natAbs_num hq, ← f.value_mul_unit n]
      ring
    unfold apart
    rw [Nat.cast_natAbs, ← abs_of_pos hscale, ← abs_mul, hunits]
    push_cast
    rw [Nat.cast_natAbs, Int.cast_abs]
  have hnearest := f.nearestIndex_nearest (q.num.natAbs * 2 ^ f.unitBits) q.den_pos n
  refine le_of_mul_le_mul_right ?_ hscale
  rw [hdistance, hdistance]
  exact_mod_cast hnearest

namespace Binary

variable {f : Format}

theorem nearest_zero (negative : Bool) : (nearest negative 0 : Binary f) = zero negative := by
  have hindex := index_ofQuotient_zero (f := f) negative 1
  apply ext
  · rfl
  · simpa [nearest, zero] using hindex

theorem index_nearest_eq (negative : Bool) (q : Rat) :
    (nearest negative q : Binary f).index = min (f.nearestTo q) f.infinityIndex := rfl

theorem isNaN_nearest (negative : Bool) (q : Rat) :
    (nearest negative q : Binary f).isNaN = false := by
  rw [isNaN, index_nearest_eq, decide_eq_false_iff_not, not_lt]
  exact Nat.min_le_right _ _

theorem nearest_eq_of_nearestTo {q q' : Rat} (h : f.nearestTo q = f.nearestTo q')
    (negative : Bool) : (nearest negative q : Binary f) = nearest negative q' := by
  apply ext
  · rfl
  · rw [index_nearest_eq, index_nearest_eq, h]

theorem index_nearest {negative : Bool} {q : Rat}
    (h : (nearest negative q : Binary f).isFinite = true) :
    (nearest negative q : Binary f).index = f.nearestTo q := by
  have hlt := of_decide_eq_true h
  rw [index_nearest_eq] at hlt ⊢
  omega

theorem isFinite_nearest {q : Rat} {k : Nat} (hq : 0 ≤ q) (hlt : q * 2 ^ f.unitBits < 2 ^ k)
    (hk : k + 3 ≤ f.fractionBits + 2 ^ f.exponentBits) (he : 1 < f.exponentBits)
    (negative : Bool) : (nearest negative q : Binary f).isFinite = true := by
  have hden : (0 : Rat) < q.den := by exact_mod_cast q.den_pos
  have hnum : q.num.natAbs * 2 ^ f.unitBits < 2 ^ k * q.den := by
    have hcast : ((q.num.natAbs * 2 ^ f.unitBits : Nat) : Rat) < (2 ^ k * q.den : Nat) := by
      push_cast
      rw [natAbs_num hq]
      nlinarith
    exact_mod_cast hcast
  have hindex := f.nearestIndex_lt q.den_pos hnum hk he
  unfold nearest ofQuotient isFinite
  simp only [decide_eq_true_eq]
  omega

theorem isFinite_of_lt {q : Rat} {e : Nat} (hq : 0 ≤ q) (hlt : q < 2 ^ e)
    (hbits : e + f.unitBits + 3 ≤ f.fractionBits + 2 ^ f.exponentBits) (he : 1 < f.exponentBits)
    (negative : Bool) : (nearest negative q : Binary f).isFinite = true := by
  have hunit : (0 : Rat) < 2 ^ f.unitBits := by positivity
  refine isFinite_nearest (k := e + f.unitBits) hq ?_ hbits he negative
  rw [pow_add]
  exact mul_lt_mul_of_pos_right hlt hunit

/-- **No finite number has a magnitude nearer to a rational** than the nearest one. -/
theorem magnitude_nearest_le {negative : Bool} {q : Rat} (hq : 0 ≤ q)
    (hfinite : (nearest negative q : Binary f).isFinite = true) (x : Binary f) :
    |(nearest negative q : Binary f).magnitude - q| ≤ |x.magnitude - q| := by
  rw [magnitude, magnitude, index_nearest hfinite]
  exact f.value_nearestTo_le hq x.index

/-- A magnitude that the format has is met exactly. -/
theorem magnitude_nearest_shift {negative : Bool} {q : Rat} {m t : Nat} (hq : 0 ≤ q)
    (hm : m < 2 ^ (f.fractionBits + 1)) (h : q * 2 ^ f.unitBits = m * 2 ^ t)
    (hfinite : (nearest negative q : Binary f).isFinite = true) :
    (nearest negative q : Binary f).magnitude = q := by
  have hnum : q.num.natAbs * 2 ^ f.unitBits = m * 2 ^ t * q.den := by
    have hcast : ((q.num.natAbs * 2 ^ f.unitBits : Nat) : Rat) = (m * 2 ^ t * q.den : Nat) := by
      push_cast
      rw [natAbs_num hq, ← h]
      ring
    exact_mod_cast hcast
  unfold magnitude Format.value
  rw [index_nearest hfinite, Format.nearestTo, f.nearestIndex_shift q.den_pos hm hnum]
  push_cast
  rw [← h]
  field_simp

/-- Any other magnitude is met with a small relative error. -/
theorem magnitude_nearest_error {negative : Bool} {q : Rat} (hq : 0 ≤ q)
    (hunit : 2 ^ f.fractionBits ≤ q * 2 ^ f.unitBits)
    (hfinite : (nearest negative q : Binary f).isFinite = true) :
    |(nearest negative q : Binary f).magnitude - q| ≤ q / 2 ^ (f.fractionBits + 1) := by
  have hden : (0 : Rat) < q.den := by exact_mod_cast q.den_pos
  have hnum : 2 ^ f.fractionBits * q.den ≤ q.num.natAbs * 2 ^ f.unitBits := by
    have hcast : ((2 ^ f.fractionBits * q.den : Nat) : Rat) ≤
        (q.num.natAbs * 2 ^ f.unitBits : Nat) := by
      push_cast
      rw [natAbs_num hq]
      nlinarith
    exact_mod_cast hcast
  obtain ⟨hlow, hhigh⟩ := f.nearestIndex_error q.den_pos hnum
  -- Both bounds, scaled back from units.
  have hw : (0 : Rat) < 2 ^ f.unitBits := by positivity
  have hunits : (f.units (f.nearestIndex (q.num.natAbs * 2 ^ f.unitBits) q.den) : Rat) =
      (nearest negative q : Binary f).magnitude * 2 ^ f.unitBits := by
    rw [magnitude, index_nearest hfinite, f.value_mul_unit, Format.nearestTo]
  have hlow' := (Nat.cast_le (α := Rat)).mpr hlow
  have hhigh' := (Nat.cast_le (α := Rat)).mpr hhigh
  push_cast at hlow' hhigh'
  rw [natAbs_num hq, hunits] at hlow' hhigh'
  generalize (nearest negative q : Binary f).magnitude = v at *
  have hscale : (0 : Rat) < 2 ^ (f.fractionBits + 1) := by positivity
  have hdw : (0 : Rat) < q.den * 2 ^ f.unitBits := by positivity
  rw [le_div_iff₀ hscale, ← abs_of_pos hscale, ← abs_mul, abs_le]
  refine ⟨?_, ?_⟩
  · refine le_of_mul_le_mul_right ?_ hdw
    linarith
  · refine le_of_mul_le_mul_right ?_ hdw
    linarith

/-! ### Doubles of moderate size -/

theorem isFinite_double {q : Rat} (hq : 0 ≤ q) (hlt : q < 2 ^ 256) (negative : Bool) :
    (nearest negative q : Double).isFinite = true :=
  isFinite_of_lt hq hlt (by decide) (by decide) negative

/-- Fifty-three bits with zeros after them are met exactly. -/
theorem magnitude_double {m t : Nat} (hm : m < 2 ^ 53) (hlt : (m * 2 ^ t : Rat) < 2 ^ 256)
    (negative : Bool) : (nearest negative (m * 2 ^ t) : Double).magnitude = m * 2 ^ t := by
  have hq : (0 : Rat) ≤ m * 2 ^ t := by positivity
  refine magnitude_nearest_shift (m := m) (t := t + Format.double.unitBits) hq hm ?_
    (isFinite_double hq hlt negative)
  rw [pow_add, mul_assoc]

theorem magnitude_whole {n : Nat} (hn : n < 2 ^ 53) (negative : Bool) :
    (nearest negative n : Double).magnitude = n := by
  have hlt : (n * 2 ^ 0 : Rat) < 2 ^ 53 := by
    rw [pow_zero, mul_one]
    exact_mod_cast hn
  have hmagnitude := magnitude_double hn (hlt.trans (by norm_num)) negative
  simpa using hmagnitude

/-- A large double is a whole number. -/
theorem magnitude_eq_shift {x : Double} (h : 2 ^ 53 ≤ x.magnitude) :
    ∃ m t : Nat, m < 2 ^ 53 ∧ x.magnitude = m * 2 ^ t := by
  obtain ⟨m, t, hunits, hm⟩ := Format.double.units_eq_shift x.index
  have hvalue : x.magnitude * 2 ^ Format.double.unitBits = m * 2 ^ t := by
    rw [magnitude, Format.value_mul_unit, hunits]
    push_cast
    rfl
  have hunit : (0 : Rat) < 2 ^ Format.double.unitBits := by positivity
  have hm' : m < 2 ^ 53 := hm
  have hcast : (m : Rat) < 2 ^ 53 := by exact_mod_cast hm'
  generalize Format.double.unitBits = unit at *
  have ht : unit ≤ t := by
    by_contra hlt
    have hpow : (2 : Rat) ^ t ≤ 2 ^ unit := pow_le_pow_right₀ (by norm_num) (by omega)
    have hsmall : m * 2 ^ t < (2 : Rat) ^ 53 * 2 ^ unit :=
      mul_lt_mul_of_lt_of_le_of_nonneg_of_pos hcast hpow (by positivity) hunit
    have hlarge := mul_le_mul_of_nonneg_right h hunit.le
    rw [hvalue] at hlarge
    exact absurd hlarge (not_le.mpr hsmall)
  refine ⟨m, t - unit, hm', ?_⟩
  refine mul_right_cancel₀ hunit.ne' ?_
  rw [hvalue, mul_assoc, ← pow_add, Nat.sub_add_cancel ht]

/-- The whole number that a double is rounded to is a double. -/
theorem magnitude_nearest_whole {x : Double} (hlt : x.magnitude < 2 ^ 255) (negative : Bool) :
    (nearest negative x.whole : Double).magnitude = x.whole := by
  by_cases hlarge : 2 ^ 53 ≤ x.magnitude
  · obtain ⟨m, t, hm, hvalue⟩ := magnitude_eq_shift hlarge
    have hwhole : x.whole = m * 2 ^ t := by
      apply whole_eq
      rw [hvalue]
      push_cast
      norm_num
    rw [hwhole]
    push_cast
    refine magnitude_double hm ?_ negative
    rw [← hvalue]
    exact hlt.trans (by norm_num)
  · have hnear := (abs_le.mp x.whole_near).2
    have hle : x.whole < 2 ^ 53 + 1 := by
      have hcast : (x.whole : Rat) < (2 ^ 53 + 1 : Nat) := by
        push_cast
        linarith
      exact_mod_cast hcast
    rcases Nat.lt_or_eq_of_le (Nat.le_of_lt_succ hle) with hsmall | heq
    · exact magnitude_whole hsmall negative
    · have hpower := magnitude_double (m := 1) (t := 53) (by norm_num) (by norm_num) negative
      rw [heq, Nat.cast_pow, Nat.cast_ofNat]
      simpa only [Nat.cast_one, one_mul] using hpower

/-! ### Singles of moderate size -/

theorem isFinite_single {q : Rat} (hq : 0 ≤ q) (hlt : q < 2 ^ 64) (negative : Bool) :
    (nearest negative q : Single).isFinite = true :=
  isFinite_of_lt hq hlt (by decide) (by decide) negative

theorem isFinite_small {n : Nat} (hn : n < 2 ^ 24) (negative : Bool) :
    (nearest negative n : Single).isFinite = true := by
  have hlt : (n : Rat) < 2 ^ 24 := by exact_mod_cast hn
  exact isFinite_single (by positivity) (hlt.trans (by norm_num)) negative

/-- Twenty-four bits are met exactly. -/
theorem magnitude_small {n : Nat} (hn : n < 2 ^ 24) (negative : Bool) :
    (nearest negative n : Single).magnitude = n :=
  magnitude_nearest_shift (m := n) (t := Format.single.unitBits) (by positivity) hn rfl
    (isFinite_small hn negative)

/-! ### Decimals -/

theorem ten_pow_lt {p : Nat} (hp : p ≤ 22) : (10 : Rat) ^ p < 2 ^ 74 := by
  have hle : (10 : Rat) ^ p ≤ 10 ^ 22 := pow_le_pow_right₀ (by norm_num) hp
  exact hle.trans_lt (by norm_num)

/-- The odd part of a power of ten has few enough bits. -/
theorem magnitude_ten {n : Nat} (hn : n ≤ 22) (negative : Bool) :
    (nearest negative (10 ^ n) : Double).magnitude = 10 ^ n := by
  have hfive : 5 ^ n < 2 ^ 53 := by
    have hle : 5 ^ n ≤ 5 ^ 22 := Nat.pow_le_pow_right (by omega) hn
    exact hle.trans_lt (by norm_num)
  have hten : (10 : Rat) ^ n = (5 ^ n : Nat) * 2 ^ n := by
    push_cast
    rw [← mul_pow]
    norm_num
  rw [hten]
  refine magnitude_double hfive ?_ negative
  rw [← hten]
  exact (ten_pow_lt hn).trans (by norm_num)

/-- A decimal that is not zero, with few places, is large against the unit. -/
theorem le_unit {n p : Nat} (hf : f.fractionBits + 74 ≤ f.unitBits) (hp : p ≤ 22) (hn : 0 < n) :
    (2 : Rat) ^ f.fractionBits ≤ n / 10 ^ p * 2 ^ f.unitBits := by
  have hten : (0 : Rat) < 10 ^ p := by positivity
  have hone : (1 : Rat) ≤ n := by exact_mod_cast hn
  rw [div_mul_eq_mul_div, le_div_iff₀ hten]
  calc (2 : Rat) ^ f.fractionBits * 10 ^ p
      ≤ 2 ^ f.fractionBits * 2 ^ 74 :=
        mul_le_mul_of_nonneg_left (ten_pow_lt hp).le (by positivity)
    _ = 2 ^ (f.fractionBits + 74) := (pow_add ..).symm
    _ ≤ 1 * 2 ^ f.unitBits := by
        rw [one_mul]
        exact pow_le_pow_right₀ (by norm_num) hf
    _ ≤ n * 2 ^ f.unitBits := mul_le_mul_of_nonneg_right hone (by positivity)

end Binary
end ColorChain
