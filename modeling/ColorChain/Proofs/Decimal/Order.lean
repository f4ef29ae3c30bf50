import ColorChain.Proofs.Binary.Gap
import ColorChain.Proofs.Decimal.Display

/-! Displaying numbers keeps their order.

Every step on the way to a displayed number, the conversion, the product with the power of ten and
the rounding to a whole number, keeps the order of numbers, and so does the number of the last
places that comes out, with its sign (`Display.count_le`). All that is displayed follows from this
number (`Display.rounded_of_count`). So a number between two that are displayed alike is displayed
like them. -/
namespace ColorChain

namespace Binary

variable {f : Format} {x y : Binary f}

theorem magnitude_le (h : x.index ≤ y.index) : x.magnitude ≤ y.magnitude :=
  f.value_strictMono.monotone h

theorem whole_le (h : x.index ≤ y.index) : x.whole ≤ y.whole := by
  have hunits : f.units x.index ≤ f.units y.index := f.units_strictMono.monotone h
  unfold whole roundHalfUp
  exact Nat.div_le_div_right (by omega)

end Binary

namespace Display

open Binary

variable {p : UInt32} {x y : Single}

/-- The larger of two magnitudes has no fewer places. -/
theorem places_le (hp : p.toNat ≤ maxPlaces) (hx : x.isFinite = true) (hy : y.isFinite = true)
    (h : x.index ≤ y.index) : places x p ≤ places y p := by
  apply whole_le
  rw [scaled_eq hp hx, scaled_eq hp hy]
  refine nearest_index_le (mul_nonneg x.magnitude_nonneg (by positivity)) ?_
  exact mul_le_mul_of_nonneg_right (magnitude_le h) (by positivity)

theorem places_zero (hp : p.toNat ≤ maxPlaces) (hx : x.isFinite = true) (h : x.index = 0) :
    places x p = 0 := by
  apply whole_eq
  have hmagnitude : x.magnitude = 0 := by
    rw [magnitude, h, Format.value, units_zero, Nat.cast_zero, zero_div]
  rw [scaled_eq hp hx, hmagnitude, zero_mul, nearest_zero, magnitude_zero]
  norm_num

/-- How many of the last place the number is, with its sign. -/
def count (x : Single) (p : UInt32) : Int :=
  if x.negative then -(places x p : Int) else places x p

/-- **The larger of two numbers is displayed no smaller.** -/
theorem count_le (hp : p.toNat ≤ maxPlaces) (hx : x.isFinite = true) (hy : y.isFinite = true)
    (h : x.position ≤ y.position) : count x p ≤ count y p := by
  unfold position at h
  unfold count
  cases hsx : x.negative with
  | true =>
    cases hsy : y.negative with
    | true =>
      simp only [hsx, hsy, if_true] at h ⊢
      have hle := places_le hp hy hx (by omega)
      omega
    | false =>
      simp only [if_true, Bool.false_eq_true, if_false]
      omega
  | false =>
    cases hsy : y.negative with
    | true =>
      -- Both are zeros.
      simp only [hsx, hsy, if_true, Bool.false_eq_true, if_false] at h ⊢
      rw [places_zero hp hx (by omega), places_zero hp hy (by omega)]
      rfl
    | false =>
      simp only [hsx, hsy, Bool.false_eq_true, if_false] at h ⊢
      have hle := places_le hp hx hy (by omega)
      omega

theorem natAbs_count (x : Single) (p : UInt32) : (count x p).natAbs = places x p := by
  unfold count
  cases x.negative with
  | true => rw [if_pos rfl, Int.natAbs_neg, Int.natAbs_natCast]
  | false => rw [if_neg Bool.false_ne_true, Int.natAbs_natCast]

/-- The count is negative when the number is, unless it is displayed as a zero. -/
theorem count_neg (x : Single) (p : UInt32) :
    decide (count x p < 0) = (x.negative && decide (places x p ≠ 0)) := by
  unfold count
  generalize places x p = k
  cases x.negative with
  | true => simp [Nat.pos_iff_ne_zero]
  | false => simp

/-- A number is displayed as its count says. -/
theorem rounded_eq_count (hp : p.toNat ≤ maxPlaces) (hx : x.isFinite = true) :
    rounded x p = nearest (decide (count x p < 0)) ((count x p).natAbs / 10 ^ p.toNat) := by
  rw [count_neg, natAbs_count]
  exact rounded_eq hp hx

/-- Numbers with the same count are displayed alike. -/
theorem rounded_of_count (hp : p.toNat ≤ maxPlaces) (hx : x.isFinite = true)
    (hy : y.isFinite = true) (h : count x p = count y p) : rounded x p = rounded y p := by
  rw [rounded_eq_count hp hx, rounded_eq_count hp hy, h]

/-- What is displayed of a number that is not too large has the number's count. -/
theorem count_shown (hp : p.toNat ≤ maxPlaces) (hlt : places x p < 2 ^ 22)
    (hshown : (shown x p).isFinite = true) : count (shown x p) p = count x p := by
  have hplaces : places (shown x p) p = places x p := places_nearest hp hlt hshown
  have hsign : (shown x p).negative = (x.negative && decide (places x p ≠ 0)) := rfl
  unfold count
  rw [hplaces, hsign]
  generalize places x p = k
  cases x.negative with
  | true => by_cases hzero : k = 0 <;> simp [hzero]
  | false => simp

end Display
end ColorChain
