import ColorChain.Proofs.Binary.Gap
import Mathlib.Algebra.Order.Floor.Ring
import Mathlib.Data.Rat.Floor
import Mathlib.Tactic.Linarith

/-! Binary numbers as rationals, signs included.

Numbers compare as the rationals do that they stand for, and every operation on finite numbers
gives the exact rational rounded (`Rounds`), which keeps the order of what is rounded
(`Rounds.mono`) and leaves alone what is a number already (`rounds_self`). So a number that bounds
the exact result bounds the rounded one. An infinity is on the line where the next magnitude
would be, behind all that is finite. -/
namespace ColorChain

namespace Format

variable (f : Format)

theorem value_zero : f.value 0 = 0 := by rw [value, Binary.units_zero, Nat.cast_zero, zero_div]

theorem value_pos {n : Nat} (hn : 0 < n) : 0 < f.value n := by
  rw [← f.value_zero]
  exact f.value_strictMono hn

/-- A magnitude is nearest to itself. -/
theorem nearestTo_value (n : Nat) : f.nearestTo (f.value n) = n := by
  rcases Nat.eq_zero_or_pos n with rfl | hn
  · simp [value_zero, nearestTo, nearestIndex, roundHalfEven]
  · refine f.nearestTo_of_near (f.value_pos hn).le ?_
    rw [sub_self, abs_zero, mul_zero]
    exact f.value_pos hn

end Format

namespace Binary

variable {f : Format} {x y z w : Binary f} {q r : Rat}

/-- The rational that a number stands for. -/
def rational (x : Binary f) : Rat := if x.negative then -x.magnitude else x.magnitude

theorem abs_rational (x : Binary f) : |x.rational| = x.magnitude := by
  unfold rational
  split
  · rw [abs_neg, abs_of_nonneg x.magnitude_nonneg]
  · exact abs_of_nonneg x.magnitude_nonneg

theorem rational_neg (x : Binary f) : (-x).rational = -x.rational := by
  show (neg x).rational = _
  cases hs : x.negative <;> simp [rational, neg, hs, magnitude]

theorem rational_eq_units (x : Binary f) : x.rational = x.units / 2 ^ f.unitBits := by
  unfold rational units magnitude Format.value
  split
  · push_cast
    rw [neg_div]
  · push_cast
    rfl

/-! ### Order -/

/-- Positions are in the order of the rationals. -/
theorem position_le_iff : x.position ≤ y.position ↔ x.rational ≤ y.rational := by
  have hmono := f.value_strictMono
  have hx := x.magnitude_nonneg
  have hy := y.magnitude_nonneg
  unfold position rational magnitude at *
  cases x.negative <;> cases y.negative <;> simp only [Bool.false_eq_true, if_true, if_false]
  · rw [hmono.le_iff_le]
    exact Int.ofNat_le
  · -- A positive number is below a negative one only when both are zeros.
    constructor
    · intro h
      have hindex : x.index = 0 ∧ y.index = 0 := by omega
      rw [hindex.1, hindex.2, f.value_zero, neg_zero]
    · intro h
      have hindex : x.index ≤ 0 ∧ y.index ≤ 0 := by
        rw [← hmono.le_iff_le, ← hmono.le_iff_le, f.value_zero]
        exact ⟨by linarith, by linarith⟩
      omega
  · exact ⟨fun _ => by linarith, fun _ => by omega⟩
  · rw [neg_le_neg_iff, neg_le_neg_iff, hmono.le_iff_le]
    exact Int.ofNat_le

theorem lt_iff_rational (hx : x.isNaN = false) (hy : y.isNaN = false) :
    x.lt y = true ↔ x.rational < y.rational := by
  rw [← not_le, ← position_le_iff]
  simp [lt, hx, hy]

theorem le_iff_rational :
    x.le y = true ↔ x.isNaN = false ∧ y.isNaN = false ∧ x.rational ≤ y.rational := by
  rw [le_iff, position_le_iff]

/-- Numbers that are not the same stand for different rationals. -/
theorem same_iff_rational (hx : x.isNaN = false) (hy : y.isNaN = false) :
    x.same y = true ↔ x.rational = y.rational := by
  rw [le_antisymm_iff (a := x.rational), ← position_le_iff, ← position_le_iff]
  simp only [same, hx, hy, Bool.not_false, Bool.true_and, beq_iff_eq]
  omega

theorem isZero_iff_rational : x.isZero = true ↔ x.rational = 0 := by
  rw [← abs_eq_zero, abs_rational, magnitude, isZero, beq_iff_eq]
  constructor
  · intro h
    rw [h, f.value_zero]
  · intro h
    by_contra hne
    exact (f.value_pos (Nat.pos_of_ne_zero hne)).ne' h

theorem isZero_of_rational (h : x.rational ≠ 0) : x.isZero = false := by
  rw [← Bool.not_eq_true, isZero_iff_rational]
  exact h

/-- A number between finite ones is finite. -/
theorem isFinite_of_rational (hx : x.isFinite = true) (h : |z.rational| ≤ |x.rational|) :
    z.isFinite = true := by
  rw [abs_rational, abs_rational] at h
  have hindex : z.index ≤ x.index := f.value_strictMono.le_iff_le.mp h
  exact decide_eq_true (hindex.trans_lt (of_decide_eq_true hx))

/-! ### Rounding -/

/-- The rational that the number nearest to a rational stands for. -/
def rounding (f : Format) (q : Rat) : Rat := (nearest (q < 0) |q| : Binary f).rational

theorem rational_nearest (negative : Bool) (q : Rat) :
    (nearest negative q : Binary f).rational =
      if negative then -(nearest false q : Binary f).magnitude
      else (nearest false q : Binary f).magnitude := rfl

theorem rounding_of_nonneg (hq : 0 ≤ q) : rounding f q = (nearest false q : Binary f).magnitude := by
  rw [rounding, rational_nearest, decide_eq_false (not_lt.mpr hq), abs_of_nonneg hq]
  rfl

theorem rounding_neg (q : Rat) : rounding f (-q) = -rounding f q := by
  rcases lt_trichotomy q 0 with hneg | rfl | hpos
  · rw [rounding_of_nonneg (by linarith), rounding, rational_nearest, decide_eq_true hneg,
      abs_of_neg hneg, if_pos rfl, neg_neg]
  · rw [neg_zero, rounding_of_nonneg le_rfl, nearest_zero, magnitude_zero, neg_zero]
  · rw [rounding_of_nonneg hpos.le, rounding, rational_nearest, decide_eq_true (by linarith),
      abs_neg, abs_of_pos hpos, if_pos rfl]

theorem rounding_nonneg (hq : 0 ≤ q) : 0 ≤ rounding f q := by
  rw [rounding_of_nonneg hq]
  exact magnitude_nonneg _

/-- Rounding keeps the order. -/
theorem rounding_mono (h : q ≤ r) : rounding f q ≤ rounding f r := by
  have hnonneg {q r : Rat} (hq : 0 ≤ q) (h : q ≤ r) : rounding f q ≤ rounding f r := by
    rw [rounding_of_nonneg hq, rounding_of_nonneg (hq.trans h)]
    exact f.value_strictMono.monotone (nearest_index_le hq h)
  rcases le_total 0 q with hq | hq
  · exact hnonneg hq h
  · rcases le_total 0 r with hr | hr
    · have hlow := rounding_nonneg (f := f) (neg_nonneg.mpr hq)
      have hhigh := rounding_nonneg (f := f) hr
      rw [rounding_neg] at hlow
      linarith
    · have hle := hnonneg (neg_nonneg.mpr hr) (neg_le_neg h)
      rw [rounding_neg, rounding_neg] at hle
      linarith

/-- What a number stands for is rounded to itself. -/
theorem rounding_rational (hx : x.isNaN = false) : rounding f x.rational = x.rational := by
  have hindex : x.index ≤ f.infinityIndex := by simpa [isNaN] using hx
  have hmagnitude : (nearest false x.magnitude : Binary f).magnitude = x.magnitude := by
    rw [magnitude, index_nearest_eq, magnitude, f.nearestTo_value, min_eq_left hindex]
  unfold rational
  split
  · rw [rounding_neg, rounding_of_nonneg x.magnitude_nonneg, hmagnitude]
  · rw [rounding_of_nonneg x.magnitude_nonneg, hmagnitude]

/-! ### Rounded results -/

/-- The number is a rational, rounded: all but the sign of a zero is said. -/
structure Rounds (z : Binary f) (q : Rat) : Prop where
  isNaN : z.isNaN = false
  rational : z.rational = rounding f q

theorem rounds_self (hx : x.isNaN = false) : Rounds x x.rational := ⟨hx, (rounding_rational hx).symm⟩

namespace Rounds

theorem mono (hz : Rounds z q) (hw : Rounds w r) (h : q ≤ r) : z.rational ≤ w.rational := by
  rw [hz.rational, hw.rational]
  exact rounding_mono h

/-- A number above the exact result is above the rounded one. -/
theorem le (hz : Rounds z q) (hx : x.isNaN = false) (h : q ≤ x.rational) :
    z.rational ≤ x.rational :=
  hz.mono (rounds_self hx) h

theorem ge (hz : Rounds z q) (hx : x.isNaN = false) (h : x.rational ≤ q) :
    x.rational ≤ z.rational :=
  (rounds_self hx).mono hz h

theorem nonneg (hz : Rounds z q) (h : 0 ≤ q) : 0 ≤ z.rational := by
  rw [hz.rational]
  exact rounding_nonneg h

theorem abs_mono (hz : Rounds z q) (hw : Rounds w r) (h : |q| ≤ r) : |z.rational| ≤ w.rational := by
  obtain ⟨hlow, hhigh⟩ := abs_le.mp h
  refine abs_le.mpr ⟨?_, hz.mono hw hhigh⟩
  rw [hz.rational, hw.rational, ← rounding_neg]
  exact rounding_mono hlow

end Rounds

theorem nearest_rounds (negative : Bool) (hq : 0 ≤ q) :
    Rounds (nearest negative q : Binary f) (if negative then -q else q) := by
  refine ⟨isNaN_nearest _ _, ?_⟩
  rw [rational_nearest, ← rounding_of_nonneg hq]
  cases negative
  · rfl
  · exact (rounding_neg q).symm

/-- A quotient by its sign and its magnitude. -/
theorem signed_rounds (n : Int) (den : Rat) (hden : 0 < den) :
    Rounds (nearest (n < 0) (n.natAbs / den) : Binary f) (n / den) := by
  have hrounds := nearest_rounds (f := f) (decide (n < 0)) (q := n.natAbs / den) (by positivity)
  have hsigned : (if decide (n < 0) = true then -((n.natAbs : Rat) / den) else n.natAbs / den) =
      n / den := by
    simp only [decide_eq_true_eq, Nat.cast_natAbs, Int.cast_abs]
    split
    · next hneg =>
      have hcast : (n : Rat) < 0 := by exact_mod_cast hneg
      rw [abs_of_neg hcast, neg_div, neg_neg]
    · next hnonneg =>
      have hcast : (0 : Rat) ≤ n := by exact_mod_cast not_lt.mp hnonneg
      rw [abs_of_nonneg hcast]
  rw [hsigned] at hrounds
  exact hrounds

theorem zero_rounds (negative : Bool) (hq : q = 0) : Rounds (zero negative : Binary f) q := by
  rw [← nearest_zero negative]
  have hrounds := nearest_rounds (f := f) negative (q := 0) le_rfl
  rw [neg_zero, ite_self] at hrounds
  rw [hq]
  exact hrounds

theorem ofUnits_rounds (n : Int) : Rounds (ofUnits n : Binary f) (n / 2 ^ f.unitBits) := by
  unfold ofUnits
  rw [ofQuotient_eq_nearest _ _ Nat.one_pos, Nat.cast_one, one_mul]
  exact signed_rounds n _ (by positivity)

theorem add_rounds (hx : x.isFinite = true) (hy : y.isFinite = true) :
    Rounds (x + y) (x.rational + y.rational) := by
  have hsum : x.rational + y.rational = ((x.units + y.units : Int) : Rat) / 2 ^ f.unitBits := by
    rw [rational_eq_units, rational_eq_units, ← add_div, Int.cast_add]
  have hadd : x + y =
      if x.units + y.units = 0 then zero (x.negative && y.negative)
      else ofUnits (x.units + y.units) := by
    show add x y = _
    simp only [add, orNaN, isNaN_of_isFinite hx, isNaN_of_isFinite hy, isInfinite_of_isFinite hx,
      isInfinite_of_isFinite hy, Bool.false_eq_true, if_false]
  rw [hadd, hsum]
  split
  · next hzero => exact zero_rounds _ (by rw [hzero, Int.cast_zero, zero_div])
  · exact ofUnits_rounds _

theorem isFinite_neg (hx : x.isFinite = true) : (-x).isFinite = true := hx

theorem sub_rounds (hx : x.isFinite = true) (hy : y.isFinite = true) :
    Rounds (x - y) (x.rational - y.rational) := by
  have hsub : x - y = x + -y := by
    show sub x y = add x (neg y)
    simp only [sub, orNaN, isNaN_of_isFinite hx, isNaN_of_isFinite hy, Bool.false_eq_true, if_false]
  rw [hsub, sub_eq_add_neg, ← rational_neg]
  exact add_rounds hx (isFinite_neg hy)

theorem mul_rounds (hx : x.isFinite = true) (hy : y.isFinite = true) :
    Rounds (x * y) (x.rational * y.rational) := by
  have hrounds := nearest_rounds (f := f) (x.negative != y.negative)
    (mul_nonneg x.magnitude_nonneg y.magnitude_nonneg)
  rw [mul_eq_nearest hx hy]
  cases hs : x.negative <;> cases ht : y.negative <;>
    simpa [rational, hs, ht] using hrounds

theorem div_rounds (hx : x.isFinite = true) (hy : y.isFinite = true) (h : y.rational ≠ 0) :
    Rounds (x / y) (x.rational / y.rational) := by
  have hrounds := nearest_rounds (f := f) (x.negative != y.negative)
    (div_nonneg x.magnitude_nonneg y.magnitude_nonneg)
  rw [div_eq_nearest hx hy (isZero_of_rational h)]
  cases hs : x.negative <;> cases ht : y.negative <;>
    simpa [rational, hs, ht, neg_div, div_neg] using hrounds

theorem ofInt_rounds (n : Int) : Rounds (ofInt n : Binary f) n := by
  have hrounds := signed_rounds (f := f) n 1 one_pos
  rw [div_one, div_one, ← ofInt_eq_nearest] at hrounds
  exact hrounds

theorem ofRatio_rounds (n : Nat) {d : Nat} (hd : 0 < d) :
    Rounds (ofRatio n d : Binary f) (n / d) := by
  rw [ofRatio_eq_nearest n hd]
  exact nearest_rounds false (by positivity)

theorem floor_rounds (hx : x.isFinite = true) : Rounds x.floor ⌊x.rational⌋ := by
  have hwhole : ⌊x.rational⌋ = x.units / (2 ^ f.unitBits : Nat) := by
    rw [rational_eq_units, ← Rat.floor_intCast_div_natCast]
    push_cast
    rfl
  simp only [floor, isNaN_of_isFinite hx, isInfinite_of_isFinite hx, Bool.false_eq_true, if_false]
  rw [hwhole]
  split
  · next hzero => exact zero_rounds _ (by rw [hzero, Int.cast_zero])
  · exact ofInt_rounds _

end Binary
end ColorChain
