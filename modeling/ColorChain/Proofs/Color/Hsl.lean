import ColorChain.Checked
import ColorChain.Proofs.Color.Hue

/-! Conversions there and back.

A saturation and a lightness say which values the greatest and the least channel take: they lie
around the lightness, as far apart as the saturation says of the distance that the lightness leaves
(`reach`). With these two values both conversions go through the same sector of hues
(`toRgb_of_sector`, `ofRgb_of_sector`), so each undoes the other where there is a hue to keep.
`hsl_inverse` has both ways, the greys, and the bounds. -/
namespace ColorChain

/-! ### Divisions -/

namespace Checked

variable {a b : Rat}

theorem add_value : value a + value b = value (a + b) := rfl

theorem sub_value : value a - value b = value (a - b) := rfl

theorem div_value (hb : b ≠ 0) : value a / value b = value (a / b) := if_neg hb

theorem lower_value : Scalar.lower (value a) (value b) = value (Scalar.lower a b) := rfl

theorem upper_value : Scalar.upper (value a) (value b) = value (Scalar.upper a b) := rfl

theorem lt_value : Scalar.lt (value a) (value b) = Scalar.lt a b := rfl

theorem same_value : Scalar.same (value a) (value b) = Scalar.same a b := rfl

theorem ratio_value (n : Nat) {d : Nat} (hd : d ≠ 0) :
    (Scalar.ratio n d : Checked) = value (Scalar.ratio n d) :=
  div_value (Nat.cast_ne_zero.mpr hd)

theorem ite_value (test : Bool) :
    (if test then value a else value b) = value (if test then a else b) :=
  (apply_ite value (test = true) a b).symm

end Checked

namespace Hsl
open Scalar Checked

variable {p q h s l : Rat} {c : Vec3 Rat}

theorem sextant_checked (largest : Rat) {range : Rat} (hrange : range ≠ 0) :
    sextant c.checked (value largest) (value range) = value (sextant c largest range) := by
  unfold sextant Vec3.checked
  simp only [ratio_value _ one_ne_zero, same_value, sub_value, add_value, div_value hrange,
    ite_value]

/-- The conversion divides by nothing that is zero. -/
theorem ofRgb_checked (hc : c.least < c.greatest →
    0 < c.greatest + c.least ∧ c.greatest + c.least < 2) : ofRgb c.checked = (ofRgb c).checked := by
  have hle := c.least_le_greatest
  have hleast : lower c.x (lower c.y c.z) = c.least := by rw [lower_rat, lower_rat]; rfl
  have hgreatest : upper c.x (upper c.y c.z) = c.greatest := by rw [upper_rat, upper_rat]; rfl
  have htwo : (ratio 2 1 : Rat) ≠ 0 := by norm_num [ratio_rat]
  have hsix : (ratio 6 1 : Rat) ≠ 0 := by norm_num [ratio_rat]
  unfold ofRgb
  simp only [show c.checked.x = value c.x from rfl, show c.checked.y = value c.y from rfl,
    show c.checked.z = value c.z from rfl, zero, one, ratio_value _ one_ne_zero, lower_value,
    upper_value, add_value, sub_value, div_value htwo, same_value, hleast, hgreatest]
  rcases hle.eq_or_lt with heq | hlt
  · have hsame : same c.greatest c.least = true := decide_eq_true heq.symm
    simp only [hsame, if_true]
    rfl
  · obtain ⟨hpos, hlt2⟩ := hc hlt
    have hsame : same c.greatest c.least = false := decide_eq_false hlt.ne'
    have hrange : c.greatest - c.least ≠ 0 := by linarith
    have hsum : c.greatest + c.least ≠ 0 := by linarith
    have hrest : ratio 2 1 - c.greatest - c.least ≠ 0 := by norm_num [ratio_rat]; linarith
    simp only [hsame, lt_value, sextant_checked _ hrange, div_value hsix, div_value hsum,
      div_value hrest, add_value, ite_value, Bool.false_eq_true, if_false]
    rfl

/-! ### Saturation and lightness -/

/-- How far a lightness is from the nearer one of black and white. -/
def reach (l : Rat) : Rat := if l < 1 / 2 then l else 1 - l

theorem reach_pos (h0 : 0 < l) (h1 : l < 1) : 0 < reach l := by
  unfold reach
  split <;> linarith

theorem reach_le (l : Rat) : reach l ≤ l ∧ reach l ≤ 1 - l := by
  unfold reach
  split <;> constructor <;> linarith

theorem reach_nonneg (h0 : 0 ≤ l) (h1 : l ≤ 1) : 0 ≤ reach l := by
  unfold reach
  split <;> linarith

/-- What is made of a hue, saturation and lightness is in the sector of the hue, with its extreme
channels around the lightness. -/
theorem toRgb_of_sector (hs : s ≠ 0)
    (hsector : Sector (l - s * reach l) (l + s * reach l) (Int.fract h) c) :
    toRgb ⟨h, s, l⟩ = c := by
  have hgreatest : (if l < 1 / 2 then l * (1 + s) else l + s - l * s) = l + s * reach l := by
    unfold reach
    split <;> ring
  have hleast : 2 * l - (l + s * reach l) = l - s * reach l := by ring
  have htoRgb : toRgb ⟨h, s, l⟩ =
      (let q := if l < 1 / 2 then l * (1 + s) else l + s - l * s
       let p := 2 * l - q
       ⟨channel p q (Int.fract h + 1 / 3), channel p q (Int.fract h),
        channel p q (Int.fract h - 1 / 3)⟩) := by
    simp only [toRgb, same_rat, lt_rat, ratio_rat, zero, one, fract_rat, decide_eq_true_eq]
    norm_num [hs]
  rw [htoRgb]
  dsimp only
  rw [hgreatest, hleast, channels_of_sector hsector]

theorem toRgb_grey (h l : Rat) : toRgb ⟨h, 0, l⟩ = ⟨l, l, l⟩ := by
  simp [toRgb, same_rat, ratio_rat, zero, Vec3.splat]

theorem ofRgb_rat (c : Vec3 Rat) : ofRgb c =
    (let p := c.least
     let q := c.greatest
     let l := (q + p) / 2
     if q = p then ⟨0, 0, l⟩
     else
       let s := if l < 1 / 2 then (q - p) / (q + p) else (q - p) / (2 - q - p)
       let h := sextant c q (q - p) / 6
       ⟨if h < 0 then h + 1 else h, s, l⟩) := by
  simp only [ofRgb, same_rat, lt_rat, lower_rat, upper_rat, ratio_rat, zero, one,
    decide_eq_true_eq, Vec3.least, Vec3.greatest]
  norm_num
  rfl

theorem ofRgb_grey (hc : c.greatest = c.least) :
    ofRgb c = ⟨0, 0, c.least⟩ := by
  rw [ofRgb_rat]
  dsimp only
  rw [if_pos hc, hc, add_self_div_two]

/-- What is read off a colour in a sector is the hue of the sector, with the lightness between the
extreme channels. -/
theorem ofRgb_of_sector (hpq : p < q) (hl : l = (q + p) / 2) (hsector : Sector p q h c) :
    ofRgb c = ⟨h, (q - p) / (2 * reach l), l⟩ := by
  obtain ⟨hleast, hgreatest⟩ := hsector.extremes hpq.le
  have hsaturation : (if l < 1 / 2 then (q - p) / (q + p) else (q - p) / (2 - q - p)) =
      (q - p) / (2 * reach l) := by
    unfold reach
    split
    · congr 1
      rw [hl]
      ring
    · congr 1
      rw [hl]
      ring
  rw [ofRgb_rat]
  dsimp only
  rw [hleast, hgreatest, if_neg hpq.ne', ← hl, hsaturation, hue_of_sector hpq hsector]

/-! ### There and back -/

theorem ofRgb_toRgb (h0 : 0 ≤ h) (h1 : h < 1) (hs : 0 < s) (hl0 : 0 < l) (hl1 : l < 1) :
    ofRgb (toRgb ⟨h, s, l⟩) = ⟨h, s, l⟩ := by
  have hreach := reach_pos hl0 hl1
  have hspread : 0 < s * reach l := mul_pos hs hreach
  obtain ⟨c, hsector⟩ := exists_sector_of_hue (l - s * reach l) (l + s * reach l) h0 h1
  have hfract : Int.fract h = h := Int.fract_eq_self.mpr ⟨h0, h1⟩
  rw [toRgb_of_sector hs.ne' (hfract.symm ▸ hsector),
    ofRgb_of_sector (l := l) (by linarith) (by ring) hsector]
  congr 1
  field_simp
  ring

theorem ofRgb_toRgb_grey (h l : Rat) : ofRgb (toRgb ⟨h, 0, l⟩) = ⟨0, 0, l⟩ := by
  have hleast : (⟨l, l, l⟩ : Vec3 Rat).least = l := by simp [Vec3.least]
  have hgreatest : (⟨l, l, l⟩ : Vec3 Rat).greatest = l := by simp [Vec3.greatest]
  rw [toRgb_grey, ofRgb_grey (hgreatest.trans hleast.symm), hleast]

/-- Every component is between 0 and 1. -/
structure InCube (c : Vec3 Rat) : Prop where
  x : 0 ≤ c.x ∧ c.x ≤ 1
  y : 0 ≤ c.y ∧ c.y ≤ 1
  z : 0 ≤ c.z ∧ c.z ≤ 1

theorem InCube.extremes (hc : InCube c) : 0 ≤ c.least ∧ c.greatest ≤ 1 :=
  ⟨le_min hc.x.1 (le_min hc.y.1 hc.z.1), max_le hc.x.2 (max_le hc.y.2 hc.z.2)⟩

theorem inCube_of_extremes (h0 : 0 ≤ c.least) (h1 : c.greatest ≤ 1) : InCube c := by
  obtain ⟨hx0, hy0, hz0⟩ := c.least_le
  obtain ⟨hx1, hy1, hz1⟩ := c.le_greatest
  exact ⟨⟨h0.trans hx0, hx1.trans h1⟩, ⟨h0.trans hy0, hy1.trans h1⟩, ⟨h0.trans hz0, hz1.trans h1⟩⟩

/-- A colour whose extreme channels are the same is grey. -/
theorem eq_of_greatest_eq_least (hc : c.greatest = c.least) : c = ⟨c.least, c.least, c.least⟩ := by
  obtain ⟨hx0, hy0, hz0⟩ := c.least_le
  obtain ⟨hx1, hy1, hz1⟩ := hc ▸ c.le_greatest
  obtain ⟨x, y, z⟩ := c
  exact congr (congr (congrArg Vec3.mk (hx1.antisymm hx0)) (hy1.antisymm hy0)) (hz1.antisymm hz0)

/-- What is read off a colour of the unit cube. -/
theorem ofRgb_cases (hc : InCube c) :
    (c.greatest = c.least ∧ ofRgb c = ⟨0, 0, c.least⟩) ∨
      ∃ h s l, ofRgb c = ⟨h, s, l⟩ ∧ 0 < s ∧ s ≤ 1 ∧ 0 < l ∧ l < 1 ∧
        Sector (l - s * reach l) (l + s * reach l) h c := by
  obtain ⟨h0, h1⟩ := hc.extremes
  rcases c.least_le_greatest.eq_or_lt with heq | hlt
  · exact .inl ⟨heq.symm, ofRgb_grey heq.symm⟩
  · obtain ⟨h, hsector⟩ := exists_sector_of_color c hlt
    generalize c.least = p at *
    generalize c.greatest = q at *
    obtain ⟨l, hl⟩ : ∃ l, l = (q + p) / 2 := ⟨_, rfl⟩
    have hl0 : 0 < l := by linarith
    have hl1 : l < 1 := by linarith
    have hreach := reach_pos hl0 hl1
    obtain ⟨s, hs⟩ : ∃ s, s = (q - p) / (2 * reach l) := ⟨_, rfl⟩
    have hspread : s * reach l = (q - p) / 2 := by
      rw [hs]
      field_simp
    have hfull : q - p ≤ 2 * reach l := by
      unfold reach
      split <;> linarith
    refine .inr ⟨h, s, l, ?_, ?_, ?_, hl0, hl1, ?_⟩
    · rw [ofRgb_of_sector hlt hl hsector, hs]
    · rw [hs]
      exact div_pos (by linarith) (by linarith)
    · rw [hs]
      exact (div_le_one (by linarith)).mpr hfull
    · have hp : l - s * reach l = p := by linarith
      have hq : l + s * reach l = q := by linarith
      rwa [hp, hq]

theorem toRgb_ofRgb (hc : InCube c) : toRgb (ofRgb c) = c := by
  rcases ofRgb_cases hc with ⟨hgrey, heq⟩ | ⟨h, s, l, heq, hs, -, -, -, hsector⟩
  · rw [heq, toRgb_grey, ← eq_of_greatest_eq_least hgrey]
  · rw [heq]
    refine toRgb_of_sector hs.ne' ?_
    rwa [Int.fract_eq_self.mpr hsector.hue]

theorem ofRgb_bounds (hc : InCube c) : InCube (ofRgb c) ∧ (ofRgb c).x < 1 := by
  rcases ofRgb_cases hc with ⟨hgrey, heq⟩ | ⟨h, s, l, heq, hs0, hs1, hl0, hl1, hsector⟩
  · obtain ⟨h0, h1⟩ := hc.extremes
    rw [heq]
    exact ⟨⟨⟨le_rfl, zero_le_one⟩, ⟨le_rfl, zero_le_one⟩, ⟨h0, hgrey ▸ h1⟩⟩, zero_lt_one⟩
  · obtain ⟨hh0, hh1⟩ := hsector.hue
    rw [heq]
    exact ⟨⟨⟨hh0, hh1.le⟩, ⟨hs0.le, hs1⟩, ⟨hl0.le, hl1.le⟩⟩, hh1⟩

theorem toRgb_inCube (hc : InCube c) : InCube (toRgb c) := by
  obtain ⟨h, s, l⟩ := c
  obtain ⟨-, ⟨hs0, hs1⟩, hl0, hl1⟩ := hc
  dsimp only at hs0 hs1 hl0 hl1
  rcases hs0.eq_or_lt with rfl | hs
  · rw [toRgb_grey]
    exact ⟨⟨hl0, hl1⟩, ⟨hl0, hl1⟩, ⟨hl0, hl1⟩⟩
  · obtain ⟨hbelow, habove⟩ := reach_le l
    have hspread : 0 ≤ s * reach l := mul_nonneg hs0 (reach_nonneg hl0 hl1)
    have hspread' : s * reach l ≤ reach l := mul_le_of_le_one_left (reach_nonneg hl0 hl1) hs1
    obtain ⟨c, hsector⟩ := exists_sector_of_hue (l - s * reach l) (l + s * reach l)
      (Int.fract_nonneg h) (Int.fract_lt_one h)
    obtain ⟨hleast, hgreatest⟩ := hsector.extremes (by linarith)
    rw [toRgb_of_sector hs.ne' hsector]
    exact inCube_of_extremes (by linarith) (by linarith)

/-- Whole turns do not count. -/
theorem toRgb_turn (h s l : Rat) (n : Int) : toRgb ⟨h + n, s, l⟩ = toRgb ⟨h, s, l⟩ := by
  have hturn : fract (h + n) = fract h := by rw [fract_rat, fract_rat, Int.fract_add_intCast]
  unfold toRgb
  dsimp only
  rw [hturn]

end Hsl

open Hsl

/-- **The conversions undo each other, over the rationals.** A hue of the first turn, a saturation
above 0 and a lightness between black and white are read off the colour that is made of them; of a
grey only the lightness is. What is read off a colour of the unit cube is within bounds, without a
division by zero on the way, and the colour is made of it again. What is made of a point of the
unit cube is a colour of the unit cube, and whole turns of the hue do not count. -/
theorem hsl_inverse :
    (∀ h s l : Rat, 0 ≤ h → h < 1 → 0 < s → s ≤ 1 → 0 < l → l < 1 →
      ofRgb (toRgb ⟨h, s, l⟩) = ⟨h, s, l⟩) ∧
    (∀ h l : Rat, ofRgb (toRgb ⟨h, 0, l⟩) = ⟨0, 0, l⟩) ∧
    (∀ c : Vec3 Rat, InCube c → InCube (ofRgb c) ∧ (ofRgb c).x < 1 ∧
      ofRgb c.checked = (ofRgb c).checked ∧ toRgb (ofRgb c) = c) ∧
    (∀ c : Vec3 Rat, InCube c → InCube (toRgb c)) ∧
    ∀ (h s l : Rat) (n : Int), toRgb ⟨h + n, s, l⟩ = toRgb ⟨h, s, l⟩ := by
  refine ⟨fun h s l h0 h1 hs _ hl0 hl1 => ofRgb_toRgb h0 h1 hs hl0 hl1, ofRgb_toRgb_grey,
    fun c hc => ?_, fun c hc => toRgb_inCube hc, toRgb_turn⟩
  obtain ⟨hbounds, hturn⟩ := ofRgb_bounds hc
  obtain ⟨h0, h1⟩ := hc.extremes
  exact ⟨hbounds, hturn, ofRgb_checked fun hlt => ⟨by linarith, by linarith⟩, toRgb_ofRgb hc⟩

/-- A magenta, whose red and blue are both greatest, has its hue just before the full turn. -/
theorem hsl_inverse_magenta :
    let c : Vec3 Rat := ⟨3 / 4, 1 / 4, 3 / 4⟩
    let hsl : Vec3 Rat := ⟨5 / 6, 1 / 2, 1 / 2⟩
    ofRgb (toRgb hsl) = hsl ∧ InCube c ∧ ofRgb c = hsl ∧ toRgb (ofRgb c) = c := by
  intro c hsl
  have hc : InCube c := by constructor <;> norm_num [c]
  obtain ⟨hread, -, hmade, -, -⟩ := hsl_inverse
  obtain ⟨-, -, -, hback⟩ := hmade c hc
  exact ⟨hread _ _ _ (by norm_num) (by norm_num) (by norm_num) (by norm_num) (by norm_num)
    (by norm_num), hc, by decide +kernel, hback⟩

end ColorChain
