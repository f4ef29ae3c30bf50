import ColorChain.Color.Hsl
import Mathlib.Algebra.Order.Round
import Mathlib.Data.Rat.Floor
import Mathlib.Tactic.FieldSimp
import Mathlib.Tactic.Linarith
import Mathlib.Tactic.NormNum
import Mathlib.Tactic.Ring

/-! Where a hue lies between two colours.

Read over the rationals, a hue arranges the three channels of a colour: one takes the greatest
value, one the least and one lies between them, and where it lies is linear in the hue on each sixth
of a turn. `Sector` is this relation of hues and colours, one case for each of the six orders of the
channels, with the sixths closed so that neighbouring ones agree where they meet. Both conversions
are read against it, the colour made of a hue (`channels_of_sector`) and the hue read off a colour
(`hue_of_sector`), and in both directions there is a sector (`exists_sector_of_hue`,
`exists_sector_of_color`). -/
namespace ColorChain

/-! ### Formulas over the rationals -/

theorem Scalar.lt_rat (x y : Rat) : lt x y = decide (x < y) := rfl

theorem Scalar.same_rat (x y : Rat) : same x y = decide (x = y) := rfl

theorem Scalar.ratio_rat (n d : Nat) : (ratio n d : Rat) = n / d := rfl

theorem Scalar.fract_rat (x : Rat) : fract x = Int.fract x := rfl

theorem Scalar.lower_rat (x y : Rat) : lower x y = min x y := by
  show (if x < y then x else y) = _
  split
  · next h => exact (min_eq_left h.le).symm
  · next h => exact (min_eq_right (not_lt.mp h)).symm

theorem Scalar.upper_rat (x y : Rat) : upper x y = max x y := by
  show (if y < x then x else y) = _
  split
  · next h => exact (max_eq_left h.le).symm
  · next h => exact (max_eq_right (not_lt.mp h)).symm

/-- The least channel. -/
def Vec3.least (c : Vec3 Rat) : Rat := min c.x (min c.y c.z)

/-- The greatest channel. -/
def Vec3.greatest (c : Vec3 Rat) : Rat := max c.x (max c.y c.z)

theorem Vec3.least_le (c : Vec3 Rat) : c.least ≤ c.x ∧ c.least ≤ c.y ∧ c.least ≤ c.z := by
  simp [least]

theorem Vec3.le_greatest (c : Vec3 Rat) :
    c.x ≤ c.greatest ∧ c.y ≤ c.greatest ∧ c.z ≤ c.greatest := by
  simp [greatest]

theorem Vec3.least_le_greatest (c : Vec3 Rat) : c.least ≤ c.greatest :=
  c.least_le.1.trans c.le_greatest.1

namespace Hsl
open Scalar

/-- The value at a part `m` of the way from `p` to `q`. -/
def between (p q m : Rat) : Rat := p + (q - p) * m

theorem channel_rat (p q t : Rat) : channel p q t =
    (let t := if t < 0 then t + 1 else t
     let t := if 1 < t then t - 1 else t
     if t < 1 / 6 then p + (q - p) * 6 * t
     else if t < 1 / 2 then q
     else if t < 2 / 3 then p + (q - p) * (2 / 3 - t) * 6
     else p) := by
  simp only [channel, lt_rat, ratio_rat, zero, one, decide_eq_true_eq]
  norm_num

theorem sextant_rat (c : Vec3 Rat) (largest range : Rat) : sextant c largest range =
    if c.x = largest then (c.y - c.z) / range
    else if c.y = largest then 2 + (c.z - c.x) / range
    else 4 + (c.x - c.y) / range := by
  simp only [sextant, same_rat, ratio_rat, decide_eq_true_eq]
  norm_num

variable {p q t m h : Rat} {c : Vec3 Rat}

/-! ### Channels -/

/-- A channel within the first turn. -/
theorem channel_first (h0 : 0 ≤ t) (h1 : t ≤ 1) : channel p q t =
    if t < 1 / 6 then between p q (6 * t)
    else if t < 1 / 2 then q
    else if t < 2 / 3 then between p q (4 - 6 * t)
    else p := by
  rw [channel_rat]
  simp only [not_lt.mpr h0, not_lt.mpr h1, if_false, between]
  congr 1
  · ring
  · congr 2
    ring

theorem channel_rising (h0 : 0 ≤ m) (h1 : m ≤ 1) (ht : t = m / 6) :
    channel p q t = between p q m := by
  have hm : 6 * t = m := by rw [ht]; ring
  rw [channel_first (by linarith) (by linarith), hm]
  split
  · rfl
  · have hend : m = 1 := by linarith
    rw [if_pos (by linarith), hend, between]
    ring

theorem channel_high (h0 : 1 / 6 ≤ t) (h1 : t ≤ 1 / 2) : channel p q t = q := by
  rw [channel_first (by linarith) (by linarith), if_neg (not_lt.mpr h0)]
  split
  · rfl
  · have hend : t = 1 / 2 := by linarith
    rw [if_pos (by linarith), hend, between]
    ring

theorem channel_falling (h0 : 0 ≤ m) (h1 : m ≤ 1) (ht : t = (4 - m) / 6) :
    channel p q t = between p q m := by
  have hm : 4 - 6 * t = m := by rw [ht]; ring
  rw [channel_first (by linarith) (by linarith), hm, if_neg (by linarith), if_neg (by linarith)]
  split
  · rfl
  · have hend : m = 0 := by linarith
    rw [hend, between]
    ring

theorem channel_low (h0 : 2 / 3 ≤ t) (h1 : t ≤ 1) : channel p q t = p := by
  rw [channel_first (by linarith) h1, if_neg (by linarith), if_neg (by linarith),
    if_neg (not_lt.mpr h0)]

theorem channel_zero : channel p q 0 = p := by
  rw [channel_rising (m := 0) le_rfl zero_le_one (by norm_num), between]
  ring

theorem channel_one : channel p q 1 = p := channel_low (by norm_num) le_rfl

/-- A hue before the first turn is seen a turn later. -/
theorem channel_add_one (h0 : -1 ≤ t) (h1 : t ≤ 0) : channel p q t = channel p q (t + 1) := by
  rcases h1.lt_or_eq with hlt | rfl
  · have hwrapped : ¬ 1 < t + 1 := by linarith
    have hpositive : ¬ t + 1 < 0 := by linarith
    simp only [channel_rat, hlt, hpositive, hwrapped, if_true, if_false]
  · rw [zero_add, channel_zero, channel_one]

/-- A hue behind the first turn is seen a turn earlier. -/
theorem channel_sub_one (h0 : 1 ≤ t) (h1 : t ≤ 2) : channel p q t = channel p q (t - 1) := by
  rcases h0.lt_or_eq with hlt | rfl
  · have hpositive : ¬ t < 0 := by linarith
    have hwrapped : ¬ t - 1 < 0 ∧ ¬ 1 < t - 1 := ⟨by linarith, by linarith⟩
    simp only [channel_rat, hpositive, hlt, hwrapped.1, hwrapped.2, if_true, if_false]
  · rw [sub_self, channel_zero, channel_one]

/-! ### Sectors -/

/-- The colour `c` has the hue `h`, with the least channel `p` and the greatest channel `q`. The
names tell the greatest channel first and the one between next. -/
inductive Sector (p q : Rat) : Rat → Vec3 Rat → Prop where
  | redGreen {m : Rat} (h0 : 0 ≤ m) (h1 : m ≤ 1) : Sector p q (m / 6) ⟨q, between p q m, p⟩
  | greenRed {m : Rat} (h0 : 0 ≤ m) (h1 : m ≤ 1) : Sector p q ((2 - m) / 6) ⟨between p q m, q, p⟩
  | greenBlue {m : Rat} (h0 : 0 ≤ m) (h1 : m ≤ 1) : Sector p q ((2 + m) / 6) ⟨p, q, between p q m⟩
  | blueGreen {m : Rat} (h0 : 0 ≤ m) (h1 : m ≤ 1) : Sector p q ((4 - m) / 6) ⟨p, between p q m, q⟩
  | blueRed {m : Rat} (h0 : 0 ≤ m) (h1 : m ≤ 1) : Sector p q ((4 + m) / 6) ⟨between p q m, p, q⟩
  -- The full turn is no hue of its own.
  | redBlue {m : Rat} (h0 : 0 < m) (h1 : m ≤ 1) : Sector p q ((6 - m) / 6) ⟨q, p, between p q m⟩

theorem Sector.of_eq {h' : Rat} (hs : Sector p q h c) (heq : h = h') : Sector p q h' c := heq ▸ hs

theorem Sector.hue (hs : Sector p q h c) : 0 ≤ h ∧ h < 1 := by
  cases hs <;> constructor <;> linarith

theorem between_mem (hpq : p ≤ q) (h0 : 0 ≤ m) (h1 : m ≤ 1) :
    p ≤ between p q m ∧ between p q m ≤ q := by
  have hrange : 0 ≤ q - p := by linarith
  have hlow := mul_nonneg hrange h0
  have hhigh := mul_nonneg hrange (sub_nonneg.mpr h1)
  unfold between
  constructor <;> linarith

theorem exists_between (hpq : p < q) (h0 : p ≤ t) (h1 : t ≤ q) :
    ∃ m, 0 ≤ m ∧ m ≤ 1 ∧ between p q m = t := by
  have hrange : 0 < q - p := by linarith
  refine ⟨(t - p) / (q - p), div_nonneg (by linarith) hrange.le,
    (div_le_one hrange).mpr (by linarith), ?_⟩
  rw [between, mul_div_cancel₀ _ hrange.ne', add_sub_cancel]

theorem Sector.extremes (hpq : p ≤ q) (hs : Sector p q h c) : c.least = p ∧ c.greatest = q := by
  have hbetween {m : Rat} (h0 : 0 ≤ m) (h1 : m ≤ 1) := between_mem hpq h0 h1
  unfold Vec3.least Vec3.greatest
  cases hs with
  | redGreen h0 h1 => simp [hbetween h0 h1, hpq]
  | greenRed h0 h1 => simp [hbetween h0 h1, hpq]
  | greenBlue h0 h1 => simp [hbetween h0 h1, hpq]
  | blueGreen h0 h1 => simp [hbetween h0 h1, hpq]
  | blueRed h0 h1 => simp [hbetween h0 h1, hpq]
  | redBlue h0 h1 => simp [hbetween h0.le h1, hpq]

/-- Every hue of the first turn arranges the channels. -/
theorem exists_sector_of_hue (p q : Rat) (h0 : 0 ≤ h) (h1 : h < 1) : ∃ c, Sector p q h c := by
  rcases le_total h (1 / 6) with ha | ha
  · exact ⟨_, (Sector.redGreen (m := 6 * h) (by linarith) (by linarith)).of_eq (by ring)⟩
  rcases le_total h (1 / 3) with hb | hb
  · exact ⟨_, (Sector.greenRed (m := 2 - 6 * h) (by linarith) (by linarith)).of_eq (by ring)⟩
  rcases le_total h (1 / 2) with hc | hc
  · exact ⟨_, (Sector.greenBlue (m := 6 * h - 2) (by linarith) (by linarith)).of_eq (by ring)⟩
  rcases le_total h (2 / 3) with hd | hd
  · exact ⟨_, (Sector.blueGreen (m := 4 - 6 * h) (by linarith) (by linarith)).of_eq (by ring)⟩
  rcases le_total h (5 / 6) with he | he
  · exact ⟨_, (Sector.blueRed (m := 6 * h - 4) (by linarith) (by linarith)).of_eq (by ring)⟩
  · exact ⟨_, (Sector.redBlue (m := 6 - 6 * h) (by linarith) (by linarith)).of_eq (by ring)⟩

/-- Every colour that is not grey has a hue. -/
theorem exists_sector_of_color (c : Vec3 Rat) (hc : c.least < c.greatest) :
    ∃ h, Sector c.least c.greatest h c := by
  obtain ⟨x, y, z⟩ := c
  unfold Vec3.least Vec3.greatest at hc ⊢
  dsimp only at hc ⊢
  rcases le_total x y with hxy | hyx
  · rcases le_total y z with hyz | hzy
    · simp only [min_eq_left, max_eq_right, hxy, hyz, hxy.trans hyz] at hc ⊢
      obtain ⟨m, h0, h1, rfl⟩ := exists_between hc hxy hyz
      exact ⟨_, .blueGreen h0 h1⟩
    · rcases le_total x z with hxz | hzx
      · simp only [min_eq_left, min_eq_right, max_eq_left, max_eq_right, hxy, hzy, hxz] at hc ⊢
        obtain ⟨m, h0, h1, rfl⟩ := exists_between hc hxz hzy
        exact ⟨_, .greenBlue h0 h1⟩
      · simp only [min_eq_right, max_eq_left, max_eq_right, hxy, hzy, hzx] at hc ⊢
        obtain ⟨m, h0, h1, rfl⟩ := exists_between hc hzx hxy
        exact ⟨_, .greenRed h0 h1⟩
  · rcases le_total y z with hyz | hzy
    · rcases le_total x z with hxz | hzx
      · simp only [min_eq_left, min_eq_right, max_eq_right, hyx, hyz, hxz] at hc ⊢
        obtain ⟨m, h0, h1, rfl⟩ := exists_between hc hyx hxz
        exact ⟨_, .blueRed h0 h1⟩
      · simp only [min_eq_left, min_eq_right, max_eq_left, max_eq_right, hyx, hyz, hzx] at hc ⊢
        rcases hyz.eq_or_lt with rfl | hlt
        · have hgrey : between y x 0 = y := by rw [between, mul_zero, add_zero]
          have hsector := Sector.redGreen (p := y) (q := x) le_rfl zero_le_one
          rw [hgrey] at hsector
          exact ⟨_, hsector⟩
        · obtain ⟨m, h0, h1, rfl⟩ := exists_between hc hyz hzx
          have hm : 0 < m := h0.lt_of_ne fun heq => hlt.ne (by rw [← heq, between]; ring)
          exact ⟨_, .redBlue hm h1⟩
    · simp only [min_eq_right, max_eq_left, hyx, hzy, hzy.trans hyx] at hc ⊢
      obtain ⟨m, h0, h1, rfl⟩ := exists_between hc hzy hyx
      exact ⟨_, .redGreen h0 h1⟩

/-- How far the value between is from the ends, in ranges. -/
theorem between_sub_div (hpq : p < q) :
    (between p q m - p) / (q - p) = m ∧ (p - between p q m) / (q - p) = -m := by
  have hrange : q - p ≠ 0 := (sub_pos.mpr hpq).ne'
  unfold between
  constructor <;> field_simp <;> ring

theorem between_eq_iff (hpq : p < q) : between p q m = q ↔ m = 1 := by
  have hrange : q - p ≠ 0 := (sub_pos.mpr hpq).ne'
  rw [between, ← eq_sub_iff_add_eq', mul_eq_left₀ hrange]

/-! ### Conversions -/

theorem channels_of_sector (hs : Sector p q h c) :
    (⟨channel p q (h + 1 / 3), channel p q h, channel p q (h - 1 / 3)⟩ : Vec3 Rat) = c := by
  cases hs with
  | @redGreen m h0 h1 =>
    rw [channel_high (by linarith) (by linarith), channel_rising h0 h1 rfl,
      channel_add_one (by linarith) (by linarith), channel_low (by linarith) (by linarith)]
  | @greenRed m h0 h1 =>
    rw [channel_falling h0 h1 (by ring), channel_high (by linarith) (by linarith),
      channel_add_one (by linarith) (by linarith), channel_low (by linarith) (by linarith)]
  | @greenBlue m h0 h1 =>
    rw [channel_low (by linarith) (by linarith), channel_high (by linarith) (by linarith),
      channel_rising h0 h1 (by ring)]
  | @blueGreen m h0 h1 =>
    rw [channel_low (by linarith) (by linarith), channel_falling h0 h1 rfl,
      channel_high (by linarith) (by linarith)]
  | @blueRed m h0 h1 =>
    rw [channel_sub_one (by linarith) (by linarith), channel_rising h0 h1 (by ring),
      channel_low (by linarith) (by linarith), channel_high (by linarith) (by linarith)]
  | @redBlue m h0 h1 =>
    rw [channel_sub_one (by linarith) (by linarith), channel_high (by linarith) (by linarith),
      channel_low (by linarith) (by linarith), channel_falling h0.le h1 (by ring)]

/-- The hue in sixths, or what is missing to a full turn. -/
theorem sextant_of_sector (hpq : p < q) (hs : Sector p q h c) :
    sextant c q (q - p) = 6 * h ∨ 5 / 6 ≤ h ∧ sextant c q (q - p) = 6 * h - 6 := by
  have hrange : (q - p) / (q - p) = 1 := div_self (sub_pos.mpr hpq).ne'
  have hback : (p - q) / (q - p) = -1 := by rw [← neg_sub, neg_div, hrange]
  have hoffset {m : Rat} := between_sub_div (m := m) hpq
  have hend {m : Rat} := between_eq_iff (m := m) hpq
  rw [sextant_rat]
  -- Where the channel between takes the greatest value too, it may be the one that is asked first.
  cases hs with
  | @redGreen m h0 h1 =>
    rw [if_pos rfl, hoffset.1]
    exact .inl (by ring)
  | @greenRed m h0 h1 =>
    by_cases hm : m = 1
    · rw [if_pos (hend.mpr hm), hrange, hm]
      exact .inl (by norm_num)
    · rw [if_neg (mt hend.mp hm), if_pos rfl, hoffset.2]
      exact .inl (by ring)
  | @greenBlue m h0 h1 =>
    rw [if_neg hpq.ne, if_pos rfl, hoffset.1]
    exact .inl (by ring)
  | @blueGreen m h0 h1 =>
    rw [if_neg hpq.ne]
    by_cases hm : m = 1
    · rw [if_pos (hend.mpr hm), hrange, hm]
      exact .inl (by norm_num)
    · rw [if_neg (mt hend.mp hm), hoffset.2]
      exact .inl (by ring)
  | @blueRed m h0 h1 =>
    by_cases hm : m = 1
    · rw [if_pos (hend.mpr hm), hback, hm]
      exact .inr ⟨by norm_num, by norm_num⟩
    · rw [if_neg (mt hend.mp hm), if_neg hpq.ne, hoffset.1]
      exact .inl (by ring)
  | @redBlue m h0 h1 =>
    rw [if_pos rfl, hoffset.2]
    exact .inr ⟨by linarith, by ring⟩

theorem hue_of_sector (hpq : p < q) (hs : Sector p q h c) :
    (if sextant c q (q - p) / 6 < 0 then sextant c q (q - p) / 6 + 1
      else sextant c q (q - p) / 6) = h := by
  obtain ⟨h0, h1⟩ := hs.hue
  rcases sextant_of_sector hpq hs with heq | ⟨hlast, heq⟩
  · rw [heq, if_neg (by linarith)]
    ring
  · rw [heq, if_pos (by linarith)]
    ring

end Hsl
end ColorChain
