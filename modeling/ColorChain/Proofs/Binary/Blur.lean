import ColorChain.Proofs.Binary.Nearest

/-! How far roundings lead away.

One rounding to a double changes a number by a factor close to one. `Blurred j a b` counts these
factors: `a` and `b` are at most `j` of them apart. They add up along a computation, through
products and quotients as well, so the count for a whole computation is read off its steps, and a
few of them are a small part of the number (`Blurred.abs_sub_le`). -/
namespace ColorChain.Binary

/-- What one rounding to a double changes a number by, at most. -/
def blur : Rat := 2 ^ 53 / (2 ^ 53 - 1)

/-- The numbers are at most `j` roundings apart. -/
structure Blurred (j : Nat) (a b : Rat) : Prop where
  le : a ≤ b * blur ^ j
  ge : b ≤ a * blur ^ j

theorem blur_pos : 0 < blur := by norm_num [blur]

theorem one_le_blur : 1 ≤ blur := by norm_num [blur]

namespace Blurred

variable {i j : Nat} {a b c d : Rat}

theorem refl (a : Rat) : Blurred 0 a a := ⟨by simp, by simp⟩

theorem mono (h : Blurred i a b) (ha : 0 ≤ a) (hb : 0 ≤ b) (hij : i ≤ j) : Blurred j a b := by
  have hpow : blur ^ i ≤ blur ^ j := pow_le_pow_right₀ one_le_blur hij
  exact ⟨h.le.trans (mul_le_mul_of_nonneg_left hpow hb),
    h.ge.trans (mul_le_mul_of_nonneg_left hpow ha)⟩

theorem trans (h : Blurred i a b) (h' : Blurred j b c) : Blurred (i + j) a c := by
  have hi : 0 ≤ blur ^ i := (pow_pos blur_pos i).le
  have hj : 0 ≤ blur ^ j := (pow_pos blur_pos j).le
  refine ⟨?_, ?_⟩
  · calc a ≤ b * blur ^ i := h.le
      _ ≤ c * blur ^ j * blur ^ i := mul_le_mul_of_nonneg_right h'.le hi
      _ = c * blur ^ (i + j) := by ring
  · calc c ≤ b * blur ^ j := h'.ge
      _ ≤ a * blur ^ i * blur ^ j := mul_le_mul_of_nonneg_right h.ge hj
      _ = a * blur ^ (i + j) := by ring

theorem mul (h : Blurred i a b) (h' : Blurred j c d) (ha : 0 ≤ a) (hb : 0 ≤ b) (hc : 0 ≤ c)
    (hd : 0 ≤ d) : Blurred (i + j) (a * c) (b * d) := by
  have hi : 0 ≤ blur ^ i := (pow_pos blur_pos i).le
  refine ⟨?_, ?_⟩
  · calc a * c ≤ b * blur ^ i * (d * blur ^ j) :=
          mul_le_mul h.le h'.le hc (mul_nonneg hb hi)
      _ = b * d * blur ^ (i + j) := by ring
  · calc b * d ≤ a * blur ^ i * (c * blur ^ j) :=
          mul_le_mul h.ge h'.ge hd (mul_nonneg ha hi)
      _ = a * c * blur ^ (i + j) := by ring

theorem inv (h : Blurred j a b) (ha : 0 < a) (hb : 0 < b) : Blurred j a⁻¹ b⁻¹ := by
  have hpow : 0 < blur ^ j := pow_pos blur_pos j
  refine ⟨?_, ?_⟩
  · rw [inv_mul_eq_div, le_div_iff₀ hb, inv_mul_le_iff₀ ha]
    exact h.ge
  · rw [inv_mul_eq_div, le_div_iff₀ ha, inv_mul_le_iff₀ hb]
    exact h.le

theorem div (h : Blurred i a b) (h' : Blurred j c d) (ha : 0 ≤ a) (hb : 0 ≤ b) (hc : 0 < c)
    (hd : 0 < d) : Blurred (i + j) (a / c) (b / d) := by
  rw [div_eq_mul_inv, div_eq_mul_inv]
  exact h.mul (h'.inv hc hd) ha hb (inv_nonneg.mpr hc.le) (inv_nonneg.mpr hd.le)

/-- Numbers that differ by a small part of the second are not many roundings apart. -/
theorem of_abs_sub_le {e : Rat} (hb : 0 ≤ b) (h : |a - b| ≤ b * e) (hhigh : 1 + e ≤ blur ^ j)
    (hlow : 1 ≤ (1 - e) * blur ^ j) : Blurred j a b := by
  have hpow : 0 ≤ blur ^ j := (pow_pos blur_pos j).le
  obtain ⟨hbelow, habove⟩ := abs_le.mp h
  refine ⟨?_, ?_⟩
  · calc a ≤ b * (1 + e) := by linarith
      _ ≤ b * blur ^ j := mul_le_mul_of_nonneg_left hhigh hb
  · calc b ≤ b * ((1 - e) * blur ^ j) := le_mul_of_one_le_right hb hlow
      _ = b * (1 - e) * blur ^ j := (mul_assoc ..).symm
      _ ≤ a * blur ^ j := mul_le_mul_of_nonneg_right (by linarith) hpow

/-- Numbers that differ by a part in `2 ^ 53` are one rounding apart. -/
theorem of_rounded (hb : 0 ≤ b) (h : |a - b| ≤ b / 2 ^ 53) : Blurred 1 a b :=
  of_abs_sub_le hb (h.trans (div_eq_mul_one_div b _).le) (by norm_num [blur])
    (by norm_num [blur])

/-- Numbers that are not many roundings apart differ by a small part of either. -/
theorem abs_sub_le {e : Rat} (h : Blurred j a b) (ha : 0 ≤ a) (hb : 0 ≤ b)
    (he : blur ^ j ≤ 1 + e) : |a - b| ≤ b * e := by
  have hhigh : a ≤ b * (1 + e) := h.le.trans (mul_le_mul_of_nonneg_left he hb)
  have hlow : b ≤ a * (1 + e) := h.ge.trans (mul_le_mul_of_nonneg_left he ha)
  rw [abs_le]
  refine ⟨?_, by linarith⟩
  rcases le_total a b with hle | hle
  · have he' : 0 ≤ e := by
      have hone : (1 : Rat) ≤ blur ^ j := one_le_pow₀ one_le_blur
      linarith
    nlinarith
  · linarith

end Blurred

/-- A number of moderate size and its nearest double. -/
theorem blurred_nearest {q : Rat} (hlow : 1 / 2 ^ 256 ≤ q) (hhigh : q < 2 ^ 256)
    (negative : Bool) : Blurred 1 (nearest negative q : Double).magnitude q := by
  have hq : 0 ≤ q := le_trans (by positivity) hlow
  have hunit : (2 : Rat) ^ Format.double.fractionBits ≤ q * 2 ^ Format.double.unitBits := by
    have hbits : Format.double.unitBits = 256 + (Format.double.fractionBits + 766) := rfl
    have hone : 1 ≤ q * 2 ^ 256 := by
      rw [div_le_iff₀ (by positivity)] at hlow
      exact hlow
    have hrest : (1 : Rat) ≤ 2 ^ 766 := one_le_pow₀ (by norm_num)
    rw [hbits, pow_add, pow_add, ← mul_assoc]
    refine le_trans ?_ (le_mul_of_one_le_left (by positivity) hone)
    exact le_mul_of_one_le_right (by positivity) hrest
  exact .of_rounded hq (magnitude_nearest_error hq hunit (isFinite_double hq hhigh negative))

end ColorChain.Binary
