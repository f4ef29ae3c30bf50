import ColorChain.Binary.Arithmetic
import Mathlib.Tactic.Linarith
import Mathlib.Tactic.Ring

/-! What rounding to an index gives.

A quotient is rounded to a whole number of steps, and the magnitude of its nearest index is
that many steps (`Format.units_nearestIndex`). No other magnitude is nearer
(`Format.nearestIndex_nearest`). A quotient that is a magnitude itself is met exactly
(`Format.nearestIndex_shift`), any other with half a step of error, which is small against the
quotient unless the unit is too coarse for it (`Format.nearestIndex_error`). -/
namespace ColorChain

/-! ### Whole numbers -/

/-- The two whole numbers that a quotient is rounded to, and which of them it is. -/
theorem roundHalfEven_eq_or (num den : Nat) :
    roundHalfEven num den = num / den ∧ 2 * (num % den) ≤ den ∨
      roundHalfEven num den = num / den + 1 ∧ den ≤ 2 * (num % den) := by
  unfold roundHalfEven
  simp only
  split
  · exact .inl ⟨rfl, by omega⟩
  · split
    · exact .inr ⟨rfl, by omega⟩
    · rcases Nat.mod_two_eq_zero_or_one (num / den) with h | h
      · exact .inl ⟨by omega, by omega⟩
      · exact .inr ⟨by omega, by omega⟩

/-- A rounded quotient is at most a half away from the quotient. -/
theorem roundHalfEven_error (num : Nat) {den : Nat} (hden : 0 < den) :
    2 * (roundHalfEven num den * den) ≤ 2 * num + den ∧
      2 * num ≤ 2 * (roundHalfEven num den * den) + den := by
  have hnum := Nat.div_add_mod' num den
  have hmod := Nat.mod_lt num hden
  rcases roundHalfEven_eq_or num den with ⟨h, hrest⟩ | ⟨h, hrest⟩
  · rw [h]
    omega
  · rw [h, Nat.add_mul, Nat.one_mul]
    omega

/-- How far two whole numbers are apart. -/
def apart (a b : Nat) : Nat := ((a : Int) - b).natAbs

/-- No whole number is nearer. -/
theorem roundHalfEven_nearest (num : Nat) {den : Nat} (hden : 0 < den) (c : Nat) :
    apart (roundHalfEven num den * den) num ≤ apart (c * den) num := by
  obtain ⟨hhigh, hlow⟩ := roundHalfEven_error num hden
  unfold apart
  rcases Nat.lt_trichotomy c (roundHalfEven num den) with hlt | heq | hgt
  · have hstep := Nat.mul_le_mul_right den (show c + 1 ≤ roundHalfEven num den from hlt)
    rw [Nat.add_mul, Nat.one_mul] at hstep
    omega
  · rw [heq]
  · have hstep := Nat.mul_le_mul_right den (show roundHalfEven num den + 1 ≤ c from hgt)
    rw [Nat.add_mul, Nat.one_mul] at hstep
    omega

/-- A quotient less than a half above `n` is rounded to `n` at most. -/
theorem roundHalfEven_le {num den n : Nat} (hden : 0 < den)
    (h : 2 * num < 2 * (n * den) + den) : roundHalfEven num den ≤ n := by
  have herror := (roundHalfEven_error num hden).1
  by_contra hlt
  have hmul : (n + 1) * den ≤ roundHalfEven num den * den := Nat.mul_le_mul_right den (by omega)
  rw [Nat.add_mul, Nat.one_mul] at hmul
  omega

theorem le_roundHalfEven {num den n : Nat} (hden : 0 < den)
    (h : 2 * (n * den) < 2 * num + den) : n ≤ roundHalfEven num den := by
  have herror := (roundHalfEven_error num hden).2
  by_contra hlt
  have hmul : (roundHalfEven num den + 1) * den ≤ n * den := Nat.mul_le_mul_right den (by omega)
  rw [Nat.add_mul, Nat.one_mul] at hmul
  omega

/-- A quotient less than a half away from a whole number is rounded to it. -/
theorem roundHalfEven_eq {num den n : Nat} (hlow : 2 * (n * den) < 2 * num + den)
    (hhigh : 2 * num < 2 * (n * den) + den) : roundHalfEven num den = n := by
  have hden : 0 < den := by omega
  exact Nat.le_antisymm (roundHalfEven_le hden hhigh) (le_roundHalfEven hden hlow)

theorem roundHalfUp_eq {num den n : Nat} (hlow : 2 * (n * den) < 2 * num + den)
    (hhigh : 2 * num < 2 * (n * den) + den) : roundHalfUp num den = n := by
  have hstep : n * (2 * den) = 2 * (n * den) := Nat.mul_left_comm n 2 den
  refine Nat.div_eq_of_lt_le ?_ ?_
  · omega
  · rw [Nat.add_mul, Nat.one_mul]
    omega

/-- A quotient rounded half upwards is at most a half away, too, and less where it goes down. -/
theorem roundHalfUp_error (num : Nat) {den : Nat} (hden : 0 < den) :
    2 * (roundHalfUp num den * den) ≤ 2 * num + den ∧
      2 * num < 2 * (roundHalfUp num den * den) + den := by
  have hsum := Nat.div_add_mod' (2 * num + den) (2 * den)
  have hmod := Nat.mod_lt (2 * num + den) (show 0 < 2 * den by omega)
  have hstep : roundHalfUp num den * (2 * den) = 2 * (roundHalfUp num den * den) :=
    Nat.mul_left_comm _ 2 den
  rw [← hstep]
  unfold roundHalfUp
  omega

theorem roundHalfEven_mul_right (num den : Nat) {k : Nat} (hk : 0 < k) :
    roundHalfEven (num * k) (den * k) = roundHalfEven num den := by
  have hlt (a b : Nat) : 2 * (a * k) < b * k ↔ 2 * a < b := by
    rw [← Nat.mul_assoc, Nat.mul_lt_mul_right hk]
  have hlt' (a b : Nat) : b * k < 2 * (a * k) ↔ b < 2 * a := by
    rw [← Nat.mul_assoc, Nat.mul_lt_mul_right hk]
  unfold roundHalfEven
  simp only [Nat.mul_div_mul_right _ _ hk, Nat.mul_mod_mul_right, hlt, hlt']

/-! ### Indexes and their magnitudes -/

namespace Format

variable (f : Format)

/-- The magnitudes from `s` blocks on are `2 ^ s` apart, in the first block as in the second. -/
theorem units_block {s m : Nat} (hm : m ≤ 2 * 2 ^ f.fractionBits)
    (hs : s = 0 ∨ 2 ^ f.fractionBits ≤ m) :
    f.units (s * 2 ^ f.fractionBits + m) = m * 2 ^ s := by
  have hblock : 0 < 2 ^ f.fractionBits := Nat.two_pow_pos _
  unfold units
  generalize 2 ^ f.fractionBits = block at *
  by_cases hlt : m < block
  · obtain rfl : s = 0 := by omega
    simp [hlt]
  · have hnot : ¬ s * block + m < block := by omega
    simp only [hnot, if_false]
    by_cases hend : m = 2 * block
    · have hindex : s * block + m = (s + 2) * block := by rw [hend, Nat.add_mul]
      rw [hindex, Nat.mul_mod_left, Nat.mul_div_cancel _ hblock, hend]
      show (block + 0) * 2 ^ (s + 1) = 2 * block * 2 ^ s
      ring
    · obtain ⟨r, rfl⟩ : ∃ r, m = block + r := ⟨m - block, by omega⟩
      have hindex : s * block + (block + r) = r + (s + 1) * block := by ring
      rw [hindex, Nat.add_mul_mod_self_right, Nat.add_mul_div_right _ _ hblock,
        Nat.mod_eq_of_lt (by omega), Nat.div_eq_of_lt (by omega)]
      simp

theorem units_pos {n : Nat} (h : 0 < n) : 0 < f.units n := by
  have hblock : 0 < 2 ^ f.fractionBits := Nat.two_pow_pos _
  unfold units
  simp only
  split
  · exact h
  · exact Nat.mul_pos (by omega) (Nat.two_pow_pos _)

theorem units_lt {n k : Nat} (h : n < (k + 1) * 2 ^ f.fractionBits) :
    f.units n < 2 ^ (f.fractionBits + k) := by
  have hblock : 0 < 2 ^ f.fractionBits := Nat.two_pow_pos _
  by_cases hlt : n < 2 ^ f.fractionBits
  · rw [Nat.pow_add]
    simpa only [units, hlt, if_true] using
      hlt.trans_le (Nat.le_mul_of_pos_right _ (Nat.two_pow_pos k))
  · have hmod := Nat.mod_lt n hblock
    have hone : 0 < n / 2 ^ f.fractionBits := Nat.div_pos (not_lt.mp hlt) hblock
    have hdiv : n / 2 ^ f.fractionBits < k + 1 := (Nat.div_lt_iff_lt_mul hblock).mpr h
    simp only [units, hlt, if_false]
    calc (2 ^ f.fractionBits + n % 2 ^ f.fractionBits) * 2 ^ (n / 2 ^ f.fractionBits - 1)
        < 2 ^ (f.fractionBits + 1) * 2 ^ (n / 2 ^ f.fractionBits - 1) :=
          Nat.mul_lt_mul_of_pos_right (by omega) (Nat.two_pow_pos _)
      _ = 2 ^ (f.fractionBits + 1 + (n / 2 ^ f.fractionBits - 1)) := (Nat.pow_add ..).symm
      _ ≤ 2 ^ (f.fractionBits + k) := Nat.pow_le_pow_right (by omega) (by omega)

/-- Behind `s` blocks and one all magnitudes are multiples of `2 ^ s`. -/
theorem units_eq_mul {n s : Nat} (h : (s + 1) * 2 ^ f.fractionBits ≤ n) :
    ∃ m, f.units n = m * 2 ^ s := by
  have hblock : 0 < 2 ^ f.fractionBits := Nat.two_pow_pos _
  have hdiv : s + 1 ≤ n / 2 ^ f.fractionBits := (Nat.le_div_iff_mul_le hblock).mpr h
  have hnot : ¬ n < 2 ^ f.fractionBits := by
    intro hlt
    rw [Nat.div_eq_of_lt hlt] at hdiv
    omega
  refine ⟨(2 ^ f.fractionBits + n % 2 ^ f.fractionBits) * 2 ^ (n / 2 ^ f.fractionBits - 1 - s), ?_⟩
  simp only [units, hnot, if_false]
  rw [Nat.mul_assoc, ← Nat.pow_add, Nat.sub_add_cancel (by omega)]

/-- Every magnitude is a number of fraction bits and one more, shifted. -/
theorem units_eq_shift (n : Nat) : ∃ m t, f.units n = m * 2 ^ t ∧ m < 2 ^ (f.fractionBits + 1) := by
  have hblock : 0 < 2 ^ f.fractionBits := Nat.two_pow_pos _
  rw [Nat.pow_succ]
  by_cases hlt : n < 2 ^ f.fractionBits
  · exact ⟨n, 0, by simp [units, hlt], by omega⟩
  · have hmod := Nat.mod_lt n hblock
    exact ⟨2 ^ f.fractionBits + n % 2 ^ f.fractionBits, n / 2 ^ f.fractionBits - 1,
      by simp only [units, hlt, if_false], by omega⟩

/-- The bits that a quotient has beyond the fraction. -/
def spare (num den : Nat) : Nat := (num / den).log2 - f.fractionBits

theorem nearestIndex_eq (num den : Nat) :
    f.nearestIndex num den =
      f.spare num den * 2 ^ f.fractionBits + roundHalfEven num (den * 2 ^ f.spare num den) := rfl

variable (num : Nat) {den : Nat}

theorem lt_of_spare (hden : 0 < den) :
    num < 2 * 2 ^ f.fractionBits * (den * 2 ^ f.spare num den) := by
  have hlog : num / den < 2 ^ ((num / den).log2 + 1) := Nat.lt_log2_self
  have hspare : 2 ^ ((num / den).log2 + 1) ≤ 2 ^ (f.fractionBits + 1 + f.spare num den) :=
    Nat.pow_le_pow_right (by omega) (by unfold spare; omega)
  have hnum := (Nat.div_lt_iff_lt_mul hden).mp (hlog.trans_le hspare)
  calc num < 2 ^ (f.fractionBits + 1 + f.spare num den) * den := hnum
    _ = 2 * 2 ^ f.fractionBits * (den * 2 ^ f.spare num den) := by ring

theorem spare_eq_zero_or (hden : 0 < den) :
    f.spare num den = 0 ∨ 2 ^ f.fractionBits * (den * 2 ^ f.spare num den) ≤ num := by
  by_cases hzero : f.spare num den = 0
  · exact .inl hzero
  · have hlog : (num / den).log2 = f.fractionBits + f.spare num den := by unfold spare at *; omega
    have hpos : num / den ≠ 0 := by
      intro h
      rw [h] at hlog
      simp at hlog
      omega
    have hle := Nat.log2_self_le hpos
    rw [hlog, Nat.le_div_iff_mul_le hden] at hle
    apply Or.inr
    calc 2 ^ f.fractionBits * (den * 2 ^ f.spare num den)
        = 2 ^ (f.fractionBits + f.spare num den) * den := by ring
      _ ≤ num := hle

/-- The magnitude that a quotient is rounded to: the whole number of steps that it is
nearest to. -/
theorem units_nearestIndex (hden : 0 < den) :
    f.units (f.nearestIndex num den) =
      roundHalfEven num (den * 2 ^ f.spare num den) * 2 ^ f.spare num den := by
  have hstep : 0 < den * 2 ^ f.spare num den := Nat.mul_pos hden (Nat.two_pow_pos _)
  rw [nearestIndex_eq]
  refine f.units_block (roundHalfEven_le hstep ?_) ?_
  · have hlt := f.lt_of_spare num hden
    omega
  · rcases f.spare_eq_zero_or num hden with h | h
    · exact .inl h
    · exact .inr (le_roundHalfEven hstep (by omega))

/-- **No magnitude is nearer to a quotient** than that of its nearest index. -/
theorem nearestIndex_nearest (hden : 0 < den) (n : Nat) :
    apart (f.units (f.nearestIndex num den) * den) num ≤ apart (f.units n * den) num := by
  have hstep : 0 < den * 2 ^ f.spare num den := Nat.mul_pos hden (Nat.two_pow_pos _)
  have hsteps (m : Nat) : m * 2 ^ f.spare num den * den = m * (den * 2 ^ f.spare num den) := by ring
  have hmultiple (m : Nat) (hm : f.units n = m * 2 ^ f.spare num den) :
      apart (f.units (f.nearestIndex num den) * den) num ≤ apart (f.units n * den) num := by
    rw [f.units_nearestIndex num hden, hm, hsteps, hsteps]
    exact roundHalfEven_nearest num hstep m
  rcases f.spare_eq_zero_or num hden with hzero | hblock
  · exact hmultiple (f.units n) (by rw [hzero, Nat.pow_zero, Nat.mul_one])
  · by_cases hn : (f.spare num den + 1) * 2 ^ f.fractionBits ≤ n
    · obtain ⟨m, hm⟩ := f.units_eq_mul hn
      exact hmultiple m hm
    · -- The magnitude is below the quotient's block, and the first one of the block is not farther.
      have hfirst := roundHalfEven_nearest num hstep (2 ^ f.fractionBits)
      have hbelow : f.units n * den < 2 ^ f.fractionBits * (den * 2 ^ f.spare num den) := by
        rw [← hsteps, ← Nat.pow_add]
        exact Nat.mul_lt_mul_of_pos_right (f.units_lt (not_le.mp hn)) hden
      rw [f.units_nearestIndex num hden, hsteps]
      unfold apart at *
      omega

theorem nearestIndex_mul_right (num den : Nat) {k : Nat} (hk : 0 < k) :
    f.nearestIndex (num * k) (den * k) = f.nearestIndex num den := by
  unfold nearestIndex
  simp only [Nat.mul_div_mul_right _ _ hk]
  rw [Nat.mul_right_comm den k, roundHalfEven_mul_right _ _ hk]

/-- A quotient that is a magnitude is met exactly. -/
theorem nearestIndex_shift {num den m t : Nat} (hden : 0 < den) (hm : m < 2 ^ (f.fractionBits + 1))
    (h : num = m * 2 ^ t * den) : f.units (f.nearestIndex num den) = m * 2 ^ t := by
  have hspare : f.spare num den ≤ t := by
    unfold spare
    rw [h, Nat.mul_div_cancel _ hden]
    by_cases hzero : m * 2 ^ t = 0
    · simp [hzero]
    · have hlt : m * 2 ^ t < 2 ^ (f.fractionBits + 1 + t) := by
        rw [Nat.pow_add]
        exact Nat.mul_lt_mul_of_pos_right hm (Nat.two_pow_pos t)
      have hlog := (Nat.log2_lt hzero).mpr hlt
      omega
  obtain ⟨k, hk⟩ : ∃ k, t = k + f.spare num den := ⟨t - f.spare num den, by omega⟩
  have hstep : 0 < den * 2 ^ f.spare num den := Nat.mul_pos hden (Nat.two_pow_pos _)
  have hround : roundHalfEven num (den * 2 ^ f.spare num den) = m * 2 ^ k := by
    have hnum : num = m * 2 ^ k * (den * 2 ^ f.spare num den) := by
      calc num = m * 2 ^ t * den := h
        _ = m * 2 ^ (k + f.spare num den) * den := by rw [← hk]
        _ = m * 2 ^ k * (den * 2 ^ f.spare num den) := by ring
    exact roundHalfEven_eq (by omega) (by omega)
  rw [f.units_nearestIndex num hden, hround, Nat.mul_assoc, ← Nat.pow_add, ← hk]

/-- A quotient that the unit does not blur is rounded with a small relative error. -/
theorem nearestIndex_error {num den : Nat} (hden : 0 < den)
    (hunit : 2 ^ f.fractionBits * den ≤ num) :
    2 ^ (f.fractionBits + 1) * (f.units (f.nearestIndex num den) * den) ≤
        2 ^ (f.fractionBits + 1) * num + num ∧
      2 ^ (f.fractionBits + 1) * num ≤
        2 ^ (f.fractionBits + 1) * (f.units (f.nearestIndex num den) * den) + num := by
  have hstep : 0 < den * 2 ^ f.spare num den := Nat.mul_pos hden (Nat.two_pow_pos _)
  have hsmall : 2 ^ f.fractionBits * (den * 2 ^ f.spare num den) ≤ num := by
    rcases f.spare_eq_zero_or num hden with h | h
    · simpa [h] using hunit
    · exact h
  have herror := roundHalfEven_error num hstep
  have hunits : f.units (f.nearestIndex num den) * den =
      roundHalfEven num (den * 2 ^ f.spare num den) * (den * 2 ^ f.spare num den) := by
    rw [f.units_nearestIndex num hden]
    ring
  rw [hunits, Nat.pow_succ]
  generalize roundHalfEven num (den * 2 ^ f.spare num den) * (den * 2 ^ f.spare num den) = r at *
  generalize den * 2 ^ f.spare num den = step at *
  generalize 2 ^ f.fractionBits = block at *
  refine ⟨?_, ?_⟩
  · have := Nat.mul_le_mul_left block herror.1
    nlinarith
  · have := Nat.mul_le_mul_left block herror.2
    nlinarith

/-- A quotient well below infinity is rounded to something below infinity. -/
theorem nearestIndex_lt {num den k : Nat} (hden : 0 < den) (hlt : num < 2 ^ k * den)
    (hk : k + 3 ≤ f.fractionBits + 2 ^ f.exponentBits) (he : 1 < f.exponentBits) :
    f.nearestIndex num den < f.infinityIndex := by
  have hstep : 0 < den * 2 ^ f.spare num den := Nat.mul_pos hden (Nat.two_pow_pos _)
  have hexp : 2 ^ 2 ≤ 2 ^ f.exponentBits := Nat.pow_le_pow_right (by omega) he
  have hspare : f.spare num den + 3 < 2 ^ f.exponentBits := by
    unfold spare
    by_cases hzero : num / den = 0
    · rw [hzero, Nat.log2_zero]
      omega
    · have hlog := (Nat.log2_lt hzero).mpr ((Nat.div_lt_iff_lt_mul hden).mpr hlt)
      omega
  have hround : roundHalfEven num (den * 2 ^ f.spare num den) ≤ 2 * 2 ^ f.fractionBits := by
    have := f.lt_of_spare num hden
    exact roundHalfEven_le hstep (by omega)
  calc f.nearestIndex num den
      ≤ f.spare num den * 2 ^ f.fractionBits + 2 * 2 ^ f.fractionBits := by
        rw [nearestIndex_eq]
        omega
    _ = (f.spare num den + 2) * 2 ^ f.fractionBits := by ring
    _ < f.infinityIndex :=
        Nat.mul_lt_mul_of_pos_right (by omega) (Nat.two_pow_pos _)

end Format
end ColorChain
