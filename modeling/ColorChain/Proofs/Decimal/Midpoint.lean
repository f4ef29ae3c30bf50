import ColorChain.Proofs.Binary.Gap
import Mathlib.Data.Nat.ModEq

/-! Decimals are not close to midpoints.

A midpoint of two singles is an odd number of twenty-five bits times a power of two. For a decimal
`k / 10 ^ p` to be near to it, an odd `c` must have `c * 5 ^ p` near to `k * 2 ^ t`. Up to eleven
places such products are too small to be near without being equal, and up to fifteen the few
residues that would be near are those of other numbers (`Clear`). So whatever is read for a decimal
of few digits, if it is within a part in `2 ^ 51` of it, has the same nearest single
(`Format.nearestTo_decimal`). -/
namespace ColorChain

/-! ### Residues -/

section Residue

variable {P M u c k δ : Nat}

theorem residue_of_above (hu : P * u % M = 1 % M) (hc : c < M) (h : c * P = k * M + δ) :
    δ * u % M = c := by
  have hmod : δ * u ≡ c [MOD M] := by
    calc δ * u ≡ k * u * M + δ * u [MOD M] := by simp [Nat.ModEq]
      _ = c * (P * u) := by rw [← Nat.mul_assoc, h]; ring
      _ ≡ c * 1 [MOD M] := Nat.ModEq.mul_left c hu
      _ = c := Nat.mul_one c
  exact (Nat.mod_eq_of_modEq hmod hc)

theorem residue_of_below (hu : P * u % M = 1 % M) (hle : u ≤ M) (hc : c < M)
    (h : c * P + δ = k * M) : δ * (M - u) % M = c := by
  have hzero : δ * (M - u) + δ * u ≡ c + δ * u [MOD M] := by
    calc δ * (M - u) + δ * u = δ * M := by rw [← Nat.mul_add, Nat.sub_add_cancel hle]
      _ ≡ k * u * M [MOD M] := by simp [Nat.ModEq]
      _ = c * (P * u) + δ * u := by
        rw [← Nat.mul_assoc, ← Nat.add_mul, h]
        ring
      _ ≡ c * 1 + δ * u [MOD M] := (Nat.ModEq.mul_left c hu).add_right _
      _ = c + δ * u := by rw [Nat.mul_one]
  exact Nat.mod_eq_of_modEq (Nat.ModEq.add_right_cancel' _ hzero) hc

end Residue

/-- If `P` takes `c` to within `δ` of a multiple of `M`, and that is near against its size, the
multiple is an odd one beyond `2 ^ 24`, or `c` has not twenty-five bits. -/
def Far (P M c δ : Nat) : Prop :=
  2 ^ 24 < c ∧ c < 2 ^ 25 ∧ δ * (2 ^ 51 - 1) ≤ c * P →
    2 ^ 24 < (c * P + δ) / M ∧ (c * P + δ) / M % 2 = 1

instance (P M c δ : Nat) : Decidable (Far P M c δ) :=
  inferInstanceAs (Decidable (_ ∧ _ ∧ _ → _ ∧ _))

/-- The numbers that `P` takes to within a small odd `δ` of a multiple of `M`, read off `δ` by
the multiplier `u`, are all far. -/
def Clear (P M u : Nat) : Prop := ∀ j < 228, Far P M ((2 * j + 1) * u % M) (2 * j + 1)

instance (P M u : Nat) : Decidable (Clear P M u) :=
  Nat.decidableBallLT 228 fun j _ => Far P M ((2 * j + 1) * u % M) (2 * j + 1)

/-- How the powers of five from `5 ^ 12` on avoid the multiples of a power of two. -/
structure Avoids (P T u : Nat) : Prop where
  bound : P ≤ 5 ^ 15
  odd : P % 2 = 1
  /-- The power of two is the next above `P`, and not much nearer to it than to its half. -/
  below : 2 ^ (T - 1) * (2 ^ 51 + 1) ≤ P * 2 ^ 51
  large : 25 ≤ T
  le : u ≤ 2 ^ T
  inverse : P * u % 2 ^ T = 1 % 2 ^ T
  above : Clear P (2 ^ T) u
  beneath : Clear P (2 ^ T) (2 ^ T - u)

theorem avoids_twelve : Avoids (5 ^ 12) 28 256917169 := by
  constructor <;> decide +kernel

theorem avoids_thirteen : Avoids (5 ^ 13) 31 1984118717 := by
  constructor <;> decide +kernel

theorem avoids_fourteen : Avoids (5 ^ 14) 33 5121287769 := by
  constructor <;> decide +kernel

theorem avoids_fifteen : Avoids (5 ^ 15) 35 31948022085 := by
  constructor <;> decide +kernel

/-- Two numbers that differ by at most a part in `2 ^ 51` of the second. -/
def Close (a b : Nat) : Prop := 2 ^ 51 * apart a b ≤ b

theorem apart_cases (a b : Nat) : a = b + apart a b ∨ a + apart a b = b := by
  unfold apart
  omega

section Close

variable {c k t : Nat}

/-- The power of two that goes with the multiple is not below the next one. -/
theorem Avoids.le_exponent {P T u : Nat} (h : Avoids P T u) (hc : 2 ^ 24 < c) (hk : k ≤ 2 ^ 24)
    (hclose : Close (c * P) (k * 2 ^ t)) : T ≤ t := by
  by_contra hlt
  have hpow : 2 ^ t ≤ 2 ^ (T - 1) := Nat.pow_le_pow_right (by omega) (by omega)
  have hmultiple : k * 2 ^ t ≤ 2 ^ 24 * 2 ^ (T - 1) := Nat.mul_le_mul hk hpow
  have hproduct : (2 ^ 24 + 1) * P ≤ c * P := Nat.mul_le_mul_right P hc
  have hbelow := h.below
  have hodd := h.odd
  unfold Close at hclose
  rcases apart_cases (c * P) (k * 2 ^ t) with heq | heq
  · omega
  · omega

theorem Avoids.not_close {P T u : Nat} (h : Avoids P T u) (hodd : c % 2 = 1)
    (hc : 2 ^ 24 < c) (hc' : c < 2 ^ 25) (hk : k ≤ 2 ^ 24) :
    ¬ Close (c * P) (k * 2 ^ t) := by
  intro hclose
  have hT := h.le_exponent hc hk hclose
  have hlarge := h.large
  -- The multiple of the higher power, as one of `2 ^ T`: small, or even.
  obtain ⟨k', hk', hsmall⟩ : ∃ k', k * 2 ^ t = k' * 2 ^ T ∧ (k' ≤ 2 ^ 24 ∨ k' % 2 = 0) := by
    refine ⟨k * 2 ^ (t - T), ?_, ?_⟩
    · rw [Nat.mul_assoc, ← Nat.pow_add, Nat.sub_add_cancel hT]
    · rcases Nat.eq_zero_or_pos (t - T) with hzero | hpos
      · exact .inl (by rw [hzero]; omega)
      · obtain ⟨n, hn⟩ : ∃ n, t - T = n + 1 := ⟨t - T - 1, by omega⟩
        exact .inr (by rw [hn, Nat.pow_succ, ← Nat.mul_assoc, Nat.mul_mod_left])
  have hM : 2 ^ 25 ≤ 2 ^ T := Nat.pow_le_pow_right (by omega) hlarge
  have heven : k' * 2 ^ T % 2 = 0 := by
    obtain ⟨n, rfl⟩ : ∃ n, T = n + 1 := ⟨T - 1, by omega⟩
    rw [Nat.pow_succ, ← Nat.mul_assoc, Nat.mul_mod_left]
  have hproduct : c * P % 2 = 1 := by rw [Nat.mul_mod, hodd, h.odd]
  have hbound : c * P ≤ 2 ^ 25 * 5 ^ 15 := Nat.mul_le_mul hc'.le h.bound
  rw [hk'] at hclose
  unfold Close at hclose
  obtain ⟨j, hj⟩ : ∃ j, apart (c * P) (k' * 2 ^ T) = 2 * j + 1 := by
    refine ⟨apart (c * P) (k' * 2 ^ T) / 2, ?_⟩
    rcases apart_cases (c * P) (k' * 2 ^ T) with heq | heq <;> omega
  have hcases := apart_cases (c * P) (k' * 2 ^ T)
  rw [hj] at hcases hclose
  have hnear : (2 * j + 1) * (2 ^ 51 - 1) ≤ c * P := by omega
  have hj' : j < 228 := by omega
  -- Either way the residue tells `c`, and the check tells the multiple.
  have hdecide {w : Nat} (hclear : Clear P (2 ^ T) w) (hw : (2 * j + 1) * w % 2 ^ T = c)
      (hmultiple : (c * P + (2 * j + 1)) / 2 ^ T = k') : False := by
    have hfar := hclear j hj'
    rw [hw] at hfar
    have hodd := hfar ⟨hc, hc', hnear⟩
    rw [hmultiple] at hodd
    omega
  rcases hcases with heq | heq
  · refine hdecide h.above (residue_of_above h.inverse (by omega) heq) ?_
    have hsum : c * P + (2 * j + 1) = 2 * (2 * j + 1) + k' * 2 ^ T := by omega
    rw [hsum, Nat.add_mul_div_right _ _ (Nat.two_pow_pos T), Nat.div_eq_of_lt (by omega),
      Nat.zero_add]
  · refine hdecide h.beneath (residue_of_below h.inverse h.le (by omega) heq) ?_
    rw [heq, Nat.mul_div_cancel _ (Nat.two_pow_pos T)]

/-- A product with few places is too small to be near to a number without being equal. -/
theorem not_close_small {p : Nat} (hp : p ≤ 11) (hodd : c % 2 = 1) (hc : 2 ^ 24 < c)
    (hc' : c < 2 ^ 25) (hk : k ≤ 2 ^ 24) : ¬ Close (c * 5 ^ p) (k * 2 ^ t) := by
  intro hclose
  have hpow : 5 ^ p ≤ 5 ^ 11 := Nat.pow_le_pow_right (by omega) hp
  have hone : 0 < 5 ^ p := Nat.pow_pos (by omega)
  have hbound : c * 5 ^ p ≤ 2 ^ 25 * 5 ^ 11 := Nat.mul_le_mul hc'.le hpow
  have hmore : c ≤ c * 5 ^ p := Nat.le_mul_of_pos_right c hone
  have hproduct : c * 5 ^ p % 2 = 1 := by rw [Nat.mul_mod, hodd, Nat.pow_mod]; simp
  unfold Close at hclose
  have heq : c * 5 ^ p = k * 2 ^ t := by
    rcases apart_cases (c * 5 ^ p) (k * 2 ^ t) with heq | heq <;> omega
  rcases Nat.eq_zero_or_pos t with rfl | hpos
  · omega
  · obtain ⟨n, rfl⟩ : ∃ n, t = n + 1 := ⟨t - 1, by omega⟩
    rw [Nat.pow_succ, ← Nat.mul_assoc] at heq
    omega

/-- **Midpoints and decimals of few digits are not close.** -/
theorem not_close {p : Nat} (hp : p ≤ 15) (hodd : c % 2 = 1) (hc : 2 ^ 24 < c)
    (hc' : c < 2 ^ 25) (hk : k ≤ 2 ^ 24) : ¬ Close (c * 5 ^ p) (k * 2 ^ t) := by
  by_cases hsmall : p ≤ 11
  · exact not_close_small hsmall hodd hc hc' hk
  · obtain rfl | rfl | rfl | rfl : p = 12 ∨ p = 13 ∨ p = 14 ∨ p = 15 := by omega
    · exact avoids_twelve.not_close hodd hc hc' hk
    · exact avoids_thirteen.not_close hodd hc hc' hk
    · exact avoids_fourteen.not_close hodd hc hc' hk
    · exact avoids_fifteen.not_close hodd hc hc' hk

end Close

/-! ### Nearest singles -/

theorem close_iff {a b : Nat} : Close a b ↔ (2 : Rat) ^ 51 * |(a : Rat) - b| ≤ b := by
  have hcast : ((apart a b : Nat) : Rat) = |(a : Rat) - b| := by
    unfold apart
    rw [Nat.cast_natAbs]
    push_cast
    rfl
  rw [← hcast]
  unfold Close
  exact_mod_cast Iff.rfl

theorem Close.of_mul {a b n : Nat} (hn : 0 < n) (h : Close (a * n) (b * n)) : Close a b := by
  rw [close_iff] at *
  have hpos : (0 : Rat) < n := by exact_mod_cast hn
  push_cast at h
  rw [← sub_mul, abs_mul, abs_of_pos hpos, ← mul_assoc] at h
  exact le_of_mul_le_mul_right h hpos

/-- Rationals that are close are so when they are scaled to whole numbers. -/
theorem close_of_near {a b : Nat} {x y scale : Rat} (hscale : 0 < scale) (hx : x * scale = a)
    (hy : y * scale = b) (h : |x - y| ≤ y / 2 ^ 51) : Close a b := by
  have hpow : (0 : Rat) < 2 ^ 51 := by positivity
  rw [close_iff, ← hx, ← hy, ← sub_mul, abs_mul, abs_of_pos hscale, ← mul_assoc]
  rw [le_div_iff₀' hpow] at h
  exact mul_le_mul_of_nonneg_right h hscale.le

/-- No midpoint of singles is close to a decimal of few digits. -/
theorem Format.midpoint_not_close {p k n : Nat} (hp : p ≤ 15) (hk : 0 < k) (hk' : k ≤ 2 ^ 24) :
    (k : Rat) / 10 ^ p / 2 ^ 51 < |single.midpoint n - k / 10 ^ p| := by
  by_contra hle
  rw [not_lt] at hle
  obtain ⟨m, s, hmid, hm, hs⟩ := single.midpoint_eq n
  have hunit : (2 : Rat) * 2 ^ single.unitBits = 2 ^ 150 := by
    rw [← pow_succ']
    rfl
  have hblock : 2 ^ single.fractionBits = 2 ^ 23 := rfl
  rw [hunit] at hmid
  rw [hblock] at hm hs
  -- In halves of a unit, and scaled by the power of ten.
  have hclose : Close ((2 * m + 1) * 2 ^ s * 10 ^ p) (k * 2 ^ 150) := by
    refine close_of_near (by positivity : (0 : Rat) < 2 ^ 150 * 10 ^ p) ?_ ?_ hle
    · rw [← mul_assoc, hmid]
      push_cast
      ring
    · have hten : (10 : Rat) ^ p ≠ 0 := by positivity
      rw [mul_comm ((2 : Rat) ^ 150), ← mul_assoc, div_mul_cancel₀ _ hten, Nat.cast_mul,
        Nat.cast_pow, Nat.cast_ofNat]
  have hten : 10 ^ p = 5 ^ p * 2 ^ p := by rw [← Nat.mul_pow]
  have hfive : 5 ^ p ≤ 5 ^ 15 := Nat.pow_le_pow_right (by omega) hp
  have hfive' : 0 < 5 ^ p := Nat.pow_pos (by omega)
  by_cases hsp : s + p ≤ 150
  · obtain ⟨t, ht⟩ : ∃ t, 150 = t + (s + p) := ⟨150 - (s + p), by omega⟩
    have hreduced : Close ((2 * m + 1) * 5 ^ p) (k * 2 ^ t) := by
      refine .of_mul (Nat.two_pow_pos (s + p)) ?_
      have hleft : (2 * m + 1) * 5 ^ p * 2 ^ (s + p) = (2 * m + 1) * 2 ^ s * 10 ^ p := by
        rw [hten, Nat.pow_add]
        ring
      rw [hleft, Nat.mul_assoc k, ← Nat.pow_add, ← ht]
      exact hclose
    rcases hs with rfl | hs
    · -- Near zero the midpoint is far below.
      have hlarge : 1 * 2 ^ 135 ≤ k * 2 ^ t :=
        Nat.mul_le_mul hk (Nat.pow_le_pow_right (by omega) (by omega))
      have hsmall : (2 * m + 1) * 5 ^ p ≤ 2 ^ 25 * 5 ^ 15 := Nat.mul_le_mul (by omega) hfive
      unfold Close at hreduced
      rcases apart_cases ((2 * m + 1) * 5 ^ p) (k * 2 ^ t) with heq | heq <;> omega
    · exact not_close hp (by omega) (by omega) (by omega) hk' hreduced
  · obtain ⟨t, ht⟩ : ∃ t, s + p = t + 1 + 150 := ⟨s + p - 151, by omega⟩
    have hreduced : Close ((2 * m + 1) * 5 ^ p * 2 ^ (t + 1)) k := by
      refine .of_mul (Nat.two_pow_pos 150) ?_
      have hleft : (2 * m + 1) * 5 ^ p * 2 ^ (t + 1) * 2 ^ 150 =
          (2 * m + 1) * 2 ^ s * 10 ^ p := by
        rw [hten, Nat.mul_assoc _ (2 ^ (t + 1)), ← Nat.pow_add, ← ht, Nat.pow_add]
        ring
      rw [hleft]
      exact hclose
    have hm' : 2 ^ 23 ≤ m := by omega
    have hlarge : (2 ^ 24 + 1) * 1 * 2 ^ 1 ≤ (2 * m + 1) * 5 ^ p * 2 ^ (t + 1) :=
      Nat.mul_le_mul (Nat.mul_le_mul (by omega) hfive')
        (Nat.pow_le_pow_right (by omega) (by omega))
    unfold Close at hreduced
    rcases apart_cases ((2 * m + 1) * 5 ^ p * 2 ^ (t + 1)) k with heq | heq <;> omega

/-- **What is close to a decimal of few digits has the same nearest single.** -/
theorem Format.nearestTo_decimal {p k : Nat} {v : Rat} (hp : p ≤ 15) (hk : 0 < k)
    (hk' : k ≤ 2 ^ 24) (hv : 0 ≤ v) (h : |v - k / 10 ^ p| ≤ k / 10 ^ p / 2 ^ 51) :
    single.nearestTo v = single.nearestTo (k / 10 ^ p) := by
  by_contra hne
  obtain ⟨n, hn⟩ := single.exists_midpoint (by positivity) hv hne
  exact absurd (hn.trans h) (not_le.mpr (midpoint_not_close hp hk hk'))

end ColorChain
