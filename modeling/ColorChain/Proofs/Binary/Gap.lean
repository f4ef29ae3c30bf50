import ColorChain.Proofs.Binary.Nearest
import Mathlib.Order.Monotone.Basic

/-! What lies between neighbours.

Neighbouring magnitudes are neighbouring multiples of one power of two (`Format.units_step`), so
they are far apart against their size. Two rationals that have different nearest magnitudes have
the midpoint of two neighbours between them (`Format.exists_midpoint`), and what is nearer to a
magnitude than the least half gap has that one as its nearest (`Format.nearestTo_of_near`). -/
namespace ColorChain.Format

variable (f : Format)

/-- Neighbours are neighbouring multiples of one power of two. -/
theorem units_step (n : Nat) :
    ∃ m s, f.units n = m * 2 ^ s ∧ f.units (n + 1) = (m + 1) * 2 ^ s ∧
      m < 2 * 2 ^ f.fractionBits ∧ (s = 0 ∨ 2 ^ f.fractionBits ≤ m) := by
  have hblock : 0 < 2 ^ f.fractionBits := Nat.two_pow_pos _
  by_cases hlt : n < 2 ^ f.fractionBits
  · have hunits {m : Nat} (hm : m ≤ 2 ^ f.fractionBits) : f.units m = m * 2 ^ 0 := by
      simpa using f.units_block (s := 0) (by omega) (.inl rfl)
    exact ⟨n, 0, hunits hlt.le, hunits hlt, by omega, .inl rfl⟩
  · obtain ⟨s, r, hr, rfl⟩ : ∃ s r, r < 2 ^ f.fractionBits ∧
        n = s * 2 ^ f.fractionBits + (2 ^ f.fractionBits + r) := by
      refine ⟨n / 2 ^ f.fractionBits - 1, n % 2 ^ f.fractionBits, Nat.mod_lt n hblock, ?_⟩
      have hdiv := Nat.div_add_mod' n (2 ^ f.fractionBits)
      obtain ⟨k, hk⟩ : ∃ k, n / 2 ^ f.fractionBits = k + 1 :=
        ⟨_, (Nat.sub_add_cancel (Nat.div_pos (not_lt.mp hlt) hblock)).symm⟩
      rw [hk, Nat.add_mul, Nat.one_mul] at hdiv
      rw [hk, Nat.add_sub_cancel]
      omega
    refine ⟨2 ^ f.fractionBits + r, s, ?_, ?_, by omega, .inr (by omega)⟩
    · exact f.units_block (by omega) (.inr (by omega))
    · rw [Nat.add_assoc]
      exact f.units_block (by omega) (.inr (by omega))

theorem units_strictMono : StrictMono f.units := by
  refine strictMono_nat_of_lt_succ fun n => ?_
  obtain ⟨m, s, hn, hnext, -, -⟩ := f.units_step n
  rw [hn, hnext]
  exact Nat.mul_lt_mul_of_pos_right (Nat.lt_succ_self m) (Nat.two_pow_pos s)

theorem value_strictMono : StrictMono f.value := fun _ _ h =>
  div_lt_div_of_pos_right (Nat.cast_lt.mpr (f.units_strictMono h)) (by positivity)

/-- The gap above a magnitude is not small against the magnitude at its upper end. -/
theorem le_gap (n : Nat) :
    f.value (n + 1) ≤ 2 ^ (f.fractionBits + 1) * (f.value (n + 1) - f.value n) := by
  obtain ⟨m, s, hn, hnext, hm, -⟩ := f.units_step n
  have hcast : ((m + 1 : Nat) : Rat) ≤ 2 ^ (f.fractionBits + 1) := by
    rw [pow_succ']
    exact_mod_cast hm
  have hgap : f.value (n + 1) - f.value n = 2 ^ s / 2 ^ f.unitBits := by
    unfold value
    rw [hn, hnext]
    push_cast
    ring
  calc f.value (n + 1) = ((m + 1 : Nat) : Rat) * (2 ^ s / 2 ^ f.unitBits) := by
        unfold value
        rw [hnext]
        push_cast
        ring
    _ ≤ 2 ^ (f.fractionBits + 1) * (2 ^ s / 2 ^ f.unitBits) :=
        mul_le_mul_of_nonneg_right hcast (by positivity)
    _ = 2 ^ (f.fractionBits + 1) * (f.value (n + 1) - f.value n) := by rw [hgap]

/-- The gap above a magnitude that the unit does not blur is small against it. -/
theorem gap_le {n : Nat} (h : 2 * 2 ^ f.fractionBits < f.units (n + 1)) :
    2 ^ f.fractionBits * (f.value (n + 1) - f.value n) ≤ f.value n := by
  obtain ⟨m, s, hn, hnext, hm, hs⟩ := f.units_step n
  have hle : 2 ^ f.fractionBits ≤ m := by
    rcases hs with rfl | hs
    · rw [hnext, Nat.pow_zero, Nat.mul_one] at h
      omega
    · exact hs
  have hcast : (2 : Rat) ^ f.fractionBits ≤ m := by exact_mod_cast hle
  have hgap : f.value (n + 1) - f.value n = 2 ^ s / 2 ^ f.unitBits := by
    unfold value
    rw [hn, hnext]
    push_cast
    ring
  calc 2 ^ f.fractionBits * (f.value (n + 1) - f.value n)
      = 2 ^ f.fractionBits * (2 ^ s / 2 ^ f.unitBits) := by rw [hgap]
    _ ≤ m * (2 ^ s / 2 ^ f.unitBits) := mul_le_mul_of_nonneg_right hcast (by positivity)
    _ = f.value n := by
        unfold value
        rw [hn]
        push_cast
        ring

/-- Different magnitudes are not close against their size. -/
theorem le_apart {n n' : Nat} (h : n' ≠ n) :
    f.value n ≤ 2 ^ (f.fractionBits + 1) * |f.value n' - f.value n| := by
  have hmono := f.value_strictMono.monotone
  rcases Nat.lt_or_gt_of_ne h with hlt | hgt
  · obtain ⟨k, rfl⟩ : ∃ k, n = k + 1 := ⟨n - 1, by omega⟩
    have hle : f.value n' ≤ f.value k := hmono (Nat.le_of_lt_succ hlt)
    have hgap : f.value (k + 1) - f.value k ≤ |f.value n' - f.value (k + 1)| := by
      rw [abs_sub_comm]
      exact (sub_le_sub_left hle _).trans (le_abs_self _)
    exact (f.le_gap k).trans (mul_le_mul_of_nonneg_left hgap (by positivity))
  · have hle : f.value (n + 1) ≤ f.value n' := hmono hgt
    have hgap : f.value (n + 1) - f.value n ≤ |f.value n' - f.value n| :=
      (sub_le_sub_right hle _).trans (le_abs_self _)
    calc f.value n ≤ f.value (n + 1) := hmono (Nat.le_succ n)
      _ ≤ 2 ^ (f.fractionBits + 1) * (f.value (n + 1) - f.value n) := f.le_gap n
      _ ≤ _ := mul_le_mul_of_nonneg_left hgap (by positivity)

/-! ### The nearest magnitude of a rational -/

/-- Half way from a magnitude to the next. -/
def midpoint (n : Nat) : Rat := (f.value n + f.value (n + 1)) / 2

theorem le_midpoint_of_nearestTo {q : Rat} (hq : 0 ≤ q) {n : Nat} (h : f.nearestTo q ≤ n) :
    q ≤ f.midpoint n := by
  have hmono := f.value_strictMono.monotone
  have hle := f.value_nearestTo_le hq (n + 1)
  have hlow : f.value (f.nearestTo q) ≤ f.value n := hmono h
  have hlt : f.value n < f.value (n + 1) := f.value_strictMono (Nat.lt_succ_self n)
  unfold midpoint
  by_contra hgt
  rw [not_le] at hgt
  rw [abs_of_neg (by linarith), abs_sub_comm] at hle
  rcases abs_cases (q - f.value (n + 1)) with ⟨habs, -⟩ | ⟨habs, -⟩
  · linarith
  · linarith

theorem midpoint_le_of_nearestTo {q : Rat} (hq : 0 ≤ q) {n : Nat} (h : n < f.nearestTo q) :
    f.midpoint n ≤ q := by
  have hmono := f.value_strictMono.monotone
  have hle := f.value_nearestTo_le hq n
  have hhigh : f.value (n + 1) ≤ f.value (f.nearestTo q) := hmono h
  have hlt : f.value n < f.value (n + 1) := f.value_strictMono (Nat.lt_succ_self n)
  unfold midpoint
  by_contra hgt
  rw [not_le] at hgt
  rw [abs_of_pos (by linarith)] at hle
  rcases abs_cases (f.value n - q) with ⟨habs, -⟩ | ⟨habs, -⟩
  · linarith
  · linarith

/-- Rounding keeps the order of what is rounded. -/
theorem nearestTo_mono {q v : Rat} (hq : 0 ≤ q) (h : q ≤ v) : f.nearestTo q ≤ f.nearestTo v := by
  by_contra hgt
  rw [not_le] at hgt
  -- The midpoint above the lower neighbour is between them, so they are one number.
  have hhigh := f.midpoint_le_of_nearestTo hq hgt
  have hlow := f.le_midpoint_of_nearestTo (hq.trans h) le_rfl
  have heq : q = v := le_antisymm h (hlow.trans hhigh)
  rw [heq] at hgt
  exact lt_irrefl _ hgt

/-- **Rationals with different nearest magnitudes have a midpoint between them.** -/
theorem exists_midpoint {q v : Rat} (hq : 0 ≤ q) (hv : 0 ≤ v)
    (h : f.nearestTo v ≠ f.nearestTo q) : ∃ n, |f.midpoint n - q| ≤ |v - q| := by
  rcases Nat.lt_or_gt_of_ne h with hlt | hgt
  · have hhigh := f.midpoint_le_of_nearestTo hq hlt
    have hlow := f.le_midpoint_of_nearestTo hv le_rfl
    refine ⟨f.nearestTo v, ?_⟩
    rw [abs_of_nonpos (by linarith), abs_of_nonpos (by linarith)]
    linarith
  · have hhigh := f.midpoint_le_of_nearestTo hv hgt
    have hlow := f.le_midpoint_of_nearestTo hq le_rfl
    refine ⟨f.nearestTo q, ?_⟩
    rw [abs_of_nonneg (by linarith), abs_of_nonneg (by linarith)]
    linarith

/-- A midpoint in halves of a unit is an odd multiple of a power of two. -/
theorem midpoint_eq (n : Nat) :
    ∃ m s, f.midpoint n * (2 * 2 ^ f.unitBits) = ((2 * m + 1) * 2 ^ s : Nat) ∧
      m < 2 * 2 ^ f.fractionBits ∧ (s = 0 ∨ 2 ^ f.fractionBits ≤ m) := by
  obtain ⟨m, s, hn, hnext, hm, hs⟩ := f.units_step n
  refine ⟨m, s, ?_, hm, hs⟩
  have hsum : f.midpoint n * (2 * 2 ^ f.unitBits) = f.units n + f.units (n + 1) := by
    rw [← f.value_mul_unit n, ← f.value_mul_unit (n + 1), midpoint]
    ring
  rw [hsum, hn, hnext]
  push_cast
  ring

/-- No midpoint is a decimal of few digits: it would have to be an odd multiple of a power of two
that is too large, or an even one. -/
theorem midpoint_ne_decimal {k p n : Nat} (hk : k < 2 ^ (f.fractionBits + 1))
    (hp : p ≤ f.unitBits) : f.midpoint n ≠ k / 10 ^ p := by
  intro heq
  obtain ⟨m, s, hmid, -, hs⟩ := f.midpoint_eq n
  have hcross : (2 * m + 1) * 5 ^ p * 2 ^ (s + p) = k * 2 ^ (f.unitBits + 1) := by
    have hten : (10 : Rat) ^ p = 2 ^ p * 5 ^ p := by rw [← mul_pow]; norm_num
    have hcast : (((2 * m + 1) * 5 ^ p * 2 ^ (s + p) : Nat) : Rat) =
        (k * 2 ^ (f.unitBits + 1) : Nat) := by
      calc (((2 * m + 1) * 5 ^ p * 2 ^ (s + p) : Nat) : Rat)
          = ((2 * m + 1) * 2 ^ s : Nat) * 10 ^ p := by
            rw [hten]
            push_cast
            ring
        _ = k / 10 ^ p * 10 ^ p * (2 * 2 ^ f.unitBits) := by
            rw [← hmid, heq]
            ring
        _ = (k * 2 ^ (f.unitBits + 1) : Nat) := by
            rw [div_mul_cancel₀ _ (by positivity)]
            push_cast
            ring
    exact_mod_cast hcast
  have hfive : 5 ^ p % 2 = 1 := by rw [Nat.pow_mod]; simp
  have hodd : (2 * m + 1) * 5 ^ p % 2 = 1 := by rw [Nat.mul_mod, hfive]; omega
  by_cases hle : s + p ≤ f.unitBits
  · obtain ⟨t, ht⟩ : ∃ t, f.unitBits + 1 = t + 1 + (s + p) := ⟨f.unitBits - (s + p), by omega⟩
    rw [ht, Nat.pow_add _ (t + 1), ← Nat.mul_assoc] at hcross
    have hreduced := Nat.eq_of_mul_eq_mul_right (Nat.two_pow_pos (s + p)) hcross
    rw [Nat.pow_succ, ← Nat.mul_assoc] at hreduced
    omega
  · obtain ⟨t, ht⟩ : ∃ t, s + p = t + (f.unitBits + 1) := ⟨s + p - (f.unitBits + 1), by omega⟩
    rw [ht, Nat.pow_add, ← Nat.mul_assoc] at hcross
    have hreduced := Nat.eq_of_mul_eq_mul_right (Nat.two_pow_pos (f.unitBits + 1)) hcross
    have hlarge : (2 * m + 1) * 1 * 1 ≤ (2 * m + 1) * 5 ^ p * 2 ^ t :=
      Nat.mul_le_mul (Nat.mul_le_mul le_rfl (Nat.pow_pos (by omega))) (Nat.two_pow_pos t)
    rw [Nat.pow_succ] at hk
    omega

/-- What is nearer to a magnitude than half the least gap has it as its nearest. -/
theorem nearestTo_of_near {v : Rat} {n : Nat} (hv : 0 ≤ v)
    (h : 2 ^ (f.fractionBits + 2) * |v - f.value n| < f.value n) : f.nearestTo v = n := by
  by_contra hne
  have hle := f.value_nearestTo_le hv n
  have hapart := f.le_apart hne
  have htriangle := abs_sub_le (f.value (f.nearestTo v)) v (f.value n)
  rw [abs_sub_comm (f.value n) v] at hle
  rw [pow_succ] at h
  have hscale : (0 : Rat) < 2 ^ (f.fractionBits + 1) := by positivity
  nlinarith

end ColorChain.Format

namespace ColorChain.Binary

variable {f : Format}

theorem nearest_index_le {s t : Bool} {q v : Rat} (hq : 0 ≤ q) (h : q ≤ v) :
    (nearest s q : Binary f).index ≤ (nearest t v : Binary f).index := by
  rw [index_nearest_eq, index_nearest_eq]
  have hle := f.nearestTo_mono hq h
  omega

theorem nearest_le_nearest {q v : Rat} (hq : 0 ≤ q) (h : q ≤ v) :
    (nearest false q : Binary f).le (nearest false v) = true := by
  refine le_iff.mpr ⟨isNaN_nearest _ _, isNaN_nearest _ _, ?_⟩
  show ((nearest false q : Binary f).index : Int) ≤ (nearest false v : Binary f).index
  exact_mod_cast nearest_index_le hq h

end ColorChain.Binary
