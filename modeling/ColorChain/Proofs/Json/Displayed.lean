import ColorChain.Proofs.Decimal.Places
import ColorChain.Proofs.Json.Real

/-! Displayed numbers in JSON text.

A number as it is displayed is a double, and the text of a double is read but for a few roundings.
Those do not lead away from the single that is displayed: where there are few places the text has
few digits, and where there are many the single itself is near (`Display.read?_rounded`). -/
namespace ColorChain.Display

open Binary

variable {p : UInt32} {x : Single}

/-- The displayed double is neither small nor large. -/
theorem rounded_bounds (hp : p.toNat ≤ 15) (hx : x.isFinite = true) (hk : 0 < places x p) :
    1 / 2 ^ 60 ≤ (rounded x p).magnitude ∧ (rounded x p).magnitude < 2 ^ 205 := by
  have hblur := blurred_rounded hp hx hk
  have htwo : blur ^ 1 ≤ 2 := by norm_num [blur]
  have hone : (1 : Rat) ≤ places x p := by exact_mod_cast hk
  have hlt : (places x p : Rat) < 2 ^ 204 := by exact_mod_cast places_lt (le_maxPlaces hp) hx
  have hten : (0 : Rat) < 10 ^ p.toNat := by positivity
  have hpow : (10 : Rat) ^ p.toNat ≤ 2 ^ 59 :=
    (pow_le_pow_right₀ (by norm_num) hp).trans (by norm_num)
  have hlow : 1 / 2 ^ 59 ≤ (places x p : Rat) / 10 ^ p.toNat := by
    rw [div_le_div_iff₀ (by positivity) hten]
    linarith
  have hhigh : (places x p : Rat) / 10 ^ p.toNat < 2 ^ 204 :=
    (div_le_self (by positivity) (one_le_pow₀ (by norm_num))).trans_lt hlt
  have habove := hblur.le.trans (mul_le_mul_of_nonneg_left htwo (by positivity))
  have hbelow := hblur.ge.trans (mul_le_mul_of_nonneg_left htwo (magnitude_nonneg _))
  constructor
  · linarith
  · linarith

/-- A few places are written in as few digits, and those are read exactly. -/
theorem few_digits (hp : p.toNat ≤ 15) (hx : x.isFinite = true) (hk : 0 < places x p)
    (hfew : places x p ≤ 2 ^ 24) :
    -((p.toNat : Int) + 1) ≤ ((rounded x p).shortest .toEven).exponent ∧
      (rounded x p).magnitude ≤ 2 ^ 52 * 10 ^ (-((p.toNat : Int) + 1)) := by
  have hten : (0 : Rat) < 10 ^ p.toNat := by positivity
  have hcast : (places x p : Rat) ≤ 2 ^ 24 := by exact_mod_cast hfew
  have htwo : blur ^ 1 ≤ 2 := by norm_num [blur]
  refine ⟨?_, ?_⟩
  · rw [rounded_eq (le_maxPlaces hp) hx]
    exact le_exponent_of_few (le_maxPlaces hp) hk (by omega) _
  · have habove := (blurred_rounded hp hx hk).le.trans
      (mul_le_mul_of_nonneg_left htwo (by positivity))
    refine habove.trans ?_
    have hgrid : (10 : Rat) ^ (-((p.toNat : Int) + 1)) = 1 / (10 ^ p.toNat * 10) := by
      rw [zpow_neg, one_div, ← pow_succ]
      norm_cast
    rw [hgrid, div_mul_eq_mul_div, mul_one_div, div_le_div_iff₀ hten (by positivity)]
    calc (places x p : Rat) * 2 * (10 ^ p.toNat * 10)
        = places x p * 20 * 10 ^ p.toNat := by ring
      _ ≤ 2 ^ 52 * 10 ^ p.toNat := mul_le_mul_of_nonneg_right (by linarith) hten.le

/-- **The text of a displayed double** is read as a double that stands for the displayed single. -/
theorem read?_rounded (hp : p.toNat ≤ 15) (hx : x.isFinite = true) :
    ∃ y, (JsonNumber.real (rounded x p)).read? = some (.real y) ∧
      (y.convert : Single) = shown x p := by
  rcases Nat.eq_zero_or_pos (places x p) with hzero | hk
  · rw [rounded_of_places_eq_zero hp hx hzero, shown_of_places_eq_zero hzero]
    exact ⟨.zero false, by decide +kernel, by decide +kernel⟩
  · obtain ⟨hlow, hhigh⟩ := rounded_bounds hp hx hk
    obtain ⟨y, hread, hfinite, hnegative, hfour, htwo⟩ := JsonNumber.read?_real hlow hhigh
    have hne : places x p ≠ 0 := by omega
    have hsign : y.negative = x.negative := by
      rw [hnegative, negative_rounded hp hx, decide_eq_true hne, Bool.and_true]
    have hrounded := blurred_rounded hp hx hk
    refine ⟨y, hread, ?_⟩
    by_cases hmany : 2 ^ 24 < places x p
    · exact convert_of_blurred hp hx hk hfinite hsign (.inr ⟨by omega, hmany⟩)
        (hfour.trans hrounded)
    · obtain ⟨hexponent, hmagnitude⟩ := few_digits hp hx hk (not_lt.mp hmany)
      exact convert_of_blurred hp hx hk hfinite hsign (.inl le_rfl)
        ((htwo _ (by omega) (by omega) hexponent hmagnitude).trans hrounded)

end ColorChain.Display
