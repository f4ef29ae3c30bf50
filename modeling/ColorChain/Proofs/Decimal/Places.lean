import ColorChain.Proofs.Binary.Blur
import ColorChain.Proofs.Decimal.Display
import ColorChain.Proofs.Decimal.Midpoint

/-! Every reading of a displayed number is one single.

What is displayed is a whole number of the last place. A few digits keep away from the midpoints of
singles; and where there are more than singles tell apart, all that is near to them is near to the
number itself, since that is a single. Either way a few roundings to a double do not change the
nearest single (`nearestTo_places`), and so the number as it is displayed, its text and whatever
else is read of either stand for the same one (`convert_rounded`, `ofText?_number`). -/
namespace ColorChain.Display

open Binary

variable {p : UInt32} {x : Single} {v : Rat} {j : Nat}

/-- The most places that a number of twenty-five bits keeps apart. -/
theorem le_maxPlaces (hp : p.toNat ≤ 15) : p.toNat ≤ maxPlaces := hp.trans (by decide)

/-- A number with more digits than singles tell apart is shown so near to itself that it stays
nearest. -/
theorem nearestTo_of_many (hp : p.toNat ≤ 15) (hx : x.isFinite = true)
    (hk : 2 ^ 24 < places x p) (hv : 0 ≤ v)
    (h : |v - places x p / 10 ^ p.toNat| ≤ places x p / 10 ^ p.toNat * (13 / 2 ^ 54)) :
    Format.single.nearestTo v = x.index := by
  have hten : (0 : Rat) < 10 ^ p.toNat := by positivity
  have hnear := places_near (le_maxPlaces hp) hx
  have hmany : (2 : Rat) ^ 24 + 1 ≤ places x p := by exact_mod_cast hk
  -- The distances in places of the last digit.
  have hvalue : |v * 10 ^ p.toNat - places x p| ≤ places x p * (13 / 2 ^ 54) := by
    calc |v * 10 ^ p.toNat - places x p|
        = |v - places x p / 10 ^ p.toNat| * 10 ^ p.toNat := abs_mul_sub hten
      _ ≤ places x p / 10 ^ p.toNat * (13 / 2 ^ 54) * 10 ^ p.toNat :=
          mul_le_mul_of_nonneg_right h hten.le
      _ = places x p * (13 / 2 ^ 54) := by rw [mul_right_comm, div_mul_cancel₀ _ hten.ne']
  apply Format.nearestTo_of_near _ hv
  have hbits : Format.single.fractionBits + 2 = 25 := rfl
  have hscaled : (2 : Rat) ^ 25 * |v * 10 ^ p.toNat - x.magnitude * 10 ^ p.toNat| <
      x.magnitude * 10 ^ p.toNat := by
    have htriangle := abs_sub_le (v * 10 ^ p.toNat) (places x p) (x.magnitude * 10 ^ p.toNat)
    obtain ⟨hlow, hhigh⟩ := abs_le.mp hnear
    generalize x.magnitude * 10 ^ p.toNat = a at *
    linarith
  rw [hbits]
  rw [← sub_mul, abs_mul, abs_of_pos hten, ← mul_assoc] at hscaled
  exact lt_of_mul_lt_mul_right hscaled hten.le

/-- **A few roundings do not change the nearest single** of what is displayed. -/
theorem nearestTo_places (hp : p.toNat ≤ 15) (hx : x.isFinite = true) (hk : 0 < places x p)
    (hv : 0 ≤ v) (hj : j ≤ 3 ∨ j ≤ 6 ∧ 2 ^ 24 < places x p)
    (h : Blurred j v (places x p / 10 ^ p.toNat)) :
    Format.single.nearestTo v = Format.single.nearestTo (places x p / 10 ^ p.toNat) := by
  have hq : (0 : Rat) ≤ places x p / 10 ^ p.toNat := by positivity
  by_cases hmany : 2 ^ 24 < places x p
  · have hblurred := h.mono hv hq (show j ≤ 6 by omega)
    have hdistance := hblurred.abs_sub_le hv hq (e := 13 / 2 ^ 54) (by norm_num [blur])
    rw [nearestTo_of_many hp hx hmany hv hdistance]
    refine (nearestTo_of_many hp hx hmany hq ?_).symm
    rw [sub_self, abs_zero]
    exact mul_nonneg hq (by norm_num)
  · have hblurred := h.mono hv hq (show j ≤ 3 by omega)
    have hdistance := hblurred.abs_sub_le hv hq (e := 1 / 2 ^ 51) (by norm_num [blur])
    rw [← div_eq_mul_one_div] at hdistance
    exact Format.nearestTo_decimal hp hk (not_lt.mp hmany) hv hdistance

theorem nearest_places (hp : p.toNat ≤ 15) (hx : x.isFinite = true) (hk : 0 < places x p)
    (hv : 0 ≤ v) (hj : j ≤ 3 ∨ j ≤ 6 ∧ 2 ^ 24 < places x p)
    (h : Blurred j v (places x p / 10 ^ p.toNat)) (negative : Bool) :
    (nearest negative v : Single) = nearest negative (places x p / 10 ^ p.toNat) :=
  nearest_eq_of_nearestTo (nearestTo_places hp hx hk hv hj h) negative

theorem isFinite_shown (hp : p.toNat ≤ 15) (hx : x.isFinite = true) :
    (shown x p).isFinite = true := by
  by_cases hmany : 2 ^ 24 < places x p
  · have hq : (0 : Rat) ≤ places x p / 10 ^ p.toNat := by positivity
    have hindex : Format.single.nearestTo (places x p / 10 ^ p.toNat) = x.index := by
      refine nearestTo_of_many hp hx hmany hq ?_
      rw [sub_self, abs_zero]
      exact mul_nonneg hq (by norm_num)
    have hlt : x.index < Format.single.infinityIndex := of_decide_eq_true hx
    refine decide_eq_true ?_
    rw [shown, index_nearest_eq]
    omega
  · have hlt : (places x p : Rat) ≤ 2 ^ 24 := by exact_mod_cast not_lt.mp hmany
    have hquotient : (places x p : Rat) / 10 ^ p.toNat ≤ 2 ^ 24 :=
      (div_le_self (by positivity) (one_le_pow₀ (by norm_num))).trans hlt
    exact isFinite_single (by positivity) (hquotient.trans_lt (by norm_num)) _

/-- What is displayed of a zero is the positive zero. -/
theorem shown_of_places_eq_zero (h : places x p = 0) : shown x p = zero false := by
  rw [shown, h, Nat.cast_zero, zero_div, nearest_zero]
  simp

theorem rounded_of_places_eq_zero (hp : p.toNat ≤ 15) (hx : x.isFinite = true)
    (h : places x p = 0) : rounded x p = zero false := by
  rw [rounded_eq (le_maxPlaces hp) hx, h, Nat.cast_zero, zero_div, nearest_zero]
  simp

/-! ### The number as it is displayed -/

/-- The number as it is displayed is one rounding away from a whole number of places. -/
theorem blurred_rounded (hp : p.toNat ≤ 15) (hx : x.isFinite = true) (hk : 0 < places x p) :
    Blurred 1 (rounded x p).magnitude (places x p / 10 ^ p.toNat) := by
  have hlt : (places x p : Rat) < 2 ^ 204 := by exact_mod_cast places_lt (le_maxPlaces hp) hx
  have hone : (1 : Rat) ≤ places x p := by exact_mod_cast hk
  have hten := ten_pow_lt (le_maxPlaces hp)
  have hpos : (0 : Rat) < 10 ^ p.toNat := by positivity
  rw [rounded_eq (le_maxPlaces hp) hx]
  refine blurred_nearest ?_ ?_ _
  · rw [div_le_div_iff₀ (by positivity) hpos, one_mul]
    linarith
  · exact (div_le_self (by positivity) (one_le_pow₀ (by norm_num))).trans_lt
      (hlt.trans (by norm_num))

/-- The displayed number of places is a double, however large it is. -/
theorem magnitude_nearest_places (hp : p.toNat ≤ 15) (hx : x.isFinite = true) (negative : Bool) :
    (nearest negative (places x p) : Double).magnitude = places x p :=
  magnitude_nearest_whole ((scaled_lt (le_maxPlaces hp) hx).trans (by norm_num)) negative

theorem isFinite_rounded (hp : p.toNat ≤ 15) (hx : x.isFinite = true) :
    (rounded x p).isFinite = true := by
  rw [rounded_eq (le_maxPlaces hp) hx]
  exact isFinite_place (places_lt (le_maxPlaces hp) hx) _

theorem negative_rounded (hp : p.toNat ≤ 15) (hx : x.isFinite = true) :
    (rounded x p).negative = (x.negative && places x p ≠ 0) := by
  rw [rounded_eq (le_maxPlaces hp) hx]
  rfl

/-- A double that is a few roundings away from what is displayed stands for the same single. -/
theorem convert_of_blurred {y : Double} (hp : p.toNat ≤ 15) (hx : x.isFinite = true)
    (hk : 0 < places x p) (hy : y.isFinite = true) (hsign : y.negative = x.negative)
    (hj : j ≤ 3 ∨ j ≤ 6 ∧ 2 ^ 24 < places x p)
    (h : Blurred j y.magnitude (places x p / 10 ^ p.toNat)) :
    (y.convert : Single) = shown x p := by
  have hne : places x p ≠ 0 := by omega
  rw [convert_eq_nearest hy, hsign, shown, decide_eq_true hne, Bool.and_true,
    nearest_places hp hx hk y.magnitude_nonneg hj h]

/-- **The number as it is displayed** stands for the single nearest to its decimal. -/
theorem convert_rounded (hp : p.toNat ≤ 15) (hx : x.isFinite = true) :
    ((rounded x p).convert : Single) = shown x p := by
  rcases Nat.eq_zero_or_pos (places x p) with hzero | hk
  · rw [rounded_of_places_eq_zero hp hx hzero, shown_of_places_eq_zero hzero]
    decide +kernel
  · refine convert_of_blurred hp hx hk (isFinite_rounded hp hx) ?_ (.inl (by omega))
      (blurred_rounded hp hx hk)
    have hne : places x p ≠ 0 := by omega
    rw [negative_rounded hp hx, decide_eq_true hne, Bool.and_true]

/-! ### The displayed text -/

/-- The text spells a whole number of places that is the displayed one, or near to it where that
has more digits than a double. -/
theorem number_eq (hp : p.toNat ≤ 15) (hx : x.isFinite = true) :
    ∃ n, number x p = trimmed
        (signText (x.negative && places x p ≠ 0) ++ placed n p.toNat) ∧
      n < 10 ^ 100 ∧
      (n = places x p ∨
        2 ^ 52 ≤ places x p ∧ |(n : Rat) - places x p| ≤ places x p * (1 / 2 ^ 52)) := by
  have hp' := le_maxPlaces hp
  have hfinite := isFinite_rounded hp hx
  have hlt := places_lt hp' hx
  by_cases hmany : places x p < 2 ^ 52
  · refine ⟨places x p, ?_, hlt.trans (by norm_num), .inl rfl⟩
    unfold number
    rw [rounded_eq hp' hx, fixed_place hp' hmany]
  · have hfixed : (rounded x p).fixed p.toNat = signText (rounded x p).negative ++
        placed (roundHalfEven (Format.double.units (rounded x p).index * 10 ^ p.toNat)
          (2 ^ Format.double.unitBits)) p.toNat := by
      rw [fixed, specialText?, isNaN_of_isFinite hfinite, isInfinite_of_isFinite hfinite]
      rfl
    have hnear : |(roundHalfEven (Format.double.units (rounded x p).index * 10 ^ p.toNat)
        (2 ^ Format.double.unitBits) : Rat) - places x p| ≤ places x p * (1 / 2 ^ 52) := by
      have herror := magnitude_place_error hp' hlt (x.negative && places x p ≠ 0)
      have hscaled := error_mul (by positivity) herror
      rw [← rounded_eq hp' hx] at hscaled
      have hhalf := roundHalfEven_parts_near (rounded x p) (10 ^ p.toNat)
      push_cast at hhalf
      have hcast : (2 : Rat) ^ 52 ≤ places x p := by exact_mod_cast not_lt.mp hmany
      refine (abs_sub_le _ ((rounded x p).magnitude * 10 ^ p.toNat) _).trans ?_
      linarith
    refine ⟨_, ?_, ?_, .inr ⟨not_lt.mp hmany, hnear⟩⟩
    · rw [number, hfixed, negative_rounded hp hx]
    · have hhigh := (abs_le.mp hnear).2
      have hcast : (places x p : Rat) < 2 ^ 204 := by exact_mod_cast hlt
      have hsmall : (roundHalfEven (Format.double.units (rounded x p).index * 10 ^ p.toNat)
          (2 ^ Format.double.unitBits) : Rat) < (10 ^ 100 : Nat) := by
        refine lt_of_lt_of_le ?_ (by norm_num : (2 : Rat) ^ 205 ≤ (10 ^ 100 : Nat))
        linarith
      exact_mod_cast hsmall

/-- The trimmed text of a number of places is read as the single nearest to it. -/
theorem ofText?_trimmed (negative : Bool) {n places : Nat} (hn : n < 10 ^ 100)
    (hplaces : places ≤ maxPlaces) :
    ∃ numeral, Numeral.ofText? (trimmed (signText negative ++ placed n places)) = some numeral ∧
      (numeral.toBinary : Single) = nearest negative (n / 10 ^ places) := by
  obtain ⟨whole, kept, htext, hne, hlen, hdigits, hvalue, -⟩ := trimmed_placed negative n places
  refine ⟨.decimal ⟨negative, ofDecimalDigits (whole ++ kept), -kept.length⟩, ?_, ?_⟩
  · rw [htext, Numeral.ofText?_pointed _ hne hdigits]
  · have hcount : ofDecimalDigits (whole ++ kept) ≤ n := by
      rw [← hvalue]
      exact Nat.le_mul_of_pos_right _ (by positivity)
    have hreach : (10 : Nat) ^ 100 ≤ 10 ^ 2 ^ Format.single.exponentBits :=
      Nat.pow_le_pow_right (by omega) (by decide)
    have hkept : kept.length ≤ 2 ^ Format.single.exponentBits :=
      hlen.trans (hplaces.trans (by decide))
    have hsmall := (hcount.trans_lt hn).trans_le hreach
    rw [Numeral.toBinary, Decimal.toBinary_eq_nearest _ hsmall hkept]
    exact congrArg (nearest negative) (div_of_placed hlen hvalue)

/-- **The text is read as the single nearest to the decimal** that is displayed. -/
theorem ofText?_number (hp : p.toNat ≤ 15) (hx : x.isFinite = true) :
    ∃ n, Numeral.ofText? (number x p) = some n ∧ (n.toBinary : Single) = shown x p := by
  obtain ⟨n, htext, hn, hplaces⟩ := number_eq hp hx
  obtain ⟨numeral, hread, hvalue⟩ := ofText?_trimmed (x.negative && places x p ≠ 0) hn
    (le_maxPlaces hp)
  refine ⟨numeral, by rw [htext, hread], hvalue.trans ?_⟩
  rcases hplaces with rfl | ⟨hmany, hnear⟩
  · rfl
  · have hten : (0 : Rat) < 10 ^ p.toNat := by positivity
    have hblurred : Blurred (3 + 0) ((n : Rat) / 10 ^ p.toNat) (places x p / 10 ^ p.toNat) :=
      Blurred.div (.of_abs_sub_le (by positivity) hnear (by norm_num [blur]) (by norm_num [blur]))
        (.refl _) (by positivity) (by positivity) hten hten
    exact nearest_places hp hx (by omega) (by positivity) (.inl le_rfl) hblurred _

end ColorChain.Display
