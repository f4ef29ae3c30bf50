import ColorChain.Proofs.Decimal.Numeral

/-! What a displayed number says.

A number is scaled by a power of ten and rounded to a whole number `k` of its last place
(`Display.places`). Up to twenty-two places the power is exact, so the number as it is displayed
is the double nearest to `k` over the power (`Display.rounded_eq`); and while `k` has fewer bits
than a double holds, its text spells just that (`Display.fixed_place`). -/
namespace ColorChain.Display

open Binary

/-- The most places whose power of ten is a double. -/
def maxPlaces : Nat := 22

variable {p : UInt32} {x : Single}

/-! ### The power of ten -/

theorem isFinite_ten {n : Nat} (hn : n ≤ maxPlaces) :
    (nearest false (10 ^ n) : Double).isFinite = true :=
  isFinite_double (by positivity) ((ten_pow_lt hn).trans (by norm_num)) false

/-- Powers of ten that a double has are multiplied exactly. -/
theorem mul_ten {a b : Nat} (h : a + b ≤ maxPlaces) :
    (nearest false (10 ^ a) : Double) * nearest false (10 ^ b) = nearest false (10 ^ (a + b)) := by
  have ha : a ≤ maxPlaces := by omega
  have hb : b ≤ maxPlaces := by omega
  rw [mul_eq_nearest (isFinite_ten ha) (isFinite_ten hb), magnitude_ten ha, magnitude_ten hb,
    pow_add]
  rfl

/-- What the loop has multiplied up and what it still has to are one power of ten. -/
theorem go_ten {a b n fuel : Nat} (hn : n ≤ fuel) (h : a + b * n ≤ maxPlaces) :
    power.go (nearest false (10 ^ a) : Double) (nearest false (10 ^ b)) n fuel =
      nearest false (10 ^ (a + b * n)) := by
  induction fuel generalizing a b n with
  | zero =>
    obtain rfl : n = 0 := by omega
    rfl
  | succ fuel ih =>
    have hsplit : a + b * n = a + b * (n % 2) + (b + b) * (n / 2) := by
      conv_lhs => rw [← Nat.mod_add_div n 2]
      ring
    have hle : a + b * (n % 2) ≤ maxPlaces := by
      rw [hsplit] at h
      exact le_of_add_le_left h
    have hacc : (if n % 2 = 1 then (nearest false (10 ^ a) : Double) * nearest false (10 ^ b)
        else nearest false (10 ^ a)) = nearest false (10 ^ (a + b * (n % 2))) := by
      split
      · next hodd =>
        rw [hodd, mul_one] at hle ⊢
        exact mul_ten hle
      · next heven =>
        have hzero : n % 2 = 0 := by omega
        rw [hzero, mul_zero, add_zero]
    unfold power.go
    simp only [hacc]
    split
    · next hlast => rw [hsplit, hlast, mul_zero, add_zero]
    · next hmore =>
      -- The base is squared only where a digit is left, so it is among these powers too.
      have hbase : b + b ≤ (b + b) * (n / 2) := Nat.le_mul_of_pos_right _ (by omega)
      rw [mul_ten (by omega), ih (by omega) (by omega), ← hsplit]

/-- Repeated squaring meets the powers of ten that a double has. -/
theorem power_ten {n : Nat} (hn : n ≤ maxPlaces) :
    (10 : Double).power n = nearest false (10 ^ n) := by
  have hone : (1 : Double) = nearest false (10 ^ 0) := by
    rw [pow_zero, ← div_one (1 : Rat)]
    exact_mod_cast ofRatio_eq_nearest 1 Nat.one_pos
  have hten : (10 : Double) = nearest false (10 ^ 1) := by
    rw [pow_one, ← div_one (10 : Rat)]
    exact_mod_cast ofRatio_eq_nearest 10 Nat.one_pos
  unfold power
  rw [hone, hten, go_ten le_rfl (by omega), zero_add, one_mul]

theorem scale_eq (hp : p.toNat ≤ maxPlaces) : scale p = nearest false (10 ^ p.toNat) := by
  have hsmall : p.toNat < 2 ^ 31 := lt_of_le_of_lt hp (by decide)
  rw [scale, if_pos hsmall, power_ten hp]

theorem magnitude_scale (hp : p.toNat ≤ maxPlaces) : (scale p).magnitude = 10 ^ p.toNat := by
  rw [scale_eq hp]
  exact magnitude_ten hp false

theorem isFinite_scale (hp : p.toNat ≤ maxPlaces) : (scale p).isFinite = true := by
  rw [scale_eq hp]
  exact isFinite_ten hp

/-! ### Rounding to the last place -/

/-- The number in places of the last digit, before it is rounded to a whole number. -/
def scaled (x : Single) (p : UInt32) : Double := (x.convert : Double) * scale p

/-- How many of the last place the number is, without its sign. -/
def places (x : Single) (p : UInt32) : Nat := (scaled x p).whole

/-- The single nearest to what is displayed. A zero is displayed without a sign. -/
def shown (x : Single) (p : UInt32) : Single :=
  nearest (x.negative && places x p ≠ 0) (places x p / 10 ^ p.toNat)

theorem magnitude_lt (hx : x.isFinite = true) : x.magnitude < 2 ^ 128 :=
  magnitude_lt_of_index (k := 254) (of_decide_eq_true hx) rfl

/-- Every single is a double. -/
theorem magnitude_convert (hx : x.isFinite = true) :
    (x.convert : Double).magnitude = x.magnitude ∧ (x.convert : Double).isFinite = true := by
  have hfinite : ∀ s, (nearest s x.magnitude : Double).isFinite = true :=
    isFinite_double x.magnitude_nonneg ((magnitude_lt hx).trans (by norm_num))
  obtain ⟨m, t, hunits, hm⟩ := Format.single.units_eq_shift x.index
  have hshift : x.magnitude * 2 ^ Format.double.unitBits = m * 2 ^ (t + 925) := by
    have hbits : Format.double.unitBits = Format.single.unitBits + 925 := rfl
    rw [hbits, pow_add, ← mul_assoc, magnitude, Format.value_mul_unit, hunits, pow_add]
    push_cast
    rw [mul_assoc]
  rw [convert_eq_nearest hx]
  refine ⟨magnitude_nearest_shift x.magnitude_nonneg ?_ hshift (hfinite _), hfinite _⟩
  exact hm.trans (by decide)

theorem scaled_eq (hp : p.toNat ≤ maxPlaces) (hx : x.isFinite = true) :
    scaled x p = nearest x.negative (x.magnitude * 10 ^ p.toNat) := by
  obtain ⟨hvalue, hfinite⟩ := magnitude_convert hx
  have hsign : (x.convert : Double).negative = x.negative := by
    rw [convert_eq_nearest hx]
    rfl
  have hscale : (scale p).negative = false := by
    rw [scale_eq hp]
    rfl
  unfold scaled
  rw [mul_eq_nearest hfinite (isFinite_scale hp), hvalue, magnitude_scale hp, hsign, hscale,
    Bool.bne_false]

theorem magnitude_mul_lt (hp : p.toNat ≤ maxPlaces) (hx : x.isFinite = true) :
    x.magnitude * 10 ^ p.toNat < 2 ^ 202 := by
  calc x.magnitude * 10 ^ p.toNat < 2 ^ 128 * 2 ^ 74 :=
        mul_lt_mul'' (magnitude_lt hx) (ten_pow_lt hp) x.magnitude_nonneg (by positivity)
    _ = 2 ^ 202 := by norm_num

theorem isFinite_scaled (hp : p.toNat ≤ maxPlaces) (hx : x.isFinite = true) :
    (scaled x p).isFinite = true := by
  rw [scaled_eq hp hx]
  refine isFinite_double (mul_nonneg x.magnitude_nonneg (by positivity)) ?_ _
  exact (magnitude_mul_lt hp hx).trans (by norm_num)

/-- The product is not far from the exact one. -/
theorem scaled_near (hp : p.toNat ≤ maxPlaces) (hx : x.isFinite = true) :
    |(scaled x p).magnitude - x.magnitude * 10 ^ p.toNat| ≤
      x.magnitude * 10 ^ p.toNat / 2 ^ 53 := by
  have hq : 0 ≤ x.magnitude * 10 ^ p.toNat := mul_nonneg x.magnitude_nonneg (by positivity)
  have hfinite := isFinite_scaled hp hx
  rw [scaled_eq hp hx] at hfinite ⊢
  by_cases hzero : x.index = 0
  · have hmagnitude : x.magnitude = 0 := by
      rw [magnitude, Format.value, hzero, units_zero, Nat.cast_zero, zero_div]
    rw [hmagnitude, zero_mul, nearest_zero, magnitude_zero]
    norm_num
  · refine magnitude_nearest_error hq ?_ hfinite
    -- A single that is not zero is many units of a double.
    have hunits : (1 : Rat) ≤ x.magnitude * 2 ^ Format.single.unitBits := by
      rw [magnitude, Format.value_mul_unit]
      exact_mod_cast Format.single.units_pos (Nat.pos_of_ne_zero hzero)
    have hten : (1 : Rat) ≤ 10 ^ p.toNat := one_le_pow₀ (by norm_num)
    have hbits : Format.double.unitBits =
        Format.single.unitBits + (Format.double.fractionBits + 873) := rfl
    have hrest : (1 : Rat) ≤ 2 ^ 873 := one_le_pow₀ (by norm_num)
    rw [hbits, pow_add, pow_add]
    generalize (2 : Rat) ^ 873 = rest at *
    calc (2 : Rat) ^ Format.double.fractionBits
        ≤ 2 ^ Format.double.fractionBits * rest :=
          le_mul_of_one_le_right (by positivity) hrest
      _ ≤ x.magnitude * 2 ^ Format.single.unitBits *
            (2 ^ Format.double.fractionBits * rest) :=
          le_mul_of_one_le_left (by positivity) hunits
      _ ≤ x.magnitude * 2 ^ Format.single.unitBits *
            (2 ^ Format.double.fractionBits * rest) * 10 ^ p.toNat :=
          le_mul_of_one_le_right (by positivity) hten
      _ = _ := by ring

/-- The whole number of the last place is not far from the exact product, either. -/
theorem places_near (hp : p.toNat ≤ maxPlaces) (hx : x.isFinite = true) :
    |(places x p : Rat) - x.magnitude * 10 ^ p.toNat| ≤
      1 / 2 + x.magnitude * 10 ^ p.toNat / 2 ^ 53 :=
  (abs_sub_le _ (scaled x p).magnitude _).trans
    (add_le_add (whole_near (scaled x p)) (scaled_near hp hx))

theorem scaled_lt (hp : p.toNat ≤ maxPlaces) (hx : x.isFinite = true) :
    (scaled x p).magnitude < 2 ^ 203 := by
  have hnear := (abs_le.mp (scaled_near hp hx)).2
  have hlt := magnitude_mul_lt hp hx
  linarith

theorem places_lt (hp : p.toNat ≤ maxPlaces) (hx : x.isFinite = true) :
    places x p < 2 ^ 204 := by
  have hnear := (abs_le.mp (whole_near (scaled x p))).2
  have hlt := scaled_lt hp hx
  have hcast : (places x p : Rat) < 2 ^ 204 := by
    unfold places
    linarith
  exact_mod_cast hcast

/-! ### The displayed text -/

theorem isFinite_place {k : Nat} (hk : k < 2 ^ 204) (negative : Bool) :
    (nearest negative (k / 10 ^ p.toNat) : Double).isFinite = true := by
  have hlt : (k : Rat) < 2 ^ 204 := by exact_mod_cast hk
  refine isFinite_double (by positivity) ?_ negative
  calc (k : Rat) / 10 ^ p.toNat ≤ k := div_le_self (by positivity) (one_le_pow₀ (by norm_num))
    _ < 2 ^ 256 := hlt.trans (by norm_num)

theorem magnitude_place_error {k : Nat} (hp : p.toNat ≤ maxPlaces) (hk : k < 2 ^ 204)
    (negative : Bool) :
    |(nearest negative (k / 10 ^ p.toNat) : Double).magnitude - k / 10 ^ p.toNat| ≤
      k / 10 ^ p.toNat / 2 ^ 53 := by
  by_cases hzero : k = 0
  · rw [hzero, Nat.cast_zero, zero_div, nearest_zero, magnitude_zero]
    simp
  · exact magnitude_nearest_error (by positivity) (le_unit (by decide) hp (by omega))
      (isFinite_place hk negative)

theorem isZero_place {k : Nat} (hp : p.toNat ≤ maxPlaces) (hk : 0 < k) (hlt : k < 2 ^ 204)
    (negative : Bool) : (nearest negative (k / 10 ^ p.toNat) : Double).isZero = false := by
  have hpos : (0 : Rat) < k / 10 ^ p.toNat := by positivity
  have herror := magnitude_place_error hp hlt negative
  have hsmall : (k : Rat) / 10 ^ p.toNat / 2 ^ 53 < k / 10 ^ p.toNat :=
    div_lt_self hpos (by norm_num)
  have hlow := (abs_le.mp herror).1
  exact not_isZero_of_magnitude (by linarith)

/-- The number as it is displayed: the double nearest to a whole number of the last place. -/
theorem rounded_eq (hp : p.toNat ≤ maxPlaces) (hx : x.isFinite = true) :
    rounded x p = nearest (x.negative && places x p ≠ 0) (places x p / 10 ^ p.toNat) := by
  have hround : (scaled x p).round = nearest x.negative (places x p : Nat) := by
    have hsign : (scaled x p).negative = x.negative := by
      rw [scaled_eq hp hx]
      rfl
    rw [round_eq_nearest (isFinite_scaled hp hx), hsign]
    rfl
  have hwhole : (nearest x.negative (places x p) : Double).magnitude = places x p :=
    magnitude_nearest_whole ((scaled_lt hp hx).trans (by norm_num)) _
  have hfinite : (nearest x.negative (places x p) : Double).isFinite = true := by
    have hlt : (places x p : Rat) < 2 ^ 204 := by exact_mod_cast places_lt hp hx
    exact isFinite_double (by positivity) (hlt.trans (by norm_num)) _
  have hsign : (scale p).negative = false := by
    rw [scale_eq hp]
    rfl
  have hzero : (scale p).isZero = false := by
    apply not_isZero_of_magnitude
    rw [magnitude_scale hp]
    positivity
  have hresult : (scaled x p).round / scale p = nearest x.negative (places x p / 10 ^ p.toNat) := by
    rw [hround, div_eq_nearest hfinite (isFinite_scale hp) hzero, hwhole, magnitude_scale hp,
      hsign, Bool.bne_false]
    rfl
  show (if ((scaled x p).round / scale p).isZero then zero false
    else (scaled x p).round / scale p) = _
  rw [hresult]
  by_cases hzero : places x p = 0
  · rw [hzero, Nat.cast_zero, zero_div, nearest_zero, nearest_zero]
    simp [isZero, zero]
  · rw [isZero_place hp (by omega) (places_lt hp hx)]
    simp [hzero]

/-- A distance that is counted in parts. -/
theorem abs_mul_sub {v k t : Rat} (ht : 0 < t) : |v * t - k| = |v - k / t| * t := by
  rw [← abs_of_pos ht, ← abs_mul, abs_of_pos ht, sub_mul, div_mul_cancel₀ _ ht.ne']

/-- A relative error stays the same when both sides are scaled. -/
theorem error_mul {v k t e : Rat} (ht : 0 < t) (h : |v - k / t| ≤ k / t / e) :
    |v * t - k| ≤ k / e := by
  calc |v * t - k| = |v - k / t| * t := abs_mul_sub ht
    _ ≤ k / t / e * t := mul_le_mul_of_nonneg_right h ht.le
    _ = k / e := by rw [div_right_comm, div_mul_cancel₀ _ ht.ne']

theorem fixed_place {k : Nat} (hp : p.toNat ≤ maxPlaces) (hk : k < 2 ^ 52) (negative : Bool) :
    (nearest negative (k / 10 ^ p.toNat) : Double).fixed p.toNat =
      signText negative ++ placed k p.toNat := by
  have hfinite := isFinite_place (p := p) (hk.trans (by norm_num)) negative
  have hten : (0 : Rat) < 10 ^ p.toNat := by positivity
  have hcount : |(nearest negative (k / 10 ^ p.toNat) : Double).magnitude *
      (10 ^ p.toNat : Nat) - k| < 1 / 2 := by
    have hlt : (k : Rat) < 2 ^ 52 := by exact_mod_cast hk
    have herror := magnitude_place_error hp (hk.trans (by norm_num)) negative
    have hnear := error_mul hten herror
    push_cast
    apply hnear.trans_lt
    linarith
  unfold fixed specialText?
  rw [isNaN_of_isFinite hfinite, isInfinite_of_isFinite hfinite, roundHalfEven_parts hcount]
  rfl

/-! ### Numbers that are displayed exactly -/

/-- A number nearest to a whole number of the last place, if that is not too large for a
single to tell from its neighbours, is displayed as this number. -/
theorem places_nearest {n : Nat} {negative : Bool} (hp : p.toNat ≤ maxPlaces) (hn : n < 2 ^ 22)
    (hx : (nearest negative (n / 10 ^ p.toNat) : Single).isFinite = true) :
    places (nearest negative (n / 10 ^ p.toNat)) p = n := by
  apply whole_eq
  have hten : (0 : Rat) < 10 ^ p.toNat := by positivity
  by_cases hzero : n = 0
  · subst hzero
    rw [scaled_eq hp hx, Nat.cast_zero, zero_div, nearest_zero, magnitude_zero, zero_mul,
      nearest_zero, magnitude_zero]
    norm_num
  · have hlt : (n : Rat) < 2 ^ 22 := by exact_mod_cast hn
    have hone : (1 : Rat) ≤ n := by exact_mod_cast Nat.pos_of_ne_zero hzero
    -- The single is near to the decimal, and so is its product with the power.
    have hsingle := magnitude_nearest_error (by positivity) (le_unit (by decide) hp (by omega)) hx
    generalize hx' : (nearest negative (n / 10 ^ p.toNat) : Single) = x at *
    have hnear : |x.magnitude * 10 ^ p.toNat - n| ≤ n / 2 ^ 24 := error_mul hten hsingle
    -- The product is rounded once more, to a double.
    obtain ⟨hlow, hhigh⟩ := abs_le.mp hnear
    obtain ⟨hlow', hhigh'⟩ := abs_le.mp (scaled_near hp hx)
    rw [abs_lt]
    refine ⟨?_, ?_⟩
    · linarith
    · linarith

/-- What is displayed of such a number is the number, but for the sign of a zero. -/
theorem shown_nearest {n : Nat} {negative : Bool} (hp : p.toNat ≤ maxPlaces) (hn : n < 2 ^ 22)
    (hx : (nearest negative (n / 10 ^ p.toNat) : Single).isFinite = true) :
    (shown (nearest negative (n / 10 ^ p.toNat)) p).Alike
      (nearest negative (n / 10 ^ p.toNat)) := by
  have hsign : (nearest negative (n / 10 ^ p.toNat) : Single).negative = negative := rfl
  unfold shown
  rw [places_nearest hp hn hx, hsign]
  by_cases hzero : n = 0
  · rw [hzero, Nat.cast_zero, zero_div, nearest_zero, nearest_zero]
    exact .inr ⟨rfl, rfl⟩
  · rw [decide_eq_true hzero, Bool.and_true]
    exact .refl _

/-! ### Any displayed text -/

/-- The sign of a zero is not displayed. -/
theorem rounded_alike {x y : Single} (h : x.Alike y) (p : UInt32) : rounded x p = rounded y p := by
  have hscaled : Alike ((x.convert : Double) * scale p) (y.convert * scale p) :=
    (h.convert (by decide)).mul_right (by decide) (scale p)
  have hresult := (hscaled.round (by decide)).div_right (by decide) (scale p)
  unfold rounded
  simp only
  rw [hresult.isZero]
  split
  · rfl
  · next hzero =>
    rcases hresult with heq | ⟨-, hy⟩
    · exact heq
    · exact absurd (by simp [isZero, hy]) hzero

theorem mem_of_mem_trimmed {s : List Char} {c : Char} (h : c ∈ trimmed s) : c ∈ s := by
  unfold trimmed at h
  split at h
  · exact Text.mem_of_mem_trimEnd (Text.mem_of_mem_trimEnd h)
  · exact h

/-- A character of a number's text: a digit, a point, a sign or a letter of a word. -/
def IsTextChar (c : Char) : Prop := c.isAlphanum = true ∨ c = '.' ∨ c = '-'

theorem isTextChar_of_isDigit {c : Char} (h : c.isDigit = true) : IsTextChar c :=
  .inl (by rw [Char.isAlphanum, h, Bool.or_true])

theorem isTextChar_special {x : Double} {word : List Char} (h : x.specialText? = some word) :
    ∀ c ∈ word, IsTextChar c := by
  have hwords : ∀ word ∈ ["NaN".toList, "-inf".toList, "inf".toList], ∀ c ∈ word,
      c.isAlphanum = true ∨ c = '.' ∨ c = '-' := by simp
  apply hwords word
  unfold specialText? at h
  split at h
  · cases h
    simp
  · split at h
    · cases h
      split <;> simp
    · cases h

theorem isTextChar_placed {n places : Nat} : ∀ c ∈ placed n places, IsTextChar c := by
  intro c hc
  obtain ⟨whole, part, htext, -, -, hdigits, -, -⟩ := placed_eq n places
  obtain ⟨hwhole, hpart⟩ := List.forall_mem_append.mp hdigits
  rw [htext, pointed] at hc
  rcases List.mem_append.mp hc with hc | hc
  · exact isTextChar_of_isDigit (hwhole c hc)
  · split at hc
    · cases hc
    · rcases List.mem_cons.mp hc with hc | hc
      · exact .inr (.inl hc)
      · exact isTextChar_of_isDigit (hpart c hc)

theorem isTextChar_number (x : Single) (p : UInt32) : ∀ c ∈ number x p, IsTextChar c := by
  intro c hc
  have hfixed := mem_of_mem_trimmed hc
  unfold fixed at hfixed
  cases hspecial : (rounded x p).specialText? with
  | some word =>
    rw [hspecial, Option.getD_some] at hfixed
    exact isTextChar_special hspecial c hfixed
  | none =>
    rw [hspecial, Option.getD_none] at hfixed
    rcases List.mem_append.mp hfixed with hsign | hplaced
    · unfold signText at hsign
      split at hsign
      · exact .inr (.inr (List.mem_singleton.mp hsign))
      · cases hsign
    · exact isTextChar_placed c hplaced

end ColorChain.Display
