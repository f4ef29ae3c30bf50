import ColorChain.Proofs.Decimal.Shortest
import ColorChain.Proofs.Json.Numeral

/-! Doubles in JSON text.

A double is written as its shortest decimal, in one of three forms, and read by scaling the digits
by a power of ten. Each step is one rounding, so what is read is a few roundings away from what was
written (`JsonNumber.read?_real`), and fewer where neither the digits nor the power are rounded. -/
namespace ColorChain

open Binary

namespace Json.Numeral

/-! ### Scaling -/

theorem tenTo_eq (n : Nat) : tenTo n = nearest false (10 ^ n) := by
  unfold tenTo
  rw [ofRatio_eq_nearest _ Nat.one_pos]
  push_cast
  rw [div_one]

theorem ten_pow_le {n : Nat} (hn : n ≤ 76) : (10 : Rat) ^ n < 2 ^ 253 :=
  (pow_le_pow_right₀ (by norm_num) hn).trans_lt (by norm_num)

theorem isFinite_tenTo {n : Nat} (hn : n ≤ 76) : (tenTo n).isFinite = true := by
  rw [tenTo_eq]
  exact isFinite_double (by positivity) ((ten_pow_le hn).trans (by norm_num)) false

theorem blurred_tenTo {n : Nat} (hn : n ≤ 76) : Blurred 1 (tenTo n).magnitude (10 ^ n) := by
  have hone : (1 : Rat) ≤ 10 ^ n := one_le_pow₀ (by norm_num)
  rw [tenTo_eq]
  exact blurred_nearest ((by norm_num : (1 : Rat) / 2 ^ 256 ≤ 1).trans hone)
    ((ten_pow_le hn).trans (by norm_num)) false

/-- What the digits and the power of ten are away from their values. -/
structure Scalable (c : Nat) (e : Int) (i j : Nat) : Prop where
  small : c < 2 ^ 64
  exponent : e.natAbs ≤ 76
  digits : Blurred i (Binary.ofInt c : Double).magnitude c
  power : Blurred j (tenTo e.natAbs).magnitude (10 ^ e.natAbs)
  roundings : i + j ≤ 2
  low : 1 / 2 ^ 100 ≤ (c * 10 ^ e : Rat)
  high : (c * 10 ^ e : Rat) < 2 ^ 210

variable {c i j : Nat} {e : Int}

theorem ofInt_natCast (c : Nat) : (Binary.ofInt c : Double) = nearest false c := by
  have hnonneg : ¬ (c : Int) < 0 := by omega
  simpa [hnonneg] using ofInt_eq_nearest (f := .double) (c : Int)

theorem isFinite_digits (hc : c < 2 ^ 64) : (Binary.ofInt c : Double).isFinite = true := by
  have hlt : (c : Rat) < 2 ^ 64 := by exact_mod_cast hc
  rw [ofInt_natCast]
  exact isFinite_double (by positivity) (hlt.trans (by norm_num)) false

/-- A product or quotient that is near to a number of moderate size is rounded once more. -/
theorem nearest_of_blurred {q v : Rat} (hq : 1 / 2 ^ 100 ≤ q) (hq' : q < 2 ^ 210) (hij : i + j ≤ 2)
    (hv : 0 ≤ v) (h : Blurred (i + j) v q) :
    (nearest false v : Double).isFinite = true ∧
      Blurred (i + j + 1) (nearest false v : Double).magnitude q := by
  have hq0 : 0 ≤ q := le_trans (by norm_num) hq
  have hwide := h.mono hv hq0 hij
  have htwo : blur ^ 2 ≤ 2 := by norm_num [blur]
  have hlow : 1 / 2 ^ 256 ≤ v := by
    have hle := hwide.ge.trans (mul_le_mul_of_nonneg_left htwo hv)
    have hnum : (1 : Rat) / 2 ^ 256 * 2 ≤ 1 / 2 ^ 100 := by norm_num
    linarith
  have hhigh : v < 2 ^ 256 := by
    have hle := hwide.le.trans (mul_le_mul_of_nonneg_left htwo hq0)
    linarith
  refine ⟨isFinite_double hv hhigh false, ?_⟩
  rw [add_comm (i + j) 1]
  exact (blurred_nearest hlow hhigh false).trans h

/-- **Scaling rounds once more** than the digits and the power of ten are rounded. -/
theorem scale?_near (h : Scalable c e i j) :
    ∃ y, scale? c e = some y ∧ y.isFinite = true ∧ y.negative = false ∧
      Blurred (i + j + 1) y.magnitude (c * 10 ^ e) := by
  have hdigits := isFinite_digits h.small
  have htenTo := isFinite_tenTo h.exponent
  have hsign : (Binary.ofInt c : Double).negative = false := by
    rw [ofInt_natCast]
    rfl
  have hsign' : (tenTo e.natAbs).negative = false := by
    rw [tenTo_eq]
    rfl
  have hten : (0 : Rat) < 10 ^ e.natAbs := by positivity
  have hpower : 0 < (tenTo e.natAbs).magnitude := by
    have hle := h.power.ge
    have hblur := pow_pos blur_pos j
    by_contra hzero
    have hmul := mul_nonpos_of_nonpos_of_nonneg (not_lt.mp hzero) hblur.le
    linarith
  have hbound := h.exponent
  unfold scale?
  simp only
  by_cases hneg : e < 0
  · have hnat : (-e).toNat = e.natAbs := by omega
    have hlower : lower (Binary.ofInt c) e.natAbs 4 = Binary.ofInt c / tenTo e.natAbs := by
      rw [lower, if_pos (by omega)]
    have hvalue : (c : Rat) * 10 ^ e = c / 10 ^ e.natAbs := by
      have hexp : e = -(e.natAbs : Int) := by omega
      rw [div_eq_mul_inv, ← zpow_natCast, ← zpow_neg, ← hexp]
    have hblurred : Blurred (i + j)
        ((Binary.ofInt c : Double).magnitude / (tenTo e.natAbs).magnitude) (c * 10 ^ e) := by
      rw [hvalue]
      exact h.digits.div h.power (magnitude_nonneg _) (by positivity) hpower hten
    rw [if_pos hneg, hnat, hlower, div_eq_nearest hdigits htenTo (not_isZero_of_magnitude hpower),
      hsign, hsign']
    obtain ⟨hfinite, hnear⟩ := nearest_of_blurred h.low h.high h.roundings
      (div_nonneg (magnitude_nonneg _) hpower.le) hblurred
    exact ⟨_, rfl, hfinite, rfl, hnear⟩
  · have hnat : e.toNat = e.natAbs := by omega
    have hvalue : (c : Rat) * 10 ^ e = c * 10 ^ e.natAbs := by
      have hexp : e = (e.natAbs : Int) := by omega
      nth_rewrite 1 [hexp]
      rw [zpow_natCast]
    have hblurred : Blurred (i + j)
        ((Binary.ofInt c : Double).magnitude * (tenTo e.natAbs).magnitude) (c * 10 ^ e) := by
      rw [hvalue]
      exact h.digits.mul h.power (magnitude_nonneg _) (by positivity) hpower.le hten.le
    obtain ⟨hfinite, hnear⟩ := nearest_of_blurred h.low h.high h.roundings
      (mul_nonneg (magnitude_nonneg _) hpower.le) hblurred
    rw [if_neg hneg, if_pos (by omega), hnat, mul_eq_nearest hdigits htenTo, hsign, hsign']
    simp only [Bool.bne_false, isInfinite_of_isFinite hfinite, Bool.false_eq_true, if_false]
    exact ⟨_, rfl, hfinite, rfl, hnear⟩

/-! ### Digits -/

theorem le_ofDigitChars (ds : List Char) (n : Nat) : n ≤ Nat.ofDigitChars 10 ds n := by
  induction ds generalizing n with
  | nil => exact le_rfl
  | cons d ds ih =>
    have hstep : n ≤ 10 * n + (d.toNat - '0'.toNat) := by omega
    exact hstep.trans (ih _)

/-- Digits that spell a number of 64 bits are all taken. -/
theorem absorb_eq {n : Nat} {ds : List Char} (h : Nat.ofDigitChars 10 ds n < 2 ^ 64) :
    absorb n ds = (Nat.ofDigitChars 10 ds n, ds.length) := by
  induction ds generalizing n with
  | nil => rfl
  | cons d ds ih =>
    have hstep : Nat.ofDigitChars 10 (d :: ds) n =
        Nat.ofDigitChars 10 ds (n * 10 + digitValue d) := by
      rw [Nat.mul_comm]
      rfl
    rw [hstep] at h ⊢
    have hle := le_ofDigitChars ds (n * 10 + digitValue d)
    rw [absorb]
    simp only
    rw [if_pos (by omega), ih h]
    rfl

/-- The signed power of ten of a numeral. -/
def signedPower (n : Numeral) : Int :=
  if n.power.1 then -(ofDecimalDigits n.power.2 : Int) else ofDecimalDigits n.power.2

/-- The double of a numeral whose digits fit 64 bits: they are scaled by its power of ten, less its
places. -/
theorem double?_eq {n : Numeral} (hdigits : ofDecimalDigits (n.whole ++ n.fraction) < 2 ^ 64)
    (hpower : ofDecimalDigits n.power.2 < 2 ^ 31) :
    n.double? = (scale? (ofDecimalDigits (n.whole ++ n.fraction))
      (n.signedPower - n.fraction.length)).map fun y => if n.negative then -y else y := by
  have happend : ofDecimalDigits (n.whole ++ n.fraction) =
      Nat.ofDigitChars 10 n.fraction (ofDecimalDigits n.whole) := Nat.ofDigitChars_append 0
  rw [happend] at hdigits ⊢
  have hwhole : absorb 0 n.whole = (ofDecimalDigits n.whole, n.whole.length) :=
    absorb_eq ((le_ofDigitChars _ _).trans_lt hdigits)
  have hexponent : (if n.power.1 = true
      then ((n.whole.length - n.whole.length : Nat) : Int) - n.fraction.length -
        ofDecimalDigits n.power.2
      else ((n.whole.length - n.whole.length : Nat) : Int) - n.fraction.length +
        ofDecimalDigits n.power.2) = n.signedPower - n.fraction.length := by
    unfold signedPower
    split
    · omega
    · omega
  have hpower' : ((ofDecimalDigits n.power.2 : Nat) : Int) < 2 ^ 31 := by omega
  unfold double?
  simp only [hwhole, absorb_eq hdigits, hpower', if_true, hexponent]
  cases scale? (Nat.ofDigitChars 10 n.fraction (ofDecimalDigits n.whole))
    (n.signedPower - n.fraction.length) <;> rfl

/-! ### Text -/

/-- The numeral is digits with a point in them, or none, and `tail` is its power of ten. -/
structure Spelling (n : Numeral) (tail : List Char) : Prop where
  whole : n.whole ≠ []
  /-- A zero in front of the point stands alone. -/
  zero : ∀ rest, n.whole = '0' :: rest → rest = []
  row : ∀ d ∈ n.whole ++ n.fraction, d.isDigit = true
  mark : ∀ d ∈ tail.head?, d = 'e'
  power : power? tail = some (n.power, [])
  plain : n.plain = (n.fraction.isEmpty && n.power.2.isEmpty)

/-- The text of a numeral. -/
def spelled (n : Numeral) (tail : List Char) : List Char :=
  signText n.negative ++ (n.whole ++ (pointed n.fraction ++ tail))

variable {n : Numeral} {tail : List Char}

theorem Spelling.unsigned (h : Spelling n tail) :
    unsigned? n.negative (n.whole ++ (pointed n.fraction ++ tail)) = some (n, []) := by
  obtain ⟨hwhole, hfraction⟩ := List.forall_mem_append.mp h.row
  have hmark : ∀ d ∈ tail.head?, d.isDigit = false ∧ d ≠ '.' := by
    intro d hd
    rw [h.mark d hd]
    decide
  have hbehind : ∀ d ∈ (pointed n.fraction ++ tail).head?, d.isDigit = false := by
    unfold pointed
    split
    · exact fun d hd => (hmark d hd).1
    · simp
  have hdigits : digits (n.whole ++ (pointed n.fraction ++ tail)) =
      (n.whole, pointed n.fraction ++ tail) := ColorChain.Numeral.digits_append hwhole hbehind
  have hread : whole? (n.whole ++ (pointed n.fraction ++ tail)) =
      some (n.whole, pointed n.fraction ++ tail) := by
    unfold whole?
    rw [hdigits]
    split
    · next heq => exact absurd (Prod.mk.inj heq).1 h.whole
    · next heq => exact absurd (h.zero _ (Prod.mk.inj heq).1) (by simp)
    · next heq =>
      cases heq
      rfl
  have hpart : fraction? (pointed n.fraction ++ tail) = some (n.fraction, tail) := by
    by_cases hnone : n.fraction = []
    · rw [hnone]
      exact fraction?_of_ne fun d hd => (hmark d hd).2
    · have hpoint : pointed n.fraction = '.' :: n.fraction := by simp [pointed, hnone]
      have hrow : digits (n.fraction ++ tail) = (n.fraction, tail) :=
        ColorChain.Numeral.digits_append hfraction fun d hd => (hmark d hd).1
      rw [hpoint, List.cons_append]
      simp only [fraction?]
      rw [hrow]
      split
      · next heq => exact absurd (Prod.mk.inj heq).1 hnone
      · next heq =>
        cases heq
        rfl
  unfold unsigned?
  simp only [hread, hpart, h.power, Option.bind_eq_bind, Option.bind_some, ← h.plain]
  rfl

/-- The text of a numeral is scanned as the numeral. -/
theorem Spelling.scan (h : Spelling n tail) : scan? (spelled n tail) = some (n, []) := by
  obtain ⟨d, ds, hds⟩ := List.exists_cons_of_ne_nil h.whole
  have hunsigned := h.unsigned
  unfold spelled
  cases hsign : n.negative with
  | true =>
    rw [hsign] at hunsigned
    exact hunsigned
  | false =>
    rw [hsign] at hunsigned
    rw [← hunsigned]
    apply scan?_of_ne
    rw [hds]
    rintro c hc rfl
    cases hc
    have hdigit := h.row '-' (by rw [hds]; simp)
    cases hdigit

/-! ### The three forms of a double -/

/-- A numeral that has the value of a decimal: its digits, scaled, are the decimal, and its power is
the decimal's or that of one place. -/
structure Stands (n : Numeral) (d : Decimal) : Prop where
  negative : n.negative = d.negative
  plain : n.plain = false
  small : ofDecimalDigits (n.whole ++ n.fraction) < 2 ^ 64
  power : ofDecimalDigits n.power.2 < 2 ^ 31
  value : (ofDecimalDigits (n.whole ++ n.fraction) : Rat) *
    10 ^ (n.signedPower - n.fraction.length) = d.magnitude
  exponent : n.signedPower - n.fraction.length = d.exponent ∨
    n.signedPower - n.fraction.length = -1

namespace Stands

variable {n : Numeral} {d : Decimal} {i j : Nat} (h : Stands n d)
include h

theorem natAbs_le {bound : Nat} (hbound : d.exponent.natAbs ≤ bound ∧ 1 ≤ bound) :
    (n.signedPower - n.fraction.length).natAbs ≤ bound := by
  rcases h.exponent with heq | heq
  · rw [heq]
    exact hbound.1
  · rw [heq]
    exact hbound.2

theorem pos (hpos : 0 < d.magnitude) : 0 < ofDecimalDigits (n.whole ++ n.fraction) := by
  by_contra hzero
  have hvalue := h.value
  rw [Nat.eq_zero_of_not_pos hzero, Nat.cast_zero, zero_mul] at hvalue
  linarith

theorem scalable (hlow : 1 / 2 ^ 100 ≤ d.magnitude) (hhigh : d.magnitude < 2 ^ 210)
    (hexponent : d.exponent.natAbs ≤ 76)
    (hdigits : Blurred i (Binary.ofInt (ofDecimalDigits (n.whole ++ n.fraction)) : Double).magnitude
      (ofDecimalDigits (n.whole ++ n.fraction)))
    (hpower : Blurred j (tenTo (n.signedPower - n.fraction.length).natAbs).magnitude
      (10 ^ (n.signedPower - n.fraction.length).natAbs)) (hij : i + j ≤ 2) :
    Scalable (ofDecimalDigits (n.whole ++ n.fraction)) (n.signedPower - n.fraction.length) i j where
  small := h.small
  exponent := h.natAbs_le ⟨hexponent, by omega⟩
  digits := hdigits
  power := hpower
  roundings := hij
  low := h.value ▸ hlow
  high := h.value ▸ hhigh

/-- In general the digits are rounded once. -/
theorem blurred_digits (hpos : 0 < d.magnitude) :
    Blurred 1 (Binary.ofInt (ofDecimalDigits (n.whole ++ n.fraction)) : Double).magnitude
      (ofDecimalDigits (n.whole ++ n.fraction)) := by
  have hone : (1 : Rat) ≤ ofDecimalDigits (n.whole ++ n.fraction) := by exact_mod_cast h.pos hpos
  have hlt : (ofDecimalDigits (n.whole ++ n.fraction) : Rat) < 2 ^ 64 := by exact_mod_cast h.small
  rw [ofInt_natCast]
  exact blurred_nearest ((by norm_num : (1 : Rat) / 2 ^ 256 ≤ 1).trans hone)
    (hlt.trans (by norm_num)) false

/-- Few digits and a small power of ten are not rounded at all. -/
theorem exact {grid : Int} (hpos : 0 < d.magnitude) (hgrid : -22 ≤ grid) (hgrid' : grid ≤ -1)
    (hstop : grid ≤ d.exponent) (hfew : d.magnitude < 2 ^ 53 * 10 ^ grid) :
    Blurred 0 (Binary.ofInt (ofDecimalDigits (n.whole ++ n.fraction)) : Double).magnitude
        (ofDecimalDigits (n.whole ++ n.fraction)) ∧
      Blurred 0 (tenTo (n.signedPower - n.fraction.length).natAbs).magnitude
        (10 ^ (n.signedPower - n.fraction.length).natAbs) := by
  have hc := h.pos hpos
  have hvalue := h.value
  have hexponent := h.exponent
  generalize ofDecimalDigits (n.whole ++ n.fraction) = c at *
  generalize n.signedPower - n.fraction.length = e at *
  have hten := ten_zpow_pos grid
  have hle : grid ≤ e := by omega
  have hpow : (10 : Rat) ^ grid ≤ 10 ^ e := zpow_le_zpow_right₀ (by norm_num) hle
  have hsmall : c < 2 ^ 53 := by
    have hproduct : (c : Rat) * 10 ^ grid < 2 ^ 53 * 10 ^ grid := by
      refine (mul_le_mul_of_nonneg_left hpow (by positivity)).trans_lt ?_
      rw [hvalue]
      exact hfew
    exact_mod_cast lt_of_mul_lt_mul_right hproduct hten.le
  have hupper : e < 16 := by
    have hone : (1 : Rat) ≤ c := by exact_mod_cast hc
    have hpower : (10 : Rat) ^ e < 10 ^ (16 : Int) := by
      have hmore : (10 : Rat) ^ e ≤ c * 10 ^ e := le_mul_of_one_le_left (ten_zpow_pos e).le hone
      have hless : (10 : Rat) ^ grid ≤ 10 ^ (-1 : Int) :=
        zpow_le_zpow_right₀ (by norm_num) hgrid'
      rw [hvalue] at hmore
      have hnum : (2 : Rat) ^ 53 * 10 ^ (-1 : Int) < 10 ^ (16 : Int) := by norm_num
      linarith
    exact (zpow_lt_zpow_iff_right₀ (by norm_num)).mp hpower
  refine ⟨?_, ?_⟩
  · rw [ofInt_natCast, magnitude_whole hsmall]
    exact .refl _
  · rw [tenTo_eq, magnitude_ten (by omega)]
    exact .refl _

end Stands

variable {d : Decimal}

theorem length_coefficient (hsmall : d.coefficient < 2 ^ 64) :
    (decimalDigits d.coefficient).length ≤ 20 :=
  (Nat.length_toDigits_le_iff (by omega) (by omega)).mpr (hsmall.trans (by norm_num))

/-- A power of ten behind its letter and sign. -/
theorem power?_written (power : Int) :
    power? ('e' :: (if power < 0 then '-' else '+') :: decimalDigits power.natAbs) =
      some ((decide (power < 0), decimalDigits power.natAbs), []) := by
  have hdigits : digits (decimalDigits power.natAbs ++ []) = (decimalDigits power.natAbs, []) :=
    ColorChain.Numeral.digits_append isDigit_of_mem_decimalDigits (by simp)
  have hne : decimalDigits power.natAbs ≠ [] := Nat.toDigits_ne_nil
  have hread (negative : Bool) : powerDigits? negative (decimalDigits power.natAbs) =
      some ((negative, decimalDigits power.natAbs), []) := by
    rw [List.append_nil] at hdigits
    unfold powerDigits?
    rw [hdigits]
    split
    · next heq => exact absurd (Prod.mk.inj heq).1 hne
    · next heq =>
      cases heq
      rfl
  by_cases hneg : power < 0
  · rw [if_pos hneg, (power?_mark (.inl rfl) _).1, hread, decide_eq_true hneg]
  · rw [if_neg hneg, (power?_mark (.inl rfl) _).2.1, hread, decide_eq_false hneg]

/-- One digit, a point before the others, and a power of ten. -/
theorem scientific_spelling (hsmall : d.coefficient < 2 ^ 64)
    (hexponent : d.exponent.natAbs < 2 ^ 30) :
    ∃ n tail, scientific d = spelled n tail ∧ Spelling n tail ∧ Stands n d := by
  have hlen := length_coefficient hsmall
  obtain ⟨c, rest, hds⟩ : ∃ c rest, decimalDigits d.coefficient = c :: rest :=
    List.exists_cons_of_ne_nil Nat.toDigits_ne_nil
  have hrow : ∀ x ∈ [c] ++ rest, x.isDigit = true := by
    have hall := isDigit_of_mem_decimalDigits (n := d.coefficient)
    rw [hds] at hall
    exact hall
  have hvalue : ofDecimalDigits ([c] ++ rest) = d.coefficient := by
    rw [List.singleton_append, ← hds, ofDecimalDigits_decimalDigits]
  rw [hds, List.length_cons] at hlen
  obtain ⟨power, hpower⟩ : ∃ power : Int, power = d.exponent + (c :: rest).length - 1 := ⟨_, rfl⟩
  rw [List.length_cons] at hpower
  refine ⟨⟨d.negative, [c], rest, (decide (power < 0), decimalDigits power.natAbs), false⟩,
    'e' :: (if power < 0 then '-' else '+') :: decimalDigits power.natAbs, ?_, ?_, ?_⟩
  · unfold scientific spelled pointed
    simp only [hds, List.length_cons, ← hpower]
    cases rest with
    | nil => simp
    | cons c' rest => simp
  · refine ⟨by simp, by simp, hrow, by simp, power?_written power, ?_⟩
    have hne : decimalDigits power.natAbs ≠ [] := Nat.toDigits_ne_nil
    simp [hne]
  · have hsigned : signedPower ⟨d.negative, [c], rest,
        (decide (power < 0), decimalDigits power.natAbs), false⟩ = power := by
      unfold signedPower
      simp only [ofDecimalDigits_decimalDigits, decide_eq_true_eq]
      split
      · omega
      · omega
    have hexp : power - rest.length = d.exponent := by omega
    refine ⟨rfl, rfl, hvalue ▸ hsmall, ?_, ?_, .inl ?_⟩
    · show ofDecimalDigits (decimalDigits power.natAbs) < 2 ^ 31
      rw [ofDecimalDigits_decimalDigits]
      omega
    · rw [hsigned]
      show (ofDecimalDigits ([c] ++ rest) : Rat) * 10 ^ (power - rest.length) = d.magnitude
      rw [hvalue, hexp]
      rfl
    · rw [hsigned]
      exact hexp

/-- A whole number, with one place behind the point. -/
theorem whole_spelling (hpos : 0 < d.coefficient) (hexponent : 0 ≤ d.exponent)
    (hpower : d.exponent + (decimalDigits d.coefficient).length - 1 < 16) :
    ∃ n tail, d.positional ++ ['.', '0'] = spelled n tail ∧ Spelling n tail ∧ Stands n d := by
  have hvalue : ofDecimalDigits (decimalDigits (d.coefficient * 10 ^ d.exponent.toNat) ++ ['0']) =
      d.coefficient * 10 ^ d.exponent.toNat * 10 := by
    have happend := ofDecimalDigits_append_zeros
      (decimalDigits (d.coefficient * 10 ^ d.exponent.toNat)) 1
    rw [ofDecimalDigits_decimalDigits] at happend
    exact happend
  have hnumber : 0 < d.coefficient * 10 ^ d.exponent.toNat := Nat.mul_pos hpos (by positivity)
  refine ⟨⟨d.negative, decimalDigits (d.coefficient * 10 ^ d.exponent.toNat), ['0'], (false, []),
    false⟩, [], ?_, ?_, ?_⟩
  · unfold Decimal.positional spelled pointed
    simp [hexponent]
  · refine ⟨Nat.toDigits_ne_nil, ?_, ?_, by simp, rfl, rfl⟩
    · intro rest heq
      have hhead := head_decimalDigits_ne hnumber '0'
      rw [show decimalDigits _ = '0' :: rest from heq] at hhead
      exact absurd rfl (hhead rfl)
    · intro x hx
      rcases List.mem_append.mp hx with hx | hx
      · exact isDigit_of_mem_decimalDigits x hx
      · rw [List.mem_singleton.mp hx]
        rfl
  · refine ⟨rfl, rfl, ?_, (by decide : ofDecimalDigits [] < 2 ^ 31), ?_, .inr rfl⟩
    · show ofDecimalDigits (_ ++ ['0']) < 2 ^ 64
      rw [hvalue]
      have hlt := (Shortest.length_decimalDigits hpos).2
      have hpow : 10 ^ (decimalDigits d.coefficient).length * 10 ^ d.exponent.toNat ≤ 10 ^ 16 := by
        rw [← Nat.pow_add]
        exact Nat.pow_le_pow_right (by omega) (by omega)
      have hproduct : d.coefficient * 10 ^ d.exponent.toNat <
          10 ^ (decimalDigits d.coefficient).length * 10 ^ d.exponent.toNat :=
        Nat.mul_lt_mul_of_pos_right hlt (by positivity)
      omega
    · show (ofDecimalDigits (_ ++ ['0']) : Rat) * 10 ^ (-1 : Int) = d.magnitude
      have hexp : d.exponent = (d.exponent.toNat : Int) := by omega
      rw [hvalue, Decimal.magnitude]
      nth_rewrite 2 [hexp]
      rw [zpow_natCast, zpow_neg_one]
      push_cast
      rw [mul_inv_cancel_right₀ (by norm_num)]

/-- Digits with a point among them. -/
theorem placed_spelling (hsmall : d.coefficient < 2 ^ 64) (hexponent : d.exponent < 0) :
    ∃ n tail, d.positional = spelled n tail ∧ Spelling n tail ∧ Stands n d := by
  obtain ⟨whole, part, htext, hne, hlen, hdigits, hvalue, hhead⟩ :=
    placed_eq d.coefficient (-d.exponent).toNat
  have hpart : part.isEmpty = false := by
    cases part with
    | nil =>
      rw [List.length_nil] at hlen
      omega
    | cons _ _ => rfl
  have hexp : (0 : Int) - part.length = d.exponent := by omega
  refine ⟨⟨d.negative, whole, part, (false, []), false⟩, [], ?_, ?_, ?_⟩
  · unfold Decimal.positional spelled
    rw [if_neg (by omega), htext, List.append_nil]
  · exact ⟨hne, hhead, hdigits, by simp, rfl, by simp [hpart]⟩
  · refine ⟨rfl, rfl, hvalue ▸ hsmall, (by decide : ofDecimalDigits [] < 2 ^ 31), ?_, .inl hexp⟩
    show (ofDecimalDigits (whole ++ part) : Rat) * 10 ^ ((0 : Int) - part.length) = d.magnitude
    rw [hvalue, hexp]
    rfl

/-- **The text of a double spells its shortest decimal.** -/
theorem realText_spelling {x : Double} (hx : Spelled x (x.shortest .toEven))
    (hexponent : (x.shortest .toEven).exponent.natAbs < 2 ^ 30) :
    ∃ n tail, realText x = spelled n tail ∧ Spelling n tail ∧ Stands n (x.shortest .toEven) := by
  have hne : (x.shortest .toEven).coefficient ≠ 0 := hx.pos.ne'
  unfold realText
  simp only [hne, if_false]
  split
  · exact scientific_spelling hx.small hexponent
  · next hpower =>
    simp only [Bool.or_eq_true, decide_eq_true_eq, not_or, not_le, not_lt] at hpower
    split
    · next hwhole => exact whole_spelling hx.pos hwhole hpower.1
    · next hwhole => exact placed_spelling hx.small (not_le.mp hwhole)

end Json.Numeral

/-! ### Doubles that are read again -/

namespace JsonNumber

variable {x : Double}

/-- The exponent of the shortest decimal of a double of moderate size. -/
theorem exponent_shortest (hlow : 1 / 2 ^ 60 ≤ x.magnitude) (hhigh : x.magnitude < 2 ^ 205) :
    -37 < (x.shortest .toEven).exponent ∧ (x.shortest .toEven).exponent < 63 := by
  have hspelled := @shortest_spelled x .toEven hlow
  have hpos : 0 < x.magnitude := lt_of_lt_of_le (by norm_num) hlow
  have hten : (1 : Rat) < 10 := by norm_num
  refine ⟨?_, ?_⟩
  · obtain ⟨e, hlt, hle⟩ := @leading_le_exponent x .toEven hpos
    have hpower : (10 : Rat) ^ (-19 : Int) < 10 ^ (e + 1) := by
      refine lt_of_le_of_lt (le_trans ?_ hlow) hlt
      norm_num
    have hexp := (zpow_lt_zpow_iff_right₀ hten).mp hpower
    omega
  · have hone : (1 : Rat) ≤ (x.shortest .toEven).coefficient := by exact_mod_cast hspelled.pos
    have hle : (10 : Rat) ^ (x.shortest .toEven).exponent ≤ (x.shortest .toEven).magnitude :=
      le_mul_of_one_le_left (ten_zpow_pos _).le hone
    have hnear := hspelled.near.1
    have hblur : blur ^ 1 ≤ 2 := by norm_num [blur]
    have hbound := hnear.trans (mul_le_mul_of_nonneg_left hblur hpos.le)
    have hpower : (10 : Rat) ^ (x.shortest .toEven).exponent < 10 ^ (63 : Int) := by
      have hlarge : (2 : Rat) ^ 206 < 10 ^ (63 : Int) := by norm_num
      linarith
    exact (zpow_lt_zpow_iff_right₀ hten).mp hpower

/-- The number of a numeral with a point or a power of ten. -/
theorem read?_of_spelling {n : Json.Numeral} {tail : List Char} {y : Double}
    (htext : Json.realText x = Json.Numeral.spelled n tail) (hn : n.Spelling tail)
    (hplain : n.plain = false) (hsmall : ofDecimalDigits (n.whole ++ n.fraction) < 2 ^ 64)
    (hpower : ofDecimalDigits n.power.2 < 2 ^ 31)
    (hy : Json.Numeral.scale? (ofDecimalDigits (n.whole ++ n.fraction))
      (n.signedPower - n.fraction.length) = some y) :
    (real x).read? = some (.real (if n.negative then -y else y)) := by
  have hdouble := Json.Numeral.double?_eq hsmall hpower
  rw [hy, Option.map_some] at hdouble
  unfold read? Json.numberText
  simp only [htext, hn.scan, Option.bind_some, if_true, Json.Numeral.value?, hplain, hdouble,
    Bool.false_and, Bool.false_eq_true, if_false, Option.map_some]

/-- **A double is read again but for a few roundings**: four at most, and two if it is a decimal of
few digits. -/
theorem read?_real (hlow : 1 / 2 ^ 60 ≤ x.magnitude) (hhigh : x.magnitude < 2 ^ 205) :
    ∃ y, (real x).read? = some (.real y) ∧ y.isFinite = true ∧ y.negative = x.negative ∧
      Blurred 4 y.magnitude x.magnitude ∧
      ∀ grid : Int, -22 ≤ grid → grid ≤ -1 → grid ≤ (x.shortest .toEven).exponent →
        x.magnitude ≤ 2 ^ 52 * 10 ^ grid → Blurred 2 y.magnitude x.magnitude := by
  have hpos : 0 < x.magnitude := lt_of_lt_of_le (by norm_num) hlow
  have hspelled := @shortest_spelled x .toEven hlow
  obtain ⟨hexpLow, hexpHigh⟩ := exponent_shortest hlow hhigh
  obtain ⟨n, tail, htext, hn, hstands⟩ := Json.Numeral.realText_spelling hspelled (by omega)
  have hnear := hspelled.near
  have hblur : blur ^ 1 ≤ 3 / 2 := by norm_num [blur]
  have hle := hnear.le.trans (mul_le_mul_of_nonneg_left hblur hpos.le)
  have hge := hnear.ge.trans (mul_le_mul_of_nonneg_left hblur (Decimal.magnitude_nonneg _))
  obtain ⟨y, hy, hfinite, hnegative, hblurred⟩ := Json.Numeral.scale?_near
    (hstands.scalable (by linarith) (by linarith) (by omega) (hstands.blurred_digits (by linarith))
      (Json.Numeral.blurred_tenTo (hstands.natAbs_le ⟨by omega, by omega⟩)) le_rfl)
  rw [hstands.value] at hblurred
  have hmagnitude : (if n.negative then -y else y).magnitude = y.magnitude := by
    split <;> rfl
  refine ⟨if n.negative then -y else y, read?_of_spelling htext hn hstands.plain hstands.small
    hstands.power hy, ?_, ?_, ?_, ?_⟩
  · split
    · exact hfinite
    · exact hfinite
  · rw [← hspelled.negative, ← hstands.negative]
    cases n.negative with
    | false => exact hnegative
    | true =>
      show (!y.negative) = true
      rw [hnegative]
      rfl
  · rw [hmagnitude]
    exact hblurred.trans hnear
  · intro grid hgrid hgrid' hstop hfew
    obtain ⟨hdigits, hpower⟩ := hstands.exact (by linarith) hgrid hgrid' hstop
      (by linarith [ten_zpow_pos grid])
    obtain ⟨y', hy', -, -, hexact⟩ := Json.Numeral.scale?_near
      (hstands.scalable (by linarith) (by linarith) (by omega) hdigits hpower (by omega))
    obtain rfl : y = y' := Option.some.inj (hy.symm.trans hy')
    rw [hstands.value] at hexact
    have htotal := hexact.trans hnear
    rw [hmagnitude]
    exact htotal

end JsonNumber
end ColorChain
