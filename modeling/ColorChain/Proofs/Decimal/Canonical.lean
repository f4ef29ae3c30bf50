import ColorChain.Proofs.Binary.Signed
import ColorChain.Proofs.Decimal.Order

/-! The displayed text of a number is its canonical form.

A number that is displayed is counted in its last places, a half away from zero
(`nearestWhole_count`). As long as a double tells the counts apart, the text is a sign, digits and
digits behind a point with nothing in it that could be left out (`Figure.Canonical`), and it stands
for just that many of the last places. So the text and the count say the same
(`number_canonical`). -/
namespace ColorChain

/-! ### The nearest whole number -/

/-- No whole number is nearer to `q` than `k`, and of two that are a half away it is the one further
from zero. -/
structure NearestWhole (q : Rat) (k : Int) : Prop where
  near : |q - k| ≤ 1 / 2
  away : |q - k| = 1 / 2 → |q| < |(k : Rat)|

theorem NearestWhole.neg {q : Rat} {k : Int} (h : NearestWhole q k) : NearestWhole (-q) (-k) := by
  have hdistance : |-q - ((-k : Int) : Rat)| = |q - k| := by
    rw [Int.cast_neg, sub_neg_eq_add, neg_add_eq_sub, abs_sub_comm]
  refine ⟨hdistance.le.trans h.near, fun htie => ?_⟩
  rw [abs_neg, Int.cast_neg, abs_neg]
  exact h.away (hdistance.symm.trans htie)

/-- What goes up a half is nearest to a number that is not negative. -/
theorem nearestWhole_of_nonneg {q : Rat} {n : Nat} (hq : 0 ≤ q) (hhigh : (n : Rat) ≤ q + 1 / 2)
    (hlow : q < n + 1 / 2) : NearestWhole q n := by
  rw [← Int.cast_natCast] at hhigh hlow
  refine ⟨abs_le.mpr ⟨by linarith, by linarith⟩, fun htie => ?_⟩
  rw [abs_of_nonneg hq, abs_of_nonneg (by positivity)]
  rcases (abs_eq (by norm_num)).mp htie with h | h
  · linarith
  · linarith

theorem NearestWhole.le {q : Rat} {j k : Int} (hj : NearestWhole q j) (hk : NearestWhole q k) :
    k ≤ j := by
  by_contra hlt
  have hstep : (j : Rat) + 1 ≤ k := by exact_mod_cast not_le.mp hlt
  have hlow := (abs_le.mp hj.near).2
  have hhigh := (abs_le.mp hk.near).1
  -- The two are neighbours and `q` is between them: the one nearer to zero is not the nearest.
  have hmid : q = j + 1 / 2 := by linarith
  have hnext : (k : Rat) = j + 1 := by linarith
  have hfirst := hj.away (by rw [hmid, add_sub_cancel_left]; norm_num)
  have hsecond := hk.away (by rw [hmid, hnext]; norm_num)
  rcases le_or_gt 0 j with hsign | hsign
  · have hcast : (0 : Rat) ≤ j := by exact_mod_cast hsign
    rw [abs_of_nonneg hcast, abs_of_nonneg (by linarith)] at hfirst
    linarith
  · have hcast : (j : Rat) + 1 ≤ 0 := by exact_mod_cast hsign
    rw [hnext, abs_of_nonpos hcast, abs_of_nonpos (by linarith)] at hsecond
    linarith

theorem NearestWhole.unique {q : Rat} {j k : Int} (hj : NearestWhole q j)
    (hk : NearestWhole q k) : j = k :=
  le_antisymm (hk.le hj) (hj.le hk)

/-! ### Figures -/

/-- A decimal number as it is written: a sign, the digits in front of the point and those behind
it. -/
structure Figure where
  negative : Bool
  whole : List Char
  part : List Char

namespace Figure

/-- The point stands only in front of digits. -/
def text (d : Figure) : List Char := signText d.negative ++ (d.whole ++ pointed d.part)

/-- The number that is written. -/
def value (d : Figure) : Rat :=
  (if d.negative then -1 else 1) * (ofDecimalDigits (d.whole ++ d.part) / 10 ^ d.part.length)

/-- The text can be read: there are digits in front of the point, and nothing but digits. -/
structure Legible (d : Figure) : Prop where
  digits : ∀ c ∈ d.whole ++ d.part, c.isDigit = true
  whole : d.whole ≠ []

/-- Nothing is written that could be left out, and at most `places` digits behind the point. -/
structure Canonical (d : Figure) (places : Nat) : Prop extends d.Legible where
  /-- In front of the point a zero stands alone. -/
  leading : ∀ rest, d.whole = '0' :: rest → rest = []
  length_le : d.part.length ≤ places
  last : d.part.getLast? ≠ some '0'
  signed : d.negative = true → d.value ≠ 0

/-- Figures with the same text have the same sign and stand for the same number. -/
theorem same_of_text {d e : Figure} (hd : d.Legible) (he : e.Legible) (h : d.text = e.text) :
    d.negative = e.negative ∧ d.value = e.value := by
  have hread := Numeral.ofText?_pointed d.negative hd.whole hd.digits
  have hread' := Numeral.ofText?_pointed e.negative he.whole he.digits
  rw [← text, h, text, hread'] at hread
  simp only [Option.some.injEq, Numeral.decimal.injEq, Decimal.mk.injEq, neg_inj,
    Nat.cast_inj] at hread
  obtain ⟨hsign, hdigits, hlength⟩ := hread
  exact ⟨hsign.symm, by rw [value, value, hsign, hdigits, hlength]⟩

/-- A zero has no sign. -/
theorem Canonical.text_ne {d : Figure} {places : Nat} (hd : d.Canonical places) :
    d.text ≠ ['-', '0'] := by
  intro h
  have hzero : Legible ⟨true, ['0'], []⟩ := ⟨by simp, by simp⟩
  obtain ⟨hsign, hvalue⟩ := same_of_text hd.toLegible hzero h
  refine hd.signed hsign (hvalue.trans ?_)
  simp [value, ofDecimalDigits, Nat.ofDigitChars]

end Figure

namespace Display

open Binary

variable {p : UInt32} {x y : Single} {j k : Int}

/-- The number in its last places: its product with a power of ten, as a double. -/
def product (x : Single) (p : UInt32) : Double := x.convert * nearest false (10 ^ p.toNat)

/-- A number is counted in its last places by the nearest whole number. -/
theorem nearestWhole_count (hp : p.toNat ≤ maxPlaces) (hx : x.isFinite = true) :
    NearestWhole (product x p).rational (count x p) := by
  have hproduct : product x p = scaled x p := by rw [product, scaled, scale_eq hp]
  rw [hproduct]
  obtain ⟨hhigh, hlow⟩ := whole_bounds (scaled x p)
  have hnearest : NearestWhole (scaled x p).magnitude (places x p : Nat) :=
    nearestWhole_of_nonneg (scaled x p).magnitude_nonneg hhigh hlow
  have hsign : (scaled x p).negative = x.negative := by
    rw [scaled_eq hp hx]
    rfl
  rw [rational, hsign, count]
  generalize (scaled x p).magnitude = q at hnearest
  cases x.negative with
  | true =>
    rw [if_pos rfl, if_pos rfl]
    exact hnearest.neg
  | false =>
    rw [if_neg Bool.false_ne_true, if_neg Bool.false_ne_true]
    exact hnearest

/-- The trimmed text of a number of places is canonical, but for the sign of a zero. -/
theorem figure_trimmed (negative : Bool) (n places : Nat) (h : negative = true → 0 < n) :
    ∃ d : Figure, trimmed (signText negative ++ placed n places) = d.text ∧ d.Canonical places ∧
      d.value = (if negative then -1 else 1) * (n / 10 ^ places) := by
  obtain ⟨whole, kept, htext, hne, hlen, hdigits, hvalue, hleading, hlast⟩ :=
    trimmed_placed negative n places
  have hnumber : (⟨negative, whole, kept⟩ : Figure).value =
      (if negative then -1 else 1) * (n / 10 ^ places) := by
    rw [Figure.value, div_of_placed hlen hvalue]
  refine ⟨⟨negative, whole, kept⟩, htext,
    ⟨⟨hdigits, hne⟩, hleading, hlen, hlast, fun hsign => ?_⟩, hnumber⟩
  have hpos : (0 : Rat) < n := by exact_mod_cast h hsign
  have hten : (0 : Rat) < n / 10 ^ places := by positivity
  have hnegative : negative = true := hsign
  rw [hnumber, hnegative, if_pos rfl, neg_one_mul, neg_ne_zero]
  exact hten.ne'

/-- The text of a number is the canonical form of its count. -/
theorem figure_number (hp : p.toNat ≤ maxPlaces) (hx : x.isFinite = true)
    (hsmall : (count x p).natAbs < 2 ^ 52) :
    ∃ d : Figure, number x p = d.text ∧ d.Canonical p.toNat ∧
      d.value = count x p / 10 ^ p.toNat := by
  have htext : number x p = trimmed
      (signText (decide (count x p < 0)) ++ placed (count x p).natAbs p.toNat) := by
    rw [number, rounded_eq_count hp hx, fixed_place hp hsmall]
  obtain ⟨d, hd, hcanonical, hvalue⟩ := figure_trimmed (decide (count x p < 0))
    (count x p).natAbs p.toNat (fun h => by simpa using (of_decide_eq_true h).ne)
  refine ⟨d, htext.trans hd, hcanonical, hvalue.trans ?_⟩
  rw [← mul_div_assoc, Nat.cast_natAbs, Int.cast_abs]
  by_cases hsign : count x p < 0
  · have hcast : (count x p : Rat) < 0 := by exact_mod_cast hsign
    rw [if_pos (decide_eq_true hsign), abs_of_neg hcast, neg_one_mul, neg_neg]
  · have hcast : (0 : Rat) ≤ count x p := by exact_mod_cast not_lt.mp hsign
    rw [if_neg (by simpa using hsign), abs_of_nonneg hcast, one_mul]

/-- No mark of the compact form is a character of a number's text. -/
theorem not_isTextChar : ∀ c ∈ ['~', ';', ',', ':', '\x7b'], ¬ IsTextChar c := by
  simp only [IsTextChar, List.forall_mem_cons, List.not_mem_nil, false_implies, implies_true,
    and_true]
  decide

/-- **Displaying a number is canonical.** With at most 22 places, and as long as the whole number
`k` that is nearest to the number in its last places, a half away from zero, has no more than 51
bits, the text stands for exactly `k` of the last places and nothing could be left out of it. A zero
has no sign, and no mark of the compact form is in the text. With as many places another number has
the same text just if it has the same `k`. -/
theorem number_canonical (hx : x.isFinite = true) (hp : p.toNat ≤ 22)
    (hk : NearestWhole (product x p).rational k) (hsmall : |k| ≤ 2 ^ 51) :
    (∃ d : Figure, number x p = d.text ∧ d.Canonical p.toNat ∧ d.value = k / 10 ^ p.toNat) ∧
      number x p ≠ ['-', '0'] ∧
      (∀ c ∈ ['~', ';', ',', ':', '\x7b'], c ∉ number x p) ∧
      ∀ (y : Single) (j : Int), y.isFinite = true →
        NearestWhole (product y p).rational j → |j| ≤ 2 ^ 51 →
          (number x p = number y p ↔ k = j) := by
  have hcount : ∀ {y : Single} {j : Int}, y.isFinite = true →
      NearestWhole (product y p).rational j → count y p = j :=
    fun hy hj => (nearestWhole_count hp hy).unique hj
  have hfigure : ∀ {y : Single} {j : Int}, y.isFinite = true → count y p = j → |j| ≤ 2 ^ 51 →
      ∃ d : Figure, number y p = d.text ∧ d.Canonical p.toNat ∧ d.value = j / 10 ^ p.toNat := by
    rintro y j hy rfl hj
    rw [Int.abs_eq_natAbs] at hj
    exact figure_number hp hy (by omega)
  obtain rfl := hcount hx hk
  obtain ⟨d, htext, hd, hvalue⟩ := hfigure hx rfl hsmall
  refine ⟨⟨d, htext, hd, hvalue⟩, htext ▸ hd.text_ne,
    fun c hc hmem => not_isTextChar c hc (isTextChar_number x p c hmem),
    fun y j hy hj hbound => ⟨fun hsame => ?_, fun hsame => ?_⟩⟩
  · obtain ⟨e, htext', he, hvalue'⟩ := hfigure hy (hcount hy hj) hbound
    obtain ⟨-, hequal⟩ := Figure.same_of_text hd.toLegible he.toLegible
      (htext.symm.trans (hsame.trans htext'))
    have hten : (10 : Rat) ^ p.toNat ≠ 0 := by positivity
    rw [hvalue, hvalue', div_left_inj' hten] at hequal
    exact_mod_cast hequal
  · rw [number, number, rounded_of_count hp hx hy (hsame.trans (hcount hy hj).symm)]

/-- A half goes away from zero, and a number near to what comes out is displayed like it. -/
theorem number_canonical_half :
    (-1.25 : Single).isFinite = true ∧ (1 : UInt32).toNat ≤ 22 ∧
      NearestWhole (product (-1.25) 1).rational (-13) ∧ |(-13 : Int)| ≤ 2 ^ 51 ∧
      (∃ d : Figure, number (-1.25) 1 = d.text ∧ d.Canonical 1 ∧ d.value = -13 / 10) ∧
      number (-1.25) 1 = number (-1.3) 1 := by
  have hplace : (1 : UInt32).toNat = 1 := by decide
  have hp : (1 : UInt32).toNat ≤ maxPlaces := by decide
  have hx : (-1.25 : Single).isFinite = true := by decide +kernel
  have hy : (-1.3 : Single).isFinite = true := by decide +kernel
  have hnearest : ∀ y : Single, y.isFinite = true → count y 1 = -13 →
      NearestWhole (product y 1).rational (-13) :=
    fun y hy hcount => hcount ▸ nearestWhole_count hp hy
  have hk := hnearest _ hx (by decide +kernel)
  have hj := hnearest _ hy (by decide +kernel)
  have hsmall : |(-13 : Int)| ≤ 2 ^ 51 := by decide
  obtain ⟨⟨d, htext, hd, hvalue⟩, -, -, hsame⟩ := number_canonical hx hp hk hsmall
  refine ⟨hx, hp, hk, hsmall, ⟨d, htext, hd, hvalue.trans ?_⟩, (hsame _ _ hy hj hsmall).mpr rfl⟩
  rw [hplace]
  norm_num

end Display
end ColorChain
