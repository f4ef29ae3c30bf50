import ColorChain.Decimal.Display
import ColorChain.Decimal.Numeral
import ColorChain.Proofs.Binary.Nearest
import ColorChain.Proofs.Text
import Mathlib.Data.List.Basic

/-! Decimal text that reads back.

A number of the last place is written with a point before its last digits, and zeros at the
end are left out (`trimmed_placed`); a row of digits with a point in it is read as the number
that the digits spell, over a power of ten (`ofText?_pointed`). So the two fit together. -/
namespace ColorChain

/-! ### Digits -/

theorem ofDecimalDigits_decimalDigits (n : Nat) : ofDecimalDigits (decimalDigits n) = n :=
  Nat.ofDigitChars_ten_toDigits

theorem toList_toString (n : Nat) : (toString n).toList = decimalDigits n := Nat.toList_repr

theorem toList_toString_inj {m n : Nat} (h : (toString m).toList = (toString n).toList) :
    m = n := by
  rw [toList_toString, toList_toString] at h
  rw [← ofDecimalDigits_decimalDigits m, h, ofDecimalDigits_decimalDigits]

theorem isDigit_of_mem_decimalDigits {n : Nat} : ∀ c ∈ decimalDigits n, c.isDigit = true :=
  fun _ h => Nat.isDigit_of_mem_toDigits (by omega) (by omega) h

theorem ofDecimalDigits_zeros_append (n : Nat) (ds : List Char) :
    ofDecimalDigits (List.replicate n '0' ++ ds) = ofDecimalDigits ds := by
  unfold ofDecimalDigits
  rw [Nat.ofDigitChars_append, Nat.ofDigitChars_replicate_zero, Nat.mul_zero]

theorem ofDecimalDigits_append_zeros (ds : List Char) (n : Nat) :
    ofDecimalDigits (ds ++ List.replicate n '0') = ofDecimalDigits ds * 10 ^ n := by
  unfold ofDecimalDigits
  rw [Nat.ofDigitChars_append, Nat.ofDigitChars_replicate_zero, Nat.mul_comm]

/-- The digits of a number other than zero do not start with a zero. -/
theorem head_decimalDigits_ne {n : Nat} (hn : 0 < n) : ∀ c ∈ (decimalDigits n).head?, c ≠ '0' := by
  induction n using Nat.strongRecOn with
  | ind n ih =>
    unfold decimalDigits at *
    by_cases hsmall : n < 10
    · have hdigit : ∀ n < 10, 0 < n → n.digitChar ≠ '0' := by decide
      rw [Nat.toDigits_of_lt_base hsmall]
      simpa using hdigit n hsmall hn
    · rw [Nat.toDigits_of_base_le (by omega) (by omega),
        List.head?_append_of_ne_nil _ Nat.toDigits_ne_nil]
      exact ih (n / 10) (by omega) (by omega)

/-! ### Writing -/

/-- Digits behind a point; without any there is no point. -/
def pointed (part : List Char) : List Char := if part.isEmpty then [] else '.' :: part

/-- The digits in front of the point and those behind it spell the number together. A zero in front
of the point stands alone. -/
theorem placed_eq (n places : Nat) :
    ∃ whole part, placed n places = whole ++ pointed part ∧ whole ≠ [] ∧ part.length = places ∧
      (∀ c ∈ whole ++ part, c.isDigit = true) ∧ ofDecimalDigits (whole ++ part) = n ∧
      ∀ rest, whole = '0' :: rest → rest = [] := by
  have hdigits : ∀ c ∈
      List.replicate (places + 1 - (decimalDigits n).length) '0' ++ decimalDigits n,
      c.isDigit = true := by
    intro c hc
    rcases List.mem_append.mp hc with hc | hc
    · rw [List.eq_of_mem_replicate hc]
      rfl
    · exact isDigit_of_mem_decimalDigits c hc
  have hvalue := ofDecimalDigits_zeros_append (places + 1 - (decimalDigits n).length)
    (decimalDigits n)
  rw [ofDecimalDigits_decimalDigits] at hvalue
  have hlen : places + 1 ≤
      (List.replicate (places + 1 - (decimalDigits n).length) '0' ++ decimalDigits n).length := by
    rw [List.length_append, List.length_replicate]
    omega
  -- With more than one digit in front of the point there are no zeros before the number.
  have hhead : ∀ rest,
      (List.replicate (places + 1 - (decimalDigits n).length) '0' ++ decimalDigits n).take
        ((List.replicate (places + 1 - (decimalDigits n).length) '0' ++
          decimalDigits n).length - places) = '0' :: rest → rest = [] := by
    intro rest heq
    by_cases hshort : (decimalDigits n).length ≤ places + 1
    · have hcount := congrArg List.length heq
      rw [List.length_take, List.length_append, List.length_replicate, List.length_cons] at hcount
      exact List.eq_nil_of_length_eq_zero (by omega)
    · have hpos : 0 < n := by
        by_contra hzero
        have hone : (decimalDigits n).length = 1 := by
          rw [Nat.eq_zero_of_not_pos hzero, decimalDigits, Nat.toDigits_zero]
          rfl
        omega
      have hnone : places + 1 - (decimalDigits n).length = 0 := by omega
      rw [hnone, List.replicate_zero, List.nil_append] at heq
      have hzero : '0' ∈ (decimalDigits n).head? := by
        cases hds : decimalDigits n with
        | nil => simp [hds] at heq
        | cons d ds =>
          obtain ⟨k, hk⟩ : ∃ k, (decimalDigits n).length - places = k + 1 :=
            ⟨(decimalDigits n).length - places - 1, by omega⟩
          rw [hk, hds, List.take_succ_cons, List.cons.injEq] at heq
          rw [heq.1]
          rfl
      exact absurd rfl (head_decimalDigits_ne hpos '0' hzero)
  unfold placed
  simp only
  generalize List.replicate (places + 1 - (decimalDigits n).length) '0' ++ decimalDigits n = ds at *
  refine ⟨ds.take (ds.length - places), ds.drop (ds.length - places), ?_, ?_, ?_, ?_, ?_, hhead⟩
  · by_cases hplaces : places = 0
    · simp [hplaces, pointed]
    · rw [if_neg hplaces, pointed, if_neg]
      simp only [List.isEmpty_iff, List.drop_eq_nil_iff]
      omega
  · simp only [ne_eq, List.take_eq_nil_iff, not_or]
    exact ⟨by omega, by rintro rfl; simp at hlen⟩
  · rw [List.length_drop]
    omega
  · rw [List.take_append_drop]
    exact hdigits
  · rw [List.take_append_drop]
    exact hvalue

namespace Display

theorem ne_point_of_isDigit {c : Char} (h : c.isDigit = true) : c ≠ '.' := by
  rintro rfl
  revert h
  decide

/-- The zeros that are left out are those at the end of the digits behind the point, all of them. -/
theorem trimEnd_zeros (whole part : List Char) :
    ∃ kept zeros, part = kept ++ List.replicate zeros '0' ∧ kept.getLast? ≠ some '0' ∧
      Text.trimEnd (· == '0') (whole ++ '.' :: part) = whole ++ '.' :: kept := by
  induction part using List.reverseRecOn with
  | nil => exact ⟨[], 0, rfl, by simp, Text.trimEnd_append_of_neg (by decide) whole⟩
  | append_singleton init c ih =>
    by_cases hc : c = '0'
    · obtain ⟨kept, zeros, rfl, hlast, hkept⟩ := ih
      subst hc
      refine ⟨kept, zeros + 1, ?_, hlast, ?_⟩
      · rw [List.replicate_succ', List.append_assoc]
      · rw [← hkept, ← List.cons_append, ← List.append_assoc, Text.trimEnd_append_of_pos (by decide)]
    · refine ⟨init ++ [c], 0, by simp, by simpa using hc, ?_⟩
      rw [← List.cons_append, ← List.append_assoc, Text.trimEnd_append_of_neg (by simpa using hc)]

theorem trimEnd_pointed (front : List Char) {whole kept : List Char} (hne : whole ≠ [])
    (h : ∀ c ∈ whole ++ kept, c.isDigit = true) :
    Text.trimEnd (· == '.') (front ++ whole ++ '.' :: kept) = front ++ (whole ++ pointed kept) := by
  induction kept using List.reverseRecOn with
  | nil =>
    obtain ⟨init, c, rfl⟩ := (List.eq_nil_or_concat' whole).resolve_left hne
    have hc := h c (by simp)
    rw [Text.trimEnd_append_of_pos (by decide), ← List.append_assoc,
      Text.trimEnd_append_of_neg (by simpa using ne_point_of_isDigit hc)]
    simp [pointed]
  | append_singleton init c _ =>
    have hc := h c (by simp)
    rw [← List.cons_append, ← List.append_assoc,
      Text.trimEnd_append_of_neg (by simpa using ne_point_of_isDigit hc)]
    simp [pointed]

/-- Without its last zeros, the text of `n` at some last place still spells `n`, with fewer
places. A zero is neither the first of several digits in front of the point nor the last behind
it. -/
theorem trimmed_placed (negative : Bool) (n places : Nat) :
    ∃ whole kept, trimmed (signText negative ++ placed n places) =
        signText negative ++ (whole ++ pointed kept) ∧
      whole ≠ [] ∧ kept.length ≤ places ∧ (∀ c ∈ whole ++ kept, c.isDigit = true) ∧
      ofDecimalDigits (whole ++ kept) * 10 ^ (places - kept.length) = n ∧
      (∀ rest, whole = '0' :: rest → rest = []) ∧ kept.getLast? ≠ some '0' := by
  obtain ⟨whole, part, htext, hne, hlen, hdigits, hvalue, hhead⟩ := placed_eq n places
  have hsign : '.' ∉ signText negative := by cases negative <;> decide
  unfold trimmed
  by_cases hpart : part = []
  · subst hpart
    have hpoint : '.' ∉ signText negative ++ (whole ++ pointed []) := by
      intro h
      rcases List.mem_append.mp h with h | h
      · exact hsign h
      · exact ne_point_of_isDigit (hdigits '.' h) rfl
    rw [htext, if_neg (by simpa only [List.contains_iff_mem] using hpoint)]
    refine ⟨whole, [], rfl, hne, by simp, hdigits, ?_, hhead, by simp⟩
    rw [← hlen]
    simpa using hvalue
  · have hpointed : pointed part = '.' :: part := by simp [pointed, hpart]
    obtain ⟨kept, zeros, rfl, hlast, hkept⟩ :=
      trimEnd_zeros (signText negative ++ whole) part
    have hkeptDigits : ∀ c ∈ whole ++ kept, c.isDigit = true := by
      intro c hc
      apply hdigits c
      rw [← List.append_assoc]
      exact List.mem_append_left _ hc
    rw [htext, hpointed, if_pos (by simp), ← List.append_assoc, hkept,
      trimEnd_pointed _ hne hkeptDigits]
    refine ⟨whole, kept, rfl, hne, ?_, hkeptDigits, ?_, hhead, hlast⟩
    · rw [← hlen, List.length_append]
      omega
    · rw [← hvalue, ← hlen, ← List.append_assoc, ofDecimalDigits_append_zeros]
      simp

/-- Over fewer places the digits without their last zeros stand for the same number. -/
theorem div_of_placed {m n places kept : Nat} (hle : kept ≤ places)
    (h : m * 10 ^ (places - kept) = n) : (m : Rat) / 10 ^ kept = n / 10 ^ places := by
  have hpow : (10 : Rat) ^ (places - kept) * 10 ^ kept = 10 ^ places := by
    rw [← pow_add, Nat.sub_add_cancel hle]
  have hcast : (n : Rat) = m * 10 ^ (places - kept) := by exact_mod_cast h.symm
  rw [hcast, div_eq_div_iff (by positivity) (by positivity), mul_assoc, hpow]

end Display

/-! ### Reading -/

namespace Numeral

theorem digits_append {ds rest : List Char} (hds : ∀ c ∈ ds, c.isDigit = true)
    (hrest : ∀ c ∈ rest.head?, c.isDigit = false) : digits (ds ++ rest) = (ds, rest) := by
  unfold digits
  rw [List.span_eq_takeWhile_dropWhile, List.takeWhile_append_of_pos hds,
    List.dropWhile_append_of_pos hds]
  cases rest with
  | nil => simp
  | cons c rest =>
    have hc := hrest c (by simp)
    simp [hc]

theorem fraction_pointed {part : List Char} (h : ∀ c ∈ part, c.isDigit = true) :
    fraction (pointed part) = (part, []) := by
  unfold pointed
  by_cases hpart : part = []
  · simp [hpart, fraction]
  · rw [if_neg (by simpa using hpart), fraction]
    have hdigits : digits (part ++ []) = (part, []) := digits_append h (by simp)
    simpa using hdigits

theorem decimal?_pointed (negative : Bool) {whole part : List Char} (hne : whole ≠ [])
    (h : ∀ c ∈ whole ++ part, c.isDigit = true) :
    decimal? negative (whole ++ pointed part) =
      some ⟨negative, ofDecimalDigits (whole ++ part), -part.length⟩ := by
  obtain ⟨hwhole, hpart⟩ := List.forall_mem_append.mp h
  have hrest : ∀ c ∈ (pointed part).head?, c.isDigit = false := by
    unfold pointed
    split
    · simp
    · simp
  unfold decimal?
  simp only [digits_append hwhole hrest, fraction_pointed hpart, power?]
  simp [hne]

theorem sign_signText (negative : Bool) {d : Char} (hd : d.isDigit = true) (rest : List Char) :
    sign (signText negative ++ d :: rest) = (negative, d :: rest) := by
  cases negative
  · show sign (d :: rest) = (false, d :: rest)
    have hminus : d ≠ '-' := by
      rintro rfl
      revert hd
      decide
    have hplus : d ≠ '+' := by
      rintro rfl
      revert hd
      decide
    unfold sign
    split
    · next heq => exact absurd (List.cons.inj heq).1 hminus
    · next heq => exact absurd (List.cons.inj heq).1 hplus
    · rfl
  · rfl

theorem toLower_of_isDigit {c : Char} (h : c.isDigit = true) : c.toLower = c := by
  simp only [Char.isDigit, Bool.and_eq_true, decide_eq_true_eq] at h
  unfold Char.toLower
  rw [dif_neg]
  intro hupper
  have hle := UInt32.le_trans hupper.1 h.2
  revert hle
  decide

/-- What starts with a digit is none of the words. -/
theorem word_ne {d : Char} (hd : d.isDigit = true) (rest : List Char) {word : String}
    (hword : ∀ c ∈ word.toList.head?, c.isDigit = false) :
    String.ofList ((d :: rest).map Char.toLower) ≠ word := by
  rintro rfl
  rw [String.toList_ofList, List.map_cons, toLower_of_isDigit hd] at hword
  have hfalse := hword d rfl
  rw [hd] at hfalse
  cases hfalse

/-- A row of digits with a point in it, or none, is read as the decimal that it spells. -/
theorem ofText?_pointed (negative : Bool) {whole part : List Char} (hne : whole ≠ [])
    (h : ∀ c ∈ whole ++ part, c.isDigit = true) :
    ofText? (signText negative ++ (whole ++ pointed part)) =
      some (.decimal ⟨negative, ofDecimalDigits (whole ++ part), -part.length⟩) := by
  have hdecimal := decimal?_pointed negative hne h
  obtain ⟨d, ds, rfl⟩ := List.exists_cons_of_ne_nil hne
  have hd := h d (by simp)
  have hinf : ∀ c ∈ "inf".toList.head?, c.isDigit = false := by simp
  have hinfinity : ∀ c ∈ "infinity".toList.head?, c.isDigit = false := by simp
  have hnan : ∀ c ∈ "nan".toList.head?, c.isDigit = false := by simp
  rw [List.cons_append] at hdecimal ⊢
  unfold ofText?
  simp only [sign_signText negative hd, word_ne hd _ hinf, word_ne hd _ hinfinity,
    word_ne hd _ hnan, decide_false, Bool.or_false, Bool.false_eq_true, if_false, hdecimal,
    Option.map_some]

end Numeral

/-- A decimal within reach of the format is read as the number nearest to it. -/
theorem Decimal.toBinary_eq_nearest {f : Format} (negative : Bool) {c places : Nat}
    (hc : c < 10 ^ 2 ^ f.exponentBits) (hplaces : places ≤ 2 ^ f.exponentBits) :
    ((⟨negative, c, -places⟩ : Decimal).toBinary : Binary f) =
      .nearest negative (c / 10 ^ places) := by
  have hlen : (decimalDigits c).length ≤ 2 ^ f.exponentBits :=
    (Nat.length_toDigits_le_iff (by omega) (Nat.two_pow_pos _)).mpr hc
  have hreach : reach f = (2 ^ f.exponentBits : Nat) := by simp [reach]
  have hlow : ¬ ((decimalDigits c).length : Int) + -places < -reach f := by omega
  have hhigh : ¬ reach f < ((decimalDigits c).length : Int) + -places := by omega
  unfold toBinary
  simp only [hlow, hhigh, if_false]
  by_cases hzero : c = 0
  · subst hzero
    rw [if_pos rfl, Nat.cast_zero, zero_div, Binary.nearest_zero]
  · rw [if_neg hzero]
    by_cases hwhole : places = 0
    · subst hwhole
      simp only [Int.neg_zero, Int.natCast_zero, le_refl, if_true, Int.toNat_zero, Nat.pow_zero,
        Nat.mul_one]
      rw [Binary.ofQuotient_eq_nearest _ _ Nat.one_pos]
      congr 1
      push_cast
      field_simp
    · rw [if_neg (by omega), Binary.ofQuotient_eq_nearest _ _ (Nat.pow_pos (by omega))]
      congr 1
      rw [Int.neg_neg, Int.toNat_natCast]
      push_cast
      field_simp

end ColorChain
