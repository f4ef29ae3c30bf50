import ColorChain.Json.Numeral
import ColorChain.Json.Writer
import ColorChain.Proofs.Decimal.Numeral

/-! Numbers in JSON text that are read back.

A number is scanned to where its characters end, so it does not matter what comes behind as long
as that does not go on with the number (`Numeral.scan?_append`). Integers of 64 bits are read
back from their digits; whether a double is depends on its digits alone (`JsonNumber.Readable`). -/
namespace ColorChain

/-- What is read of a number's text. -/
def JsonNumber.read? (n : JsonNumber) : Option JsonNumber :=
  (Json.Numeral.scan? (Json.numberText n)).bind fun (numeral, rest) =>
    if rest = [] then numeral.value? else none

/-- The number that its text is read as, if it is read as one. -/
def JsonNumber.reread (n : JsonNumber) : JsonNumber := n.read?.getD n

theorem JsonNumber.reread_eq {n m : JsonNumber} (h : n.read? = some m) : n.reread = m := by
  rw [reread, h, Option.getD_some]

/-- The number is what is read of its text. -/
def JsonNumber.Readable (n : JsonNumber) : Prop := n.read? = some n

instance (n : JsonNumber) : Decidable n.Readable :=
  inferInstanceAs (Decidable ((_ : Option JsonNumber) = _))

namespace Json

/-- What a number ends at: the end of the text, a comma or a closing bracket. -/
def Ends (rest : List Char) : Prop := ∀ c ∈ rest.head?, c = ',' ∨ c = ']' ∨ c = '\x7d'

theorem Ends.ne {rest : List Char} (h : Ends rest) {c : Char}
    (hc : c ∉ [',', ']', '\x7d']) : ∀ d ∈ rest.head?, d ≠ c := by
  intro d hd heq
  subst heq
  exact hc (by simpa using h d hd)

theorem Ends.not_digit {rest : List Char} (h : Ends rest) :
    ∀ c ∈ rest.head?, c.isDigit = false := by
  intro c hc
  rcases h c hc with rfl | rfl | rfl <;> rfl

namespace Numeral

variable {s rest : List Char}

theorem digits_eq {ds tail : List Char} (h : digits s = (ds, tail)) :
    s = ds ++ tail ∧ (∀ c ∈ ds, c.isDigit = true) ∧ ∀ c ∈ tail.head?, c.isDigit = false := by
  unfold digits at h
  rw [List.span_eq_takeWhile_dropWhile, Prod.mk.injEq] at h
  obtain ⟨rfl, rfl⟩ := h
  refine ⟨(List.takeWhile_append_dropWhile ..).symm, List.all_eq_true.mp List.all_takeWhile, ?_⟩
  intro c hc
  have hhead := List.head?_dropWhile_not Char.isDigit s
  rw [Option.mem_def.mp hc] at hhead
  simpa using hhead

/-- A part of a number that was read, with more text behind it. -/
def behind {α : Type} (rest : List Char) (part : α × List Char) : α × List Char :=
  (part.1, part.2 ++ rest)

theorem digits_append (s : List Char) (hrest : Ends rest) :
    digits (s ++ rest) = behind rest (digits s) := by
  cases hdigits : digits s with
  | mk ds tail =>
    obtain ⟨rfl, hds, htail⟩ := digits_eq hdigits
    rw [List.append_assoc]
    apply ColorChain.Numeral.digits_append hds
    cases tail with
    | nil => exact hrest.not_digit
    | cons c tail => exact htail

theorem whole?_append (s : List Char) (hrest : Ends rest) :
    whole? (s ++ rest) = (whole? s).map (behind rest) := by
  unfold whole?
  rw [digits_append s hrest]
  cases digits s with
  | mk ds tail =>
    cases ds with
    | nil => rfl
    | cons d ds =>
      cases ds with
      | nil => simp [behind]
      | cons d' ds =>
        by_cases hd : d = '0'
        · subst hd
          rfl
        · simp [behind, hd]

theorem fraction?_of_ne {s : List Char} (h : ∀ c ∈ s.head?, c ≠ '.') :
    fraction? s = some ([], s) := by
  unfold fraction?
  split
  · exact absurd rfl (h '.' rfl)
  · rfl

theorem fraction?_append (s : List Char) (hrest : Ends rest) :
    fraction? (s ++ rest) = (fraction? s).map (behind rest) := by
  cases s with
  | nil => exact fraction?_of_ne (hrest.ne (by decide))
  | cons c s =>
    rw [List.cons_append]
    by_cases hc : c = '.'
    · subst hc
      simp only [fraction?]
      rw [digits_append s hrest]
      cases digits s with
      | mk ds tail => cases ds <;> rfl
    · have hne (t : List Char) : ∀ d ∈ (c :: t).head?, d ≠ '.' := by simpa using hc
      rw [fraction?_of_ne (hne _), fraction?_of_ne (hne _)]
      rfl

theorem power?_of_ne {s : List Char} (h : ∀ c ∈ s.head?, c ≠ 'e' ∧ c ≠ 'E') :
    power? s = some ((false, []), s) := by
  cases s with
  | nil => rfl
  | cons c s =>
    obtain ⟨he, hE⟩ := h c rfl
    simp [power?, he, hE]

/-- The digits of a power of ten whose sign was read. -/
def powerDigits? (negative : Bool) (s : List Char) : Option ((Bool × List Char) × List Char) :=
  match digits s with
  | ([], _) => none
  | (ds, rest) => some ((negative, ds), rest)

theorem powerDigits?_append (negative : Bool) (s : List Char) (hrest : Ends rest) :
    powerDigits? negative (s ++ rest) = (powerDigits? negative s).map (behind rest) := by
  unfold powerDigits?
  rw [digits_append s hrest]
  cases digits s with
  | mk ds tail => cases ds <;> rfl

/-- Behind the letter stands a sign, or the digits at once. -/
theorem power?_mark {c : Char} (hc : c = 'e' ∨ c = 'E') (s : List Char) :
    power? (c :: '-' :: s) = powerDigits? true s ∧ power? (c :: '+' :: s) = powerDigits? false s ∧
      ((∀ d ∈ s.head?, d ≠ '-' ∧ d ≠ '+') → power? (c :: s) = powerDigits? false s) := by
  have hmark : (c = 'e' || c = 'E') = true := by simpa using hc
  refine ⟨?_, ?_, ?_⟩
  · simp only [power?, hmark, if_true]
    rfl
  · simp only [power?, hmark, if_true]
    rfl
  · intro hsign
    cases s with
    | nil =>
      simp only [power?, hmark, if_true]
      rfl
    | cons d s =>
      obtain ⟨hminus, hplus⟩ := hsign d rfl
      simp only [power?, hmark, if_true, List.cons.injEq, hminus, hplus, false_and, imp_self,
        implies_true]
      rfl

theorem power?_append (s : List Char) (hrest : Ends rest) :
    power? (s ++ rest) = (power? s).map (behind rest) := by
  cases s with
  | nil => exact power?_of_ne fun c hc => ⟨hrest.ne (by decide) c hc, hrest.ne (by decide) c hc⟩
  | cons c s =>
    rw [List.cons_append]
    by_cases hc : c = 'e' ∨ c = 'E'
    · cases s with
      | nil =>
        -- What comes behind the number is not taken for the sign of its power.
        have hsign : ∀ d ∈ rest.head?, d ≠ '-' ∧ d ≠ '+' :=
          fun d hd => ⟨hrest.ne (by decide) d hd, hrest.ne (by decide) d hd⟩
        rw [List.nil_append, (power?_mark hc rest).2.2 hsign, (power?_mark hc []).2.2 (by simp)]
        exact powerDigits?_append false [] hrest
      | cons d s =>
        by_cases hminus : d = '-'
        · rw [hminus, List.cons_append, (power?_mark hc _).1, (power?_mark hc _).1]
          exact powerDigits?_append true s hrest
        · by_cases hplus : d = '+'
          · rw [hplus, List.cons_append, (power?_mark hc _).2.1, (power?_mark hc _).2.1]
            exact powerDigits?_append false s hrest
          · have hsign (t : List Char) : ∀ d' ∈ (d :: t).head?, d' ≠ '-' ∧ d' ≠ '+' := by
              simpa using ⟨hminus, hplus⟩
            rw [List.cons_append, (power?_mark hc _).2.2 (hsign _), (power?_mark hc _).2.2 (hsign _)]
            exact powerDigits?_append false (d :: s) hrest
    · rw [not_or] at hc
      have hne (t : List Char) : ∀ d ∈ (c :: t).head?, d ≠ 'e' ∧ d ≠ 'E' := by simpa using hc
      rw [power?_of_ne (hne _), power?_of_ne (hne _)]
      rfl

/-- The parts of a number behind its sign. -/
def unsigned? (negative : Bool) (s : List Char) : Option (Numeral × List Char) := do
  let (whole, s) ← whole? s
  let (fraction, s) ← fraction? s
  let (power, s) ← power? s
  return (⟨negative, whole, fraction, power, fraction.isEmpty && power.2.isEmpty⟩, s)

theorem unsigned?_append (negative : Bool) (s : List Char) (hrest : Ends rest) :
    unsigned? negative (s ++ rest) = (unsigned? negative s).map (behind rest) := by
  unfold unsigned?
  rw [whole?_append s hrest]
  cases whole? s with
  | none => rfl
  | some part =>
    simp only [Option.map_some, behind, Option.bind_eq_bind, Option.bind_some,
      fraction?_append part.2 hrest]
    cases fraction? part.2 with
    | none => rfl
    | some part =>
      simp only [Option.map_some, behind, Option.bind_some, power?_append part.2 hrest]
      cases power? part.2 <;> rfl

theorem scan?_of_ne {s : List Char} (h : ∀ c ∈ s.head?, c ≠ '-') :
    scan? s = unsigned? false s := by
  cases s with
  | nil => rfl
  | cons c s =>
    have hc := h c rfl
    simp only [scan?, List.cons.injEq, hc, false_and, imp_self, implies_true]
    rfl

/-- What is behind a number that ends there is left. -/
theorem scan?_append (s : List Char) (hrest : Ends rest) :
    scan? (s ++ rest) = (scan? s).map (behind rest) := by
  cases s with
  | nil =>
    rw [List.nil_append, scan?_of_ne (hrest.ne (by decide)), scan?_of_ne (by simp)]
    exact unsigned?_append false [] hrest
  | cons c s =>
    by_cases hc : c = '-'
    · subst hc
      exact unsigned?_append true s hrest
    · have hne (t : List Char) : ∀ d ∈ (c :: t).head?, d ≠ '-' := by simpa using hc
      rw [scan?_of_ne (hne _), List.cons_append, scan?_of_ne (hne _), ← List.cons_append]
      exact unsigned?_append false (c :: s) hrest

/-- A number starts with a sign or a digit. -/
theorem head_of_scan? {part : Numeral × List Char} (h : scan? s = some part) :
    ∃ c rest, s = c :: rest ∧ (c = '-' ∨ c.isDigit = true) := by
  cases s with
  | nil => cases h
  | cons c rest =>
    refine ⟨c, rest, rfl, ?_⟩
    by_contra hc
    rw [not_or] at hc
    have hdigits : digits (c :: rest) = ([], c :: rest) := by
      simp [digits, List.span_eq_takeWhile_dropWhile, hc.2]
    rw [scan?_of_ne (by simpa using hc.1), unsigned?, whole?, hdigits] at h
    cases h

/-- Digits are the whole part of a number without a fraction or a power of ten. -/
theorem unsigned?_decimalDigits (negative : Bool) (n : Nat) :
    unsigned? negative (decimalDigits n) =
      some (⟨negative, decimalDigits n, [], (false, []), true⟩, []) := by
  have hdigits : digits (decimalDigits n) = (decimalDigits n, []) := by
    have hall := @ColorChain.Numeral.digits_append (decimalDigits n) []
      isDigit_of_mem_decimalDigits (by simp)
    rw [List.append_nil] at hall
    exact hall
  have hwhole : whole? (decimalDigits n) = some (decimalDigits n, []) := by
    unfold whole?
    rw [hdigits]
    by_cases hzero : n = 0
    · rw [hzero, decimalDigits, Nat.toDigits_zero]
      rfl
    · have hhead := head_decimalDigits_ne (Nat.pos_of_ne_zero hzero)
      have hne : decimalDigits n ≠ [] := Nat.toDigits_ne_nil
      split
      · next heq => exact absurd (Prod.mk.inj heq).1 hne
      · next heq =>
        rw [(Prod.mk.inj heq).1] at hhead
        exact absurd rfl (hhead '0' rfl)
      · next heq =>
        cases heq
        rfl
  rw [unsigned?, hwhole]
  rfl

end Numeral
end Json

namespace JsonNumber

variable {n : Nat}

theorem readable_natural (hn : n < 2 ^ 64) : (natural n).Readable := by
  have hsign : ∀ c ∈ (decimalDigits n).head?, c ≠ '-' := by
    rintro c hc rfl
    have hdigit := isDigit_of_mem_decimalDigits '-' (List.mem_of_head? hc)
    cases hdigit
  unfold Readable read? Json.numberText
  rw [Json.Numeral.scan?_of_ne hsign, Json.Numeral.unsigned?_decimalDigits]
  have hvalue : (true && !false && decide (n < 2 ^ 64)) = true := by simpa using hn
  simp only [Option.bind_some, if_true, Json.Numeral.value?, ofDecimalDigits_decimalDigits]
  rw [if_pos hvalue]

theorem readable_negative (hn : n < 2 ^ 63) : (negative n).Readable := by
  have hscan : Json.Numeral.scan? ('-' :: decimalDigits (n + 1)) =
      Json.Numeral.unsigned? true (decimalDigits (n + 1)) := rfl
  unfold Readable read? Json.numberText
  rw [hscan, Json.Numeral.unsigned?_decimalDigits]
  have hvalue : (true && true && decide (0 < n + 1) && decide (n + 1 ≤ 2 ^ 63)) = true := by
    rw [decide_eq_true (Nat.succ_pos n), decide_eq_true (show n + 1 ≤ 2 ^ 63 from hn)]
    rfl
  simp only [Option.bind_some, if_true, Json.Numeral.value?, ofDecimalDigits_decimalDigits]
  rw [if_neg (by simp), if_pos hvalue, Nat.add_sub_cancel]

/-- A number that is read of a text alone is read of it in front of other text. -/
theorem scan_of_read? {n m : JsonNumber} (h : n.read? = some m) {rest : List Char}
    (hrest : Json.Ends rest) :
    ∃ numeral, Json.Numeral.scan? (Json.numberText n ++ rest) = some (numeral, rest) ∧
      numeral.value? = some m := by
  obtain ⟨⟨numeral, tail⟩, hscan, hvalue⟩ := Option.bind_eq_some_iff.mp h
  simp only at hvalue
  split at hvalue
  · next htail =>
    subst htail
    refine ⟨numeral, ?_, hvalue⟩
    rw [Json.Numeral.scan?_append _ hrest, hscan]
    rfl
  · cases hvalue

end JsonNumber
end ColorChain
