import ColorChain.Chain.Saved
import ColorChain.Proofs.Chain.Copy
import ColorChain.Proofs.Control.Exact
import ColorChain.Proofs.Decimal.Places

/-! Saved arguments.

Equal values are saved alike. A number without decimal places is saved as an integer, whose
bounds confine it, and any other as a double; both are read in double precision and then rounded
to a single. What is read is then what the control shows, as far as an integer holds it
(`Control.Suits.argument_saved`), and a value that is shown in full comes back
(`Control.Exact.returns_saved`). -/
namespace ColorChain

/-- Equal values are saved alike. -/
theorem Control.saved_beq (control : Control) {v w : ControlValue} (h : (v == w) = true) :
    control.saved v = control.saved w := by
  rcases ControlValue.beq_cases h with ⟨x, y, rfl, rfl, hxy⟩ | ⟨c, d, rfl, rfl, hcd⟩
  · have hrounded := Display.rounded_alike (Binary.beq_iff.mp hxy).2.2 control.precision
    unfold Control.saved
    simp only [hrounded]
  · unfold Control.saved
    simp only [Color.hexDigits_beq hcd]

/-! ### Integers -/

/-- A double that is a whole number, as a 64-bit integer. -/
theorem Binary.toWord64_eq {x : Double} {n : Nat} (hx : x.isFinite = true)
    (h : x.magnitude = n) :
    x.toWord64 = if x.negative then max (-2 ^ 63) (-(n : Int)) else min (2 ^ 63 - 1) (n : Int) := by
  rw [toWord64, truncate_whole hx h]
  split <;> omega

/-- The number of an integer has its value. -/
theorem Json.ofInt_eq (k : Int) : ∃ n, ofInt k = .number n ∧ n.toDouble = .ofInt k := by
  unfold ofInt
  split
  · next hneg =>
    refine ⟨_, rfl, ?_⟩
    have hk : -(((-k - 1).toNat + 1 : Nat) : Int) = k := by omega
    rw [JsonNumber.toDouble, hk]
  · next hnonneg =>
    refine ⟨_, rfl, ?_⟩
    have hk : ((k.toNat : Nat) : Int) = k := by omega
    rw [JsonNumber.toDouble, hk]

/-- A double that is a whole number of 64 bits, or just beyond them, has the same value as an
integer. -/
theorem Json.ofInt_toWord64 {x : Double} {n : Nat} (hx : x.isFinite = true)
    (h : x.magnitude = n) (hn : n ≤ 2 ^ 63) (hsign : x.negative = true → n ≠ 0) :
    ∃ m, ofInt x.toWord64 = .number m ∧ m.toDouble = .nearest x.negative n := by
  obtain ⟨m, hm, hdouble⟩ := ofInt_eq x.toWord64
  refine ⟨m, hm, hdouble.trans ?_⟩
  rw [Binary.toWord64_eq hx h]
  cases hnegative : x.negative with
  | false =>
    simp only [Bool.false_eq_true, if_false]
    have hnearest : (Binary.ofInt n : Double) = .nearest false n := by
      have hnonneg : ¬ (n : Int) < 0 := by omega
      simpa [hnonneg] using Binary.ofInt_eq_nearest n
    rcases Nat.lt_or_eq_of_le hn with hlt | rfl
    · rw [min_eq_right (by omega), hnearest]
    · -- The greatest integer is rounded up to the bound.
      rw [← hnearest]
      decide +kernel
  | true =>
    simp only [if_true]
    have hpos : 0 < n := Nat.pos_of_ne_zero (hsign hnegative)
    rw [max_eq_right (by omega), Binary.ofInt_eq_nearest]
    simp [hpos]

/-- A double that is a whole number beyond 64 bits is confined to their bounds. -/
theorem Json.ofInt_beyond {x : Double} {n : Nat} (hx : x.isFinite = true) (h : x.magnitude = n)
    (hn : 2 ^ 63 < n) :
    ∃ m, ofInt x.toWord64 = .number m ∧ m.toDouble = .nearest x.negative (2 ^ 63) := by
  obtain ⟨m, hm, hdouble⟩ := ofInt_eq x.toWord64
  refine ⟨m, hm, hdouble.trans ?_⟩
  rw [Binary.toWord64_eq hx h]
  cases x.negative with
  | false =>
    simp only [Bool.false_eq_true, if_false]
    rw [min_eq_left (by omega)]
    decide +kernel
  | true =>
    simp only [if_true]
    rw [max_eq_left (by omega)]
    decide +kernel

/-- The bound of 64 bits is a single. -/
theorem Binary.convert_wordBound : ∀ negative,
    (nearest negative (2 ^ 63) : Double).convert = (nearest negative (2 ^ 63) : Single) ∧
      (nearest negative (2 ^ 63) : Single).isFinite = true := by decide +kernel

/-! ### Saved values -/

/-- A number that is displayed without decimal places is a whole number. -/
theorem Display.rounded_whole {x : Single} {p : UInt32} (hnone : p = 0) (hx : x.isFinite = true) :
    (rounded x p).magnitude = places x p ∧
      rounded x p = .nearest (rounded x p).negative (places x p) := by
  have hp : p.toNat ≤ 15 := by simp [hnone]
  have hten : (10 : Rat) ^ p.toNat = 1 := by rw [hnone, UInt32.toNat_zero, pow_zero]
  have hrounded := rounded_eq (le_maxPlaces hp) hx
  rw [hten, div_one, ← negative_rounded hp hx] at hrounded
  refine ⟨?_, hrounded⟩
  rw [hrounded]
  exact magnitude_nearest_places hp hx _

namespace Control

variable {control : Control} {v : ControlValue} {x : Single}

/-- What is saved of a number is one with the displayed double. -/
theorem saved_number (hx : x.isFinite = true) (hp : control.precision.toNat ≤ 15)
    (h : ¬ control.Overflows (.number x)) :
    ∃ n, control.saved (.number x) = .number n ∧
      n.toDouble = Display.rounded x control.precision := by
  have hfinite := Display.isFinite_rounded hp hx
  unfold saved
  simp only
  split
  · next hnone =>
    obtain ⟨hmagnitude, hrounded⟩ := Display.rounded_whole hnone hx
    obtain ⟨n, hn, hdouble⟩ := Json.ofInt_toWord64 hfinite hmagnitude
      (not_lt.mp fun hbeyond => h ⟨hnone, hbeyond⟩) (by rw [Display.negative_rounded hp hx]; simp)
    exact ⟨n, hn, hdouble.trans hrounded.symm⟩
  · refine ⟨.real (Display.rounded x control.precision), ?_, rfl⟩
    rw [Json.ofDouble, hfinite, if_pos rfl]

/-- What is saved of a number beyond 64 bits is their bound. -/
theorem saved_beyond (hx : x.isFinite = true) (h : control.Overflows (.number x)) :
    ∃ n, control.saved (.number x) = .number n ∧ n.toDouble = .nearest x.negative (2 ^ 63) := by
  obtain ⟨hnone, hbeyond⟩ := h
  have hp : control.precision.toNat ≤ 15 := by simp [hnone]
  have hne : Display.places x control.precision ≠ 0 := by omega
  have hsign := Display.negative_rounded hp hx
  rw [decide_eq_true hne, Bool.and_true] at hsign
  obtain ⟨hmagnitude, -⟩ := Display.rounded_whole hnone hx
  rw [← hsign]
  unfold saved
  simp only [if_pos hnone]
  exact Json.ofInt_beyond (Display.isFinite_rounded hp hx) hmagnitude hbeyond

end Control

/-! ### Values that come back -/

/-- A finite number is read as it is. -/
theorem SavedFilter.argument_number {control : Control} {n : JsonNumber} {x : Single} (id : String)
    (hkind : control.isColor = false) (hn : n.toDouble.convert = x) (hx : x.isFinite = true) :
    argument id control (.number n) = .ok (.number x) := by
  have hread : number? (.number n) = some x := by
    simp only [number?, hn, hx, if_true]
  rw [argument, hkind]
  simp only [hread]
  rfl

/-- A saved colour is read as the one that its bytes stand for. -/
theorem SavedFilter.argument_color {control : Control} (id : String)
    (hkind : control.isColor = true) (c : Color) :
    argument id control (control.saved (.color c)) = .ok (.color c.rounded) := by
  have hread : color? (control.saved (.color c)) = some c.rounded := c.ofHex?_marked
  rw [argument, hkind]
  simp only [hread]
  rfl

/-- **What is read of a saved value** is what its control shows of it, as far as an integer of 64
bits holds that where it is saved as one. -/
theorem Control.Suits.argument_saved {control : Control} {v : ControlValue}
    (h : control.Suits v) (hp : control.precision.toNat ≤ 15) (id : String) :
    SavedFilter.argument id control (control.saved v) = .ok (control.confined v) := by
  cases h with
  | @number x hkind hfinite =>
    by_cases hbeyond : control.Overflows (.number x)
    · obtain ⟨n, hsaved, hdouble⟩ := saved_beyond hfinite hbeyond
      obtain ⟨hconvert, hbound⟩ := Binary.convert_wordBound x.negative
      rw [confined, if_pos hbeyond, hsaved]
      rw [← hdouble] at hconvert
      exact SavedFilter.argument_number id hkind hconvert hbound
    · obtain ⟨n, hsaved, hdouble⟩ := saved_number hfinite hp hbeyond
      rw [confined_of_not_overflows hbeyond, hsaved]
      refine SavedFilter.argument_number id hkind ?_ (Display.isFinite_shown hp hfinite)
      rw [hdouble, Display.convert_rounded hp hfinite]
  | color hkind => exact SavedFilter.argument_color id hkind _

/-- **An exact value comes back from what is saved of it.** -/
theorem Control.Exact.returns_saved {control : Control} {v : ControlValue}
    (h : control.Exact v) (hsmall : ∀ range ∈ control.range?, range.Small) (id : String) :
    control.Returns v (SavedFilter.argument id control (control.saved v)) := by
  refine h.returns hsmall (fun v => SavedFilter.argument id control (control.saved v)) ?_ ?_
  · intro v w hvw
    rw [control.saved_beq hvw]
  · intro w hw hbeyond
    rw [hw.argument_saved ((precision_le hsmall).trans (by decide)) id,
      confined_of_not_overflows hbeyond]

end ColorChain
