import ColorChain.Decimal.Shortest
import ColorChain.Proofs.Binary.Blur
import ColorChain.Proofs.Binary.Gap
import Mathlib.Algebra.Order.Field.Power

/-! What the shortest decimal is near to.

The shortest decimal of a magnitude lies between the midpoints to its neighbours: the search tries
only numbers that read back, and eighteen digits are always enough for one (`ofIndex_spec`). A
decimal strictly between the midpoints stops the search at its own grid at the latest
(`le_exponent_ofIndex`), so a number made from few digits is written with as few
(`Binary.le_exponent_of_few`). -/
namespace ColorChain

/-- The value of a decimal without its sign. -/
def Decimal.magnitude (d : Decimal) : Rat := d.coefficient * 10 ^ d.exponent

theorem ten_zpow_pos (e : Int) : (0 : Rat) < 10 ^ e := zpow_pos (by norm_num) e

theorem Decimal.magnitude_nonneg (d : Decimal) : 0 ≤ d.magnitude :=
  mul_nonneg (by positivity) (ten_zpow_pos _).le

/-- A power of ten as a fraction. -/
theorem ten_zpow_mul (e : Int) : (10 : Rat) ^ e * 10 ^ (-e).toNat = 10 ^ e.toNat := by
  rw [← zpow_natCast, ← zpow_natCast, ← zpow_add₀ (by norm_num)]
  congr 1
  omega

namespace Shortest

variable (f : Format) {n c : Nat} {e : Int}

/-! ### The interval -/

theorem scaled_midpoint (k : Nat) (e : Int) :
    (((f.units k + f.units (k + 1)) * 10 ^ (-e).toNat : Nat) : Rat) =
      f.midpoint k * (2 ^ (f.unitBits + 1) * 10 ^ (-e).toNat) := by
  unfold Format.midpoint
  push_cast
  rw [← f.value_mul_unit k, ← f.value_mul_unit (k + 1)]
  ring

theorem scaled_decimal (c : Nat) (e : Int) :
    ((c * 10 ^ e.toNat * 2 ^ (f.unitBits + 1) : Nat) : Rat) =
      c * 10 ^ e * (2 ^ (f.unitBits + 1) * 10 ^ (-e).toNat) := by
  push_cast
  rw [← ten_zpow_mul e]
  ring

/-- What reads back is between the midpoints. -/
theorem between_of_reads (h : reads f (n + 1) c e = true) :
    f.midpoint n ≤ c * 10 ^ e ∧ (c * 10 ^ e : Rat) ≤ f.midpoint (n + 1) := by
  have hscale : (0 : Rat) < 2 ^ (f.unitBits + 1) * 10 ^ (-e).toNat := by positivity
  have hsides : (f.units n + f.units (n + 1)) * 10 ^ (-e).toNat ≤
        c * 10 ^ e.toNat * 2 ^ (f.unitBits + 1) ∧
      c * 10 ^ e.toNat * 2 ^ (f.unitBits + 1) ≤
        (f.units (n + 1) + f.units (n + 1 + 1)) * 10 ^ (-e).toNat := by
    simp only [reads, interval, Nat.add_sub_cancel] at h
    split at h
    · simpa using h
    · simp only [Bool.and_eq_true, decide_eq_true_eq] at h
      exact ⟨h.1.le, h.2.le⟩
  obtain ⟨hlow, hhigh⟩ := hsides
  have hlow' := (Nat.cast_le (α := Rat)).mpr hlow
  have hhigh' := (Nat.cast_le (α := Rat)).mpr hhigh
  rw [scaled_midpoint, scaled_decimal] at hlow' hhigh'
  exact ⟨le_of_mul_le_mul_right hlow' hscale, le_of_mul_le_mul_right hhigh' hscale⟩

/-- What is strictly between the midpoints reads back. -/
theorem reads_of_between (hlow : f.midpoint n < c * 10 ^ e)
    (hhigh : (c * 10 ^ e : Rat) < f.midpoint (n + 1)) : reads f (n + 1) c e = true := by
  have hscale : (0 : Rat) < 2 ^ (f.unitBits + 1) * 10 ^ (-e).toNat := by positivity
  have hlow' := mul_lt_mul_of_pos_right hlow hscale
  have hhigh' := mul_lt_mul_of_pos_right hhigh hscale
  rw [← scaled_midpoint, ← scaled_decimal, Nat.cast_lt] at hlow'
  rw [← scaled_midpoint, ← scaled_decimal, Nat.cast_lt] at hhigh'
  simp only [reads, interval, Nat.add_sub_cancel]
  split
  · simpa using ⟨hlow'.le, hhigh'.le⟩
  · simpa using ⟨hlow', hhigh'⟩

theorem midpoint_lt_value (n : Nat) : f.midpoint n < f.value (n + 1) := by
  have hlt : f.value n < f.value (n + 1) := f.value_strictMono (Nat.lt_succ_self n)
  unfold Format.midpoint
  linarith

theorem value_lt_midpoint (n : Nat) : f.value n < f.midpoint n := by
  have hlt : f.value n < f.value (n + 1) := f.value_strictMono (Nat.lt_succ_self n)
  unfold Format.midpoint
  linarith

/-! ### Candidates -/

/-- The magnitude in whole steps of a grid. -/
def below (n : Nat) (e : Int) : Nat :=
  f.units n * 10 ^ (-e).toNat / (2 ^ f.unitBits * 10 ^ e.toNat)

theorem below_spec (n : Nat) (e : Int) :
    (below f n e * 10 ^ e : Rat) ≤ f.value n ∧ f.value n < (below f n e + 1) * 10 ^ e := by
  have hden : 0 < 2 ^ f.unitBits * 10 ^ e.toNat := by positivity
  have hlow := Nat.div_mul_le_self (f.units n * 10 ^ (-e).toNat) (2 ^ f.unitBits * 10 ^ e.toNat)
  have hhigh := Nat.lt_div_mul_add (a := f.units n * 10 ^ (-e).toNat) hden
  have hscale : (0 : Rat) < 2 ^ f.unitBits * 10 ^ (-e).toNat := by positivity
  have hnum : ((f.units n * 10 ^ (-e).toNat : Nat) : Rat) =
      f.value n * (2 ^ f.unitBits * 10 ^ (-e).toNat) := by
    push_cast
    rw [← f.value_mul_unit n]
    ring
  have hstep : ((2 ^ f.unitBits * 10 ^ e.toNat : Nat) : Rat) =
      10 ^ e * (2 ^ f.unitBits * 10 ^ (-e).toNat) := by
    push_cast
    rw [← ten_zpow_mul e]
    ring
  have hlow' := (Nat.cast_le (α := Rat)).mpr hlow
  have hhigh' := (Nat.cast_lt (α := Rat)).mpr hhigh
  rw [hnum, Nat.cast_mul (_ / _), hstep] at hlow'
  rw [hnum, Nat.cast_add, Nat.cast_mul (_ / _), hstep] at hhigh'
  refine ⟨?_, ?_⟩
  · refine le_of_mul_le_mul_right ?_ hscale
    rw [mul_assoc]
    exact hlow'
  · refine lt_of_mul_lt_mul_right ?_ hscale.le
    calc f.value n * (2 ^ f.unitBits * 10 ^ (-e).toNat)
        < below f n e * (10 ^ e * (2 ^ f.unitBits * 10 ^ (-e).toNat)) +
            10 ^ e * (2 ^ f.unitBits * 10 ^ (-e).toNat) := hhigh'
      _ = (below f n e + 1) * 10 ^ e * (2 ^ f.unitBits * 10 ^ (-e).toNat) := by ring

/-- The two steps around the magnitude are tried, the nearer first. -/
theorem candidate_eq (tie : Tie) (n : Nat) (e : Int) :
    candidate f tie n e = [below f n e, below f n e + 1].find? (reads f n · e) ∨
      candidate f tie n e = [below f n e + 1, below f n e].find? (reads f n · e) := by
  unfold candidate
  dsimp only
  split
  · exact .inr rfl
  · exact .inl rfl

theorem reads_of_candidate {tie : Tie} (h : candidate f tie n e = some c) :
    reads f n c e = true := by
  rcases candidate_eq f tie n e with heq | heq
  · have hfind := List.find?_some (p := fun c => reads f n c e) (heq.symm.trans h)
    exact hfind
  · have hfind := List.find?_some (p := fun c => reads f n c e) (heq.symm.trans h)
    exact hfind

theorem candidate_isSome {tie : Tie}
    (h : reads f n (below f n e) e = true ∨ reads f n (below f n e + 1) e = true) :
    (candidate f tie n e).isSome = true := by
  have hsome : ∀ order : List Nat, below f n e ∈ order → below f n e + 1 ∈ order →
      (order.find? (reads f n · e)).isSome = true := by
    intro order hbelow habove
    rw [List.find?_isSome]
    exact h.elim (fun h => ⟨_, hbelow, h⟩) fun h => ⟨_, habove, h⟩
  rcases candidate_eq f tie n e with heq | heq
  · rw [heq]
    exact hsome _ (by simp) (by simp)
  · rw [heq]
    exact hsome _ (by simp) (by simp)

/-- A grid with a decimal strictly between the midpoints has a candidate: one of the two that
enclose the magnitude is no farther. -/
theorem candidate_of_between (tie : Tie) (hlow : f.midpoint n < c * 10 ^ e)
    (hhigh : (c * 10 ^ e : Rat) < f.midpoint (n + 1)) :
    (candidate f tie (n + 1) e).isSome = true := by
  obtain ⟨hbelow, habove⟩ := below_spec f (n + 1) e
  have hgrid := ten_zpow_pos e
  apply candidate_isSome
  rcases Nat.lt_or_ge (below f (n + 1) e) c with hlt | hge
  · apply Or.inr
    have hle : ((below f (n + 1) e + 1 : Nat) : Rat) * 10 ^ e ≤ c * 10 ^ e :=
      mul_le_mul_of_nonneg_right (by exact_mod_cast hlt) hgrid.le
    refine reads_of_between f ?_ (hle.trans_lt hhigh)
    push_cast
    exact (midpoint_lt_value f n).trans habove
  · apply Or.inl
    have hle : (c : Rat) * 10 ^ e ≤ below f (n + 1) e * 10 ^ e :=
      mul_le_mul_of_nonneg_right (by exact_mod_cast hge) hgrid.le
    exact reads_of_between f (hlow.trans_le hle)
      (hbelow.trans_lt (value_lt_midpoint f (n + 1)))

/-! ### The first digit -/

theorem length_decimalDigits {m : Nat} (hm : 0 < m) :
    10 ^ ((decimalDigits m).length - 1) ≤ m ∧ m < 10 ^ (decimalDigits m).length := by
  have hpos : 0 < (decimalDigits m).length := List.length_pos_of_ne_nil Nat.toDigits_ne_nil
  refine ⟨?_, (Nat.length_toDigits_le_iff (by omega) hpos).mp le_rfl⟩
  by_cases hone : (decimalDigits m).length = 1
  · rw [hone]
    exact hm
  · by_contra hlt
    have hle := (Nat.length_toDigits_le_iff (b := 10) (by omega)
      (show 0 < (decimalDigits m).length - 1 by omega)).mpr (not_le.mp hlt)
    have hlen : (Nat.toDigits 10 m).length = (decimalDigits m).length := rfl
    omega

/-- A number whose whole part has so many digits. -/
theorem leading_of_whole {q : Rat} {m : Nat} (hm : 0 < m) (hlow : (m : Rat) ≤ q)
    (hhigh : q < m + 1) :
    (10 : Rat) ^ (((decimalDigits m).length : Int) - 1) ≤ q ∧
      q < 10 ^ (((decimalDigits m).length : Int) - 1 + 1) := by
  obtain ⟨hle, hlt⟩ := length_decimalDigits hm
  have hpos : 0 < (decimalDigits m).length := List.length_pos_of_ne_nil Nat.toDigits_ne_nil
  have hexp : ((decimalDigits m).length : Int) - 1 = ((decimalDigits m).length - 1 : Nat) := by
    omega
  rw [sub_add_cancel, hexp, zpow_natCast, zpow_natCast]
  refine ⟨le_trans (by exact_mod_cast hle) hlow, hhigh.trans_le ?_⟩
  exact_mod_cast hlt

theorem leading_spec (hn : 0 < n) :
    (10 : Rat) ^ leading f n ≤ f.value n ∧ f.value n < 10 ^ (leading f n + 1) := by
  have hunit : 0 < 2 ^ f.unitBits := Nat.two_pow_pos _
  have hpow : (0 : Rat) < 2 ^ f.unitBits := by positivity
  have hfloor (parts : Nat) : ((f.units n * parts / 2 ^ f.unitBits : Nat) : Rat) ≤
        f.value n * parts ∧
      f.value n * parts < (f.units n * parts / 2 ^ f.unitBits : Nat) + 1 := by
    have hlow := Nat.div_mul_le_self (f.units n * parts) (2 ^ f.unitBits)
    have hhigh := Nat.lt_div_mul_add (a := f.units n * parts) hunit
    have hlow' := (Nat.cast_le (α := Rat)).mpr hlow
    have hhigh' := (Nat.cast_lt (α := Rat)).mpr hhigh
    push_cast at hlow' hhigh'
    rw [← f.value_mul_unit n] at hlow' hhigh'
    generalize ((f.units n * parts / 2 ^ f.unitBits : Nat) : Rat) = m at *
    refine ⟨?_, ?_⟩
    · refine le_of_mul_le_mul_right ?_ hpow
      linarith
    · refine lt_of_mul_lt_mul_right ?_ hpow.le
      linarith
  unfold leading
  simp only
  split
  · next hwhole =>
    obtain ⟨hlow, hhigh⟩ := hfloor 1
    simp only [Nat.cast_one, mul_one] at hlow hhigh
    exact leading_of_whole (Nat.pos_of_ne_zero hwhole) hlow hhigh
  · obtain ⟨hlow, hhigh⟩ := hfloor (10 ^ f.unitBits)
    have hpos : 0 < f.units n * 10 ^ f.unitBits / 2 ^ f.unitBits := by
      apply Nat.div_pos _ hunit
      calc 2 ^ f.unitBits ≤ 10 ^ f.unitBits := Nat.pow_le_pow_left (by omega) _
        _ ≤ f.units n * 10 ^ f.unitBits := Nat.le_mul_of_pos_left _ (f.units_pos hn)
    obtain ⟨hle, hlt⟩ := leading_of_whole hpos hlow hhigh
    generalize ((decimalDigits (f.units n * 10 ^ f.unitBits / 2 ^ f.unitBits)).length : Int) - 1 =
      first at *
    have hten : (0 : Rat) < 10 ^ f.unitBits := by positivity
    push_cast at hle hlt
    have hshift : first - f.unitBits + 1 = first + 1 - f.unitBits := by ring
    rw [hshift, zpow_sub₀ (by norm_num), zpow_sub₀ (by norm_num), zpow_natCast]
    exact ⟨(div_le_iff₀ hten).mpr hle, (lt_div_iff₀ hten).mpr hlt⟩

/-! ### The search -/

/-- The search ends at the first grid with a candidate, if its steps lead that far. -/
theorem search_spec (tie : Tie) {steps fuel : Nat} (hfuel : steps < fuel)
    (h : (candidate f tie n (e - steps)).isSome = true) :
    (search f tie n e fuel).negative = false ∧
      e - steps ≤ (search f tie n e fuel).exponent ∧
      reads f n (search f tie n e fuel).coefficient (search f tie n e fuel).exponent = true := by
  induction fuel generalizing e steps with
  | zero => omega
  | succ fuel ih =>
    rw [search]
    cases hcandidate : candidate f tie n e with
    | some c =>
      refine ⟨rfl, ?_, reads_of_candidate f hcandidate⟩
      show e - steps ≤ e
      omega
    | none =>
      cases steps with
      | zero =>
        rw [Nat.cast_zero, sub_zero, hcandidate] at h
        cases h
      | succ steps =>
        have hnext : e - (steps + 1 : Nat) = e - 1 - steps := by push_cast; ring
        rw [hnext] at h ⊢
        exact ih (by omega) h

/-- Zeros at the end of a coefficient may as well stand in the exponent. -/
theorem strip_spec (d : Decimal) (fuel : Nat) :
    (strip d fuel).negative = d.negative ∧ (strip d fuel).magnitude = d.magnitude ∧
      d.exponent ≤ (strip d fuel).exponent := by
  induction fuel generalizing d with
  | zero => exact ⟨rfl, rfl, le_rfl⟩
  | succ fuel ih =>
    rw [strip]
    split
    · next hzero =>
      obtain ⟨hnegative, hmagnitude, hexponent⟩ :=
        ih { d with coefficient := d.coefficient / 10, exponent := d.exponent + 1 }
      refine ⟨hnegative, hmagnitude.trans ?_, ?_⟩
      · simp only [Bool.and_eq_true, decide_eq_true_eq] at hzero
        have hcoefficient : d.coefficient = d.coefficient / 10 * 10 := by omega
        have hcast : (d.coefficient : Rat) = (d.coefficient / 10 : Nat) * 10 := by
          exact_mod_cast hcoefficient
        unfold Decimal.magnitude
        rw [hcast, zpow_add₀ (by norm_num), zpow_one]
        ring
      · exact le_trans (by simp) hexponent
    · exact ⟨rfl, rfl, le_rfl⟩

/-- With eighteen digits some decimal reads back, if the magnitude is a whole number of fifty-three
bits times a power of two. -/
theorem candidate_leading (tie : Tie) (hf : f.fractionBits ≤ 52) :
    (candidate f tie (n + 1) (leading f (n + 1) - 17)).isSome = true := by
  obtain ⟨hlow, -⟩ := leading_spec f (n := n + 1) (by omega)
  obtain ⟨hbelow, habove⟩ := below_spec f (n + 1) (leading f (n + 1) - 17)
  have hstep : (10 : Rat) ^ (leading f (n + 1) - 17) = 10 ^ leading f (n + 1) / 10 ^ 17 := by
    rw [zpow_sub₀ (by norm_num)]
    norm_num
  have hcoefficient : ((below f (n + 1) (leading f (n + 1) - 17) + 1 : Nat) : Rat) =
      below f (n + 1) (leading f (n + 1) - 17) + 1 := by push_cast; rfl
  refine candidate_of_between f (c := below f (n + 1) (leading f (n + 1) - 17) + 1) tie ?_ ?_
  · rw [hcoefficient]
    exact (midpoint_lt_value f n).trans habove
  · rw [hcoefficient]
    -- One step of the grid is less than half the gap above.
    have hgap := f.le_gap (n + 1)
    have hpow : (2 : Rat) ^ (f.fractionBits + 1) ≤ 2 ^ 53 :=
      pow_le_pow_right₀ (by norm_num) (by omega)
    have hlt : f.value (n + 1) < f.value (n + 1 + 1) := f.value_strictMono (Nat.lt_succ_self _)
    have hgap' : f.value (n + 1 + 1) ≤ 2 ^ 53 * (f.value (n + 1 + 1) - f.value (n + 1)) :=
      hgap.trans (mul_le_mul_of_nonneg_right hpow (sub_nonneg.mpr hlt.le))
    unfold Format.midpoint
    rw [add_mul, one_mul]
    rw [hstep] at hbelow ⊢
    linarith

variable {f}

/-- **The shortest decimal** lies between the midpoints to the neighbours, and has eighteen digits
at most. -/
theorem ofIndex_spec (tie : Tie) (hf : f.fractionBits ≤ 52) :
    (ofIndex f tie (n + 1)).negative = false ∧
      f.midpoint n ≤ (ofIndex f tie (n + 1)).magnitude ∧
      (ofIndex f tie (n + 1)).magnitude ≤ f.midpoint (n + 1) ∧
      leading f (n + 1) - 17 ≤ (ofIndex f tie (n + 1)).exponent := by
  obtain ⟨hnegative, hexponent, hreads⟩ :=
    @search_spec f (n + 1) (leading f (n + 1)) tie 17 20 (by omega) (candidate_leading f tie hf)
  obtain ⟨hlow, hhigh⟩ := between_of_reads f hreads
  rw [ofIndex, if_neg (Nat.succ_ne_zero n)]
  obtain ⟨hsign, hmagnitude, hle⟩ := strip_spec (search f tie (n + 1) (leading f (n + 1)) 20) 2
  rw [hmagnitude]
  exact ⟨hsign.trans hnegative, hlow, hhigh, hexponent.trans hle⟩

/-- A decimal strictly between the midpoints stops the search at its grid. -/
theorem le_exponent_ofIndex (tie : Tie) (hf : f.fractionBits ≤ 52) (he : e ≤ leading f (n + 1))
    (hlow : f.midpoint n < c * 10 ^ e) (hhigh : (c * 10 ^ e : Rat) < f.midpoint (n + 1)) :
    e ≤ (ofIndex f tie (n + 1)).exponent := by
  by_cases hfar : leading f (n + 1) - 17 ≤ e
  · obtain ⟨steps, hsteps⟩ : ∃ steps : Nat, e = leading f (n + 1) - steps :=
      ⟨(leading f (n + 1) - e).toNat, by omega⟩
    have hcandidate := candidate_of_between f tie hlow hhigh
    rw [hsteps] at hcandidate
    obtain ⟨-, hexponent, -⟩ :=
      @search_spec f (n + 1) (leading f (n + 1)) tie steps 20 (by omega) hcandidate
    rw [ofIndex, if_neg (Nat.succ_ne_zero n), hsteps]
    exact hexponent.trans (strip_spec _ 2).2.2
  · have hspec := (ofIndex_spec (n := n) tie hf).2.2.2
    omega

end Shortest

/-! ### Doubles of moderate size -/

namespace Binary

variable {x : Double} {tie : Tie}

/-- What the shortest decimal of a double is: one rounding away, and with few digits. -/
structure Spelled (x : Double) (d : Decimal) : Prop where
  negative : d.negative = x.negative
  pos : 0 < d.coefficient
  small : d.coefficient < 2 ^ 64
  near : Blurred 1 d.magnitude x.magnitude

theorem index_pos_of_magnitude (h : 0 < x.magnitude) : 0 < x.index := by
  have hzero := not_isZero_of_magnitude h
  simp only [isZero, beq_eq_false_iff_ne] at hzero
  omega

/-- The units of a double that is not very small. -/
theorem units_of_moderate (h : 1 / 2 ^ 60 ≤ x.magnitude) :
    2 ^ 54 < Format.double.units x.index := by
  have hbits : Format.double.unitBits = 60 + (55 + 959) := rfl
  have hunits : (2 : Rat) ^ 55 ≤ Format.double.units x.index := by
    have hone : 1 ≤ x.magnitude * 2 ^ 60 := by
      rw [div_le_iff₀ (by positivity)] at h
      exact h
    have hrest : (1 : Rat) ≤ 2 ^ 959 := one_le_pow₀ (by norm_num)
    rw [← Format.value_mul_unit, hbits, pow_add, pow_add, ← mul_assoc]
    refine le_trans ?_ (le_mul_of_one_le_left (by positivity) hone)
    exact le_mul_of_one_le_right (by positivity) hrest
  have hnat : 2 ^ 55 ≤ Format.double.units x.index := by exact_mod_cast hunits
  omega

theorem exists_index (h : 0 < x.magnitude) :
    ∃ n, x.index = n + 1 ∧ x.magnitude = Format.double.value (n + 1) ∧
      (x.shortest tie).magnitude = (Shortest.ofIndex .double tie (n + 1)).magnitude ∧
      (x.shortest tie).exponent = (Shortest.ofIndex .double tie (n + 1)).exponent := by
  obtain ⟨n, hn⟩ : ∃ n, x.index = n + 1 :=
    ⟨x.index - 1, (Nat.sub_add_cancel (index_pos_of_magnitude h)).symm⟩
  refine ⟨n, hn, ?_, ?_, ?_⟩
  · rw [magnitude, hn]
  · rw [shortest, hn]
    rfl
  · rw [shortest, hn]

/-- Both gaps next to the double are a part in `2 ^ 52` of it, so its shortest decimal is near. -/
theorem shortest_near (hlow : 1 / 2 ^ 60 ≤ x.magnitude) :
    |(x.shortest tie).magnitude - x.magnitude| ≤ x.magnitude / 2 ^ 53 := by
  obtain ⟨n, hn, hvalue, hshortest, -⟩ := @exists_index x tie (lt_of_lt_of_le (by norm_num) hlow)
  have hunits := units_of_moderate hlow
  obtain ⟨-, hbelow, habove, -⟩ := Shortest.ofIndex_spec (f := .double) (n := n) tie (by decide)
  rw [hn] at hunits
  have hnext : Format.double.units (n + 1) < Format.double.units (n + 1 + 1) :=
    Format.double.units_strictMono (Nat.lt_succ_self _)
  have hblock : 2 * 2 ^ Format.double.fractionBits = 2 ^ 53 := rfl
  have hlower := Format.double.gap_le (n := n) (by omega)
  have hupper := Format.double.gap_le (n := n + 1) (by omega)
  have hmono : Format.double.value n < Format.double.value (n + 1) :=
    Format.double.value_strictMono (Nat.lt_succ_self n)
  have hfraction : Format.double.fractionBits = 52 := rfl
  rw [hfraction] at hlower hupper
  rw [hshortest, hvalue, abs_le]
  unfold Format.midpoint at hbelow habove
  refine ⟨?_, ?_⟩
  · linarith
  · linarith

/-- The exponent is at most seventeen below that of the first digit. -/
theorem leading_le_exponent (h : 0 < x.magnitude) :
    ∃ e : Int, x.magnitude < 10 ^ (e + 1) ∧ e - 17 ≤ (x.shortest tie).exponent := by
  obtain ⟨n, -, hvalue, -, hexponent⟩ := @exists_index x tie h
  obtain ⟨-, -, -, hle⟩ := Shortest.ofIndex_spec (f := .double) (n := n) tie (by decide)
  obtain ⟨-, hlt⟩ := Shortest.leading_spec .double (n := n + 1) (by omega)
  exact ⟨Shortest.leading .double (n + 1), hvalue ▸ hlt, hexponent ▸ hle⟩

theorem shortest_spelled (hlow : 1 / 2 ^ 60 ≤ x.magnitude) : Spelled x (x.shortest tie) := by
  have hpos : 0 < x.magnitude := lt_of_lt_of_le (by norm_num) hlow
  have hnear := @shortest_near x tie hlow
  obtain ⟨hbelow, habove⟩ := abs_le.mp hnear
  refine ⟨rfl, ?_, ?_, .of_rounded hpos.le hnear⟩
  · by_contra hzero
    have hcoefficient : (x.shortest tie).coefficient = 0 := by omega
    rw [Decimal.magnitude, hcoefficient, Nat.cast_zero, zero_mul] at hbelow
    have hpart : x.magnitude / 2 ^ 53 < x.magnitude := div_lt_self hpos (by norm_num)
    linarith
  · obtain ⟨e, hlt, hexponent⟩ := @leading_le_exponent x tie hpos
    have hscale : (10 : Rat) ^ (e + 1) = 10 ^ 18 * 10 ^ (e - 17) := by
      rw [← zpow_natCast, ← zpow_add₀ (by norm_num)]
      congr 1
      push_cast
      ring
    rw [hscale] at hlt
    have hgrid := ten_zpow_pos (e - 17)
    have hpow : (10 : Rat) ^ (e - 17) ≤ 10 ^ (x.shortest tie).exponent :=
      zpow_le_zpow_right₀ (by norm_num) hexponent
    have hproduct : ((x.shortest tie).coefficient : Rat) * 10 ^ (e - 17) ≤
        (x.shortest tie).magnitude := mul_le_mul_of_nonneg_left hpow (by positivity)
    have hsmall : ((x.shortest tie).coefficient : Rat) < 2 ^ 64 := by
      refine lt_of_mul_lt_mul_right (lt_of_le_of_lt hproduct ?_) hgrid.le
      linarith
    exact_mod_cast hsmall

/-- A double made from few digits is written with as few: its exponent is not below theirs. -/
theorem le_exponent_of_few {k p : Nat} (hp : p ≤ 22) (hk : 0 < k) (hk' : k < 2 ^ 53)
    (negative : Bool) :
    -((p : Int) + 1) ≤ ((nearest negative (k / 10 ^ p) : Double).shortest tie).exponent := by
  have hten : (0 : Rat) < 10 ^ p := by positivity
  have hq : (0 : Rat) ≤ k / 10 ^ p := by positivity
  have hone : (1 : Rat) ≤ k := by exact_mod_cast hk
  have hlow : 1 / 2 ^ 74 ≤ (k : Rat) / 10 ^ p := by
    have hpow := ten_pow_lt hp
    rw [div_le_div_iff₀ (by positivity) hten, one_mul]
    linarith
  have hhigh : (k : Rat) / 10 ^ p < 2 ^ 53 := by
    have hcast : (k : Rat) < 2 ^ 53 := by exact_mod_cast hk'
    exact (div_le_self (by positivity) (one_le_pow₀ (by norm_num))).trans_lt hcast
  have hnear := blurred_nearest (hlow.trans' (by norm_num)) (hhigh.trans (by norm_num)) negative
  have hfinite := isFinite_double hq (hhigh.trans (by norm_num)) negative
  have hindex := index_nearest hfinite
  have hle : (k : Rat) / 10 ^ p ≤ (nearest negative (k / 10 ^ p) : Double).magnitude * 10 := by
    refine hnear.ge.trans (mul_le_mul_of_nonneg_left ?_ (magnitude_nonneg _))
    norm_num [blur]
  generalize (nearest negative (k / 10 ^ p) : Double) = x at *
  have hpos : 0 < x.magnitude := by
    have hqpos : (0 : Rat) < k / 10 ^ p := by positivity
    linarith
  obtain ⟨n, hn, hvalue, -, hexponent⟩ := @exists_index x tie hpos
  rw [hn] at hindex
  -- The decimal, as a multiple of the next smaller power of ten.
  have hgrid : ((10 * k : Nat) : Rat) * 10 ^ (-((p : Int) + 1)) = k / 10 ^ p := by
    rw [zpow_neg, zpow_add₀ (by norm_num), zpow_natCast, zpow_one]
    push_cast
    field_simp
  have hsmall : k < 2 ^ (Format.double.fractionBits + 1) := hk'
  have hunit : p ≤ Format.double.unitBits := hp.trans (by decide)
  have hbelow : Format.double.midpoint n < k / 10 ^ p :=
    lt_of_le_of_ne (Format.double.midpoint_le_of_nearestTo hq (by omega))
      (Format.double.midpoint_ne_decimal hsmall hunit)
  have habove : (k : Rat) / 10 ^ p < Format.double.midpoint (n + 1) :=
    lt_of_le_of_ne (Format.double.le_midpoint_of_nearestTo hq (by omega))
      (Format.double.midpoint_ne_decimal hsmall hunit).symm
  rw [← hgrid] at hbelow habove
  rw [hexponent]
  refine Shortest.le_exponent_ofIndex tie (by decide) ?_ hbelow habove
  obtain ⟨-, hlt⟩ := Shortest.leading_spec .double (n := n + 1) (by omega)
  rw [← hvalue] at hlt
  have hpower : (10 : Rat) ^ (-((p : Int) + 1)) ≤ x.magnitude := by
    rw [zpow_neg, zpow_add₀ (by norm_num), zpow_natCast, zpow_one]
    rw [div_le_iff₀ hten] at hle
    rw [inv_le_iff_one_le_mul₀ (by positivity)]
    linarith
  have hexp := (zpow_lt_zpow_iff_right₀ (by norm_num : (1 : Rat) < 10)).mp (hpower.trans_lt hlt)
  omega

end Binary
end ColorChain
