import ColorChain.Scalar

/-! Equal numbers.

Two numbers are equal when neither is a not-a-number and they are alike: the same, but for
the sign of a zero. Arithmetic takes alike numbers to alike ones, so what does not ask for
the sign of a zero is the same for equal numbers. -/
namespace ColorChain.Binary

variable {f g : Format}

/-- The same but for the sign of a zero. -/
def Alike (x y : Binary f) : Prop := x = y ∨ x.index = 0 ∧ y.index = 0

theorem Alike.refl (x : Binary f) : Alike x x := .inl rfl

theorem Alike.symm {x y : Binary f} (h : Alike x y) : Alike y x := by
  rcases h with rfl | ⟨hx, hy⟩
  · exact .refl x
  · exact .inr ⟨hy, hx⟩

theorem Alike.trans {x y z : Binary f} (h : Alike x y) (h' : Alike y z) : Alike x z := by
  rcases h with rfl | ⟨hx, hy⟩
  · exact h'
  · rcases h' with rfl | ⟨-, hz⟩
    · exact .inr ⟨hx, hy⟩
    · exact .inr ⟨hx, hz⟩

/-- Alike numbers stand at the same position, and no others do. -/
theorem alike_iff_position {x y : Binary f} : Alike x y ↔ x.position = y.position := by
  constructor
  · rintro (rfl | ⟨hx, hy⟩)
    · rfl
    · simp [position, hx, hy]
  · intro h
    unfold position at h
    by_cases hsign : x.negative = y.negative
    · refine .inl (ext hsign ?_)
      rw [hsign] at h
      split at h <;> omega
    · apply Or.inr
      cases hx : x.negative <;> cases hy : y.negative <;> simp [hx, hy] at h hsign <;> omega

theorem beq_iff {x y : Binary f} :
    (x == y) = true ↔ x.isNaN = false ∧ y.isNaN = false ∧ Alike x y := by
  show same x y = true ↔ _
  rw [alike_iff_position]
  simp [same, and_assoc]

theorem beq_symm {x y : Binary f} (h : (x == y) = true) : (y == x) = true := by
  obtain ⟨hx, hy, hxy⟩ := beq_iff.mp h
  exact beq_iff.mpr ⟨hy, hx, hxy.symm⟩

theorem beq_trans {x y z : Binary f} (h : (x == y) = true) (h' : (y == z) = true) :
    (x == z) = true := by
  obtain ⟨hx, -, hxy⟩ := beq_iff.mp h
  obtain ⟨-, hz, hyz⟩ := beq_iff.mp h'
  exact beq_iff.mpr ⟨hx, hz, hxy.trans hyz⟩

theorem beq_self {x : Binary f} (h : x.isNaN = false) : (x == x) = true :=
  beq_iff.mpr ⟨h, h, .refl x⟩

/-! ### Comparisons -/

variable {x y z : Binary f}

theorem Alike.index (h : Alike x y) : x.index = y.index := by
  rcases h with rfl | ⟨hx, hy⟩
  · rfl
  · rw [hx, hy]

theorem Alike.isZero (h : Alike x y) : x.isZero = y.isZero := by
  rw [Binary.isZero, Binary.isZero, h.index]

theorem Alike.isNaN (h : Alike x y) : x.isNaN = y.isNaN := by
  rw [Binary.isNaN, Binary.isNaN, h.index]

theorem Alike.isFinite (h : Alike x y) : x.isFinite = y.isFinite := by
  rw [Binary.isFinite, Binary.isFinite, h.index]

theorem Alike.lt_left (h : Alike x y) (z : Binary f) : x.lt z = y.lt z := by
  rw [lt, lt, h.isNaN, alike_iff_position.mp h]

theorem Alike.lt_right (h : Alike x y) (z : Binary f) : z.lt x = z.lt y := by
  rw [lt, lt, h.isNaN, alike_iff_position.mp h]

/-- A choice that alike numbers do not change leaves them alike. -/
theorem Alike.ite (h : Alike x y) (p : Prop) [Decidable p] (z : Binary f) :
    Alike (if p then z else x) (if p then z else y) := by
  split
  · exact .refl z
  · exact h

theorem not_isNaN_of_lt (h : x.lt y = true) : x.isNaN = false ∧ y.isNaN = false := by
  simp only [lt, Bool.and_eq_true, Bool.not_eq_true'] at h
  exact ⟨h.1.1, h.1.2⟩

theorem le_iff : x.le y = true ↔
    x.isNaN = false ∧ y.isNaN = false ∧ x.position ≤ y.position := by
  simp [le, and_assoc]

protected theorem le_trans (h : x.le y = true) (h' : y.le z = true) : x.le z = true := by
  obtain ⟨hx, -, hxy⟩ := le_iff.mp h
  obtain ⟨-, hz, hyz⟩ := le_iff.mp h'
  exact le_iff.mpr ⟨hx, hz, by omega⟩

theorem not_lt_of_le (h : x.le y = true) : y.lt x = false := by
  simp only [le, Bool.and_eq_true, decide_eq_true_eq] at h
  have hlt : ¬ y.position < x.position := by omega
  rw [lt, decide_eq_false hlt, Bool.and_false]

theorem index_lt_of_position {n : Nat} (hlow : -(n : Int) < x.position)
    (hhigh : x.position < n) : x.index < n := by
  unfold position at hlow hhigh
  by_cases hsign : x.negative = true
  · rw [if_pos hsign] at hlow
    omega
  · rw [if_neg hsign] at hhigh
    omega

/-- A finite number stands between the infinities. -/
theorem position_of_isFinite (h : x.isFinite = true) :
    -(f.infinityIndex : Int) < x.position ∧ x.position < f.infinityIndex := by
  have hindex : x.index < f.infinityIndex := of_decide_eq_true h
  unfold position
  split <;> omega

theorem beq_ite {p : Prop} [Decidable p] (h : (x == y) = true) (hz : p → z.isNaN = false) :
    ((if p then z else x) == (if p then z else y)) = true := by
  split
  · next hp => exact beq_self (hz hp)
  · exact h

/-! ### Arithmetic on zeros

The sign of a zero operand shows in the sign of a zero result, and nowhere else. -/

theorem units_zero (f : Format) : f.units 0 = 0 := by
  simp [Format.units]

theorem index_ofQuotient_zero (s : Bool) (den : Nat) :
    (ofQuotient s 0 den : Binary f).index = 0 := by
  have hindex : f.nearestIndex 0 den = 0 := by
    simp [Format.nearestIndex, roundHalfEven]
  simp [ofQuotient, hindex]

theorem not_isNaN_of_index (hx : x.index = 0) : x.isNaN = false := by
  simp [Binary.isNaN, hx]

/-- A format with exponent bits has finite numbers. -/
theorem not_isInfinite_of_index (hf : 0 < f.exponentBits) (hx : x.index = 0) :
    x.isInfinite = false := by
  have hexp : 1 < 2 ^ f.exponentBits := Nat.one_lt_two_pow (by omega)
  have hpos : 0 < f.infinityIndex := Nat.mul_pos (by omega) (Nat.two_pow_pos _)
  simp only [isInfinite, hx, beq_eq_false_iff_ne]
  omega

theorem Alike.mul_right (hf : 0 < f.exponentBits) (h : Alike x y) (z : Binary f) :
    Alike (x * z) (y * z) := by
  rcases h with rfl | ⟨hx, hy⟩
  · exact .refl _
  · show Alike (mul x z) (mul y z)
    simp only [mul, orNaN, not_isNaN_of_index hx, not_isNaN_of_index hy,
      not_isInfinite_of_index hf hx, not_isInfinite_of_index hf hy, Bool.false_eq_true, if_false]
    refine Alike.ite ?_ _ _
    have hzx : x.isZero = true := by simp [Binary.isZero, hx]
    have hzy : y.isZero = true := by simp [Binary.isZero, hy]
    by_cases hz : z.isInfinite = true
    · simp only [hz, hzx, hzy, Bool.or_true, Bool.true_or, if_true]
      exact .refl _
    · simp only [hz, Bool.or_false, Bool.false_eq_true, if_false, hx, hy, units_zero, Nat.zero_mul]
      exact .inr ⟨index_ofQuotient_zero _ _, index_ofQuotient_zero _ _⟩

theorem Alike.div_right (hf : 0 < f.exponentBits) (h : Alike x y) (z : Binary f) :
    Alike (x / z) (y / z) := by
  rcases h with rfl | ⟨hx, hy⟩
  · exact .refl _
  · show Alike (div x z) (div y z)
    have hzx : x.isZero = true := by simp [Binary.isZero, hx]
    have hzy : y.isZero = true := by simp [Binary.isZero, hy]
    simp only [div, orNaN, not_isNaN_of_index hx, not_isNaN_of_index hy,
      not_isInfinite_of_index hf hx, not_isInfinite_of_index hf hy, hzx, hzy, Bool.false_eq_true,
      if_false, if_true]
    refine Alike.ite ?_ _ _
    by_cases hz : z.isInfinite = true
    · simp only [hz, if_true]
      exact .inr ⟨rfl, rfl⟩
    · simp only [hz, Bool.false_eq_true, if_false, hx, hy, units_zero, Nat.zero_mul]
      exact Alike.ite (.inr ⟨index_ofQuotient_zero _ _, index_ofQuotient_zero _ _⟩) _ _

theorem Alike.round (hf : 0 < f.exponentBits) (h : Alike x y) : Alike x.round y.round := by
  rcases h with rfl | ⟨hx, hy⟩
  · exact .refl _
  · have hwhole : roundHalfUp 0 (2 ^ f.unitBits) = 0 := by
      have hunit : 0 < 2 ^ f.unitBits := Nat.two_pow_pos _
      exact Nat.div_eq_of_lt (by omega)
    simp only [Binary.round, not_isNaN_of_index hx, not_isNaN_of_index hy,
      not_isInfinite_of_index hf hx, not_isInfinite_of_index hf hy, Bool.false_eq_true, if_false,
      hx, hy, units_zero, hwhole, Nat.zero_mul]
    exact .inr ⟨index_ofQuotient_zero _ _, index_ofQuotient_zero _ _⟩

theorem Alike.convert (hf : 0 < f.exponentBits) (h : Alike x y) :
    Alike (x.convert : Binary g) y.convert := by
  rcases h with rfl | ⟨hx, hy⟩
  · exact .refl _
  · simp only [Binary.convert, not_isNaN_of_index hx, not_isNaN_of_index hy,
      not_isInfinite_of_index hf hx, not_isInfinite_of_index hf hy, Bool.false_eq_true, if_false,
      hx, hy, units_zero, Nat.zero_mul]
    exact .inr ⟨index_ofQuotient_zero _ _, index_ofQuotient_zero _ _⟩

theorem Alike.truncate (hf : 0 < f.exponentBits) (h : Alike x y) (low high : Int) :
    x.truncate low high = y.truncate low high := by
  rcases h with rfl | ⟨hx, hy⟩
  · rfl
  · simp only [Binary.truncate, not_isNaN_of_index hx, not_isNaN_of_index hy,
      not_isInfinite_of_index hf hx, not_isInfinite_of_index hf hy, Bool.false_eq_true, if_false,
      Binary.units, hx, hy, units_zero, Int.natCast_zero, Int.neg_zero, ite_self]

end ColorChain.Binary
