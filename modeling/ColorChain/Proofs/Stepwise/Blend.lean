import ColorChain.Proofs.Stepwise.Yields
import ColorChain.Stepwise

/-! The blend modes on channels between zero and one.

Each mode is regular there and gives a number of moderate size (`Tame`). Two modes divide by a
channel, and both choose a constant where the divisor would be zero. Next to that place the
divisor is a multiple of the unit, so it is never rounded to zero, but the quotient may be
infinite: dodging takes the smaller of it and one, and burning takes it from one and the larger
of the difference and zero. -/
namespace ColorChain.Stepwise

open Binary Traced

variable {a b : Single}

/-- The mode is regular on the unit square, with results of moderate size. -/
def Tame (mode : Single → Single → Traced Single) : Prop :=
  ∀ a b, a.InUnit → b.InUnit → (mode a b).Yields (Within 32)

theorem tame_normal : Tame fun _ b => pure b := fun _ _ _ hb =>
  .pure (hb.within.mono (by decide))

theorem tame_multiply : Tame multiply := fun _ _ ha hb =>
  (Yields.mul ha.within hb.within (by decide)).relax (by decide)

theorem tame_additive : Tame fun a b => perform (.add a b) := fun _ _ ha hb =>
  (Yields.add ha.within hb.within (by decide)).relax (by decide)

theorem tame_subtract : Tame fun a b => perform (.sub a b) := fun _ _ ha hb =>
  (Yields.sub ha.within hb.within (by decide)).relax (by decide)

theorem tame_screen : Tame screen := by
  intro a b ha hb
  refine (Yields.sub within_one ha.within (by decide)).bind fun _ ha => ?_
  refine (Yields.sub within_one hb.within (by decide)).bind fun _ hb => ?_
  refine (Yields.mul ha hb (by decide)).bind fun _ hproduct => ?_
  exact (Yields.sub within_one hproduct (by decide)).relax (by decide)

theorem tame_overlay : Tame overlay := by
  intro a b ha hb
  refine Yields.ite (fun _ => ?_) (fun _ => ?_)
  · refine (Yields.mul within_two ha.within (by decide)).bind fun _ hdouble => ?_
    exact (Yields.mul hdouble hb.within (by decide)).relax (by decide)
  · refine (Yields.sub within_one ha.within (by decide)).bind fun _ ha => ?_
    refine (Yields.mul within_two ha (by decide)).bind fun _ hdouble => ?_
    refine (Yields.sub within_one hb.within (by decide)).bind fun _ hb => ?_
    refine (Yields.mul hdouble hb (by decide)).bind fun _ hproduct => ?_
    exact (Yields.sub within_one hproduct (by decide)).relax (by decide)

theorem tame_difference : Tame difference := by
  intro a b ha hb
  refine (Yields.sub ha.within hb.within (by decide)).bind fun _ hdifference => ?_
  exact (Yields.abs hdifference).relax (by decide)

theorem tame_dodge : Tame dodge := by
  intro a b ha hb
  refine Yields.ite (fun _ => .pure (within_one.mono (by decide))) fun hguard => ?_
  have hlt : b.rational < 1 := by
    rw [← not_le, ← rational_one]
    exact fun hle => hguard (le_iff_rational.mpr ⟨within_one.isNaN, hb.isNaN, hle⟩)
  -- Away from the guard the divisor is a positive number, however small.
  have hrest := within_sub within_one hb.within (by decide)
  have hpos : 0 < (1 - b).rational :=
    sub_pos within_one.isFinite hb.within.isFinite (by rw [rational_one]; exact hlt)
  have hquotient := div_rounds ha.within.isFinite hrest.isFinite hpos.ne'
  have hnonneg := hquotient.nonneg (div_nonneg ha.nonneg hpos.le)
  refine .step rfl hrest.isNaN ?_
  refine .step (isZero_of_rational hpos.ne') hquotient.isNaN ?_
  have hlower := inUnit_lower_one hquotient.isNaN hnonneg
  exact .within rfl (hlower.within.mono (by decide))

theorem tame_burn : Tame burn := by
  intro a b ha hb
  refine Yields.ite (fun _ => .pure (inUnit_zero.within.mono (by decide))) fun hguard => ?_
  have hpos : 0 < b.rational := by
    rw [← not_le, ← rational_ofNat_zero]
    exact fun hle => hguard (le_iff_rational.mpr ⟨hb.isNaN, isNaN_zero, hle⟩)
  have hrest := within_sub within_one ha.within (by decide)
  have hrest0 : 0 ≤ (1 - a).rational :=
    (sub_rounds within_one.isFinite ha.within.isFinite).nonneg
      (by rw [rational_one]; linarith [ha.le_one])
  have hquotient := div_rounds hrest.isFinite hb.within.isFinite hpos.ne'
  have hnonneg := hquotient.nonneg (div_nonneg hrest0 hpos.le)
  -- The quotient may be infinite, and one less it is a number all the same.
  obtain ⟨hnan, hle⟩ := sub_le within_one.isFinite (by rw [rational_one]; exact zero_le_one)
    hquotient.isNaN hnonneg
  rw [rational_one] at hle
  refine .step rfl hrest.isNaN ?_
  refine .step (isZero_of_rational hpos.ne') hquotient.isNaN ?_
  refine .step rfl hnan ?_
  have hupper := inUnit_upper_zero hnan hle
  exact .within rfl (hupper.within.mono (by decide))

theorem tame_darken : Tame fun a b => perform (.lower a b) := fun _ _ ha hb =>
  .within rfl ((ha.lower hb).within.mono (by decide))

theorem tame_lighten : Tame fun a b => perform (.upper a b) := fun _ _ ha hb =>
  .within rfl ((ha.upper hb).within.mono (by decide))

theorem channelWord_regular (ha : a.InUnit) : (channelWord a).Yields fun _ => True := by
  refine (Yields.mul ha.within within_byte (by decide)).bind fun _ hscaled => ?_
  exact (Yields.add hscaled within_half (by decide)).bind fun _ _ => .pure trivial

theorem tame_xor : Tame xorChannels := by
  intro a b ha hb
  refine (channelWord_regular ha).bind fun v _ => ?_
  refine (channelWord_regular hb).bind fun w _ => ?_
  have hword : Within 31 (ofInt (v ^^^ w).toInt) := within_ofInt (by decide) (by
    have hlow := (v ^^^ w).le_toInt
    have hhigh := (v ^^^ w).toInt_lt
    exact abs_le.mpr ⟨by simpa using hlow, by simpa using hhigh.le⟩)
  refine (Yields.within (o := .ofInt _) rfl hword).bind fun _ hvalue => ?_
  exact (Yields.div hvalue within_byte.isFinite (one_le_ofNat (by decide) (by decide))
    (by decide)).relax (by decide)

theorem tame_negation : Tame negation := by
  intro a b ha hb
  refine (Yields.sub within_one ha.within (by decide)).bind fun _ hrest => ?_
  refine (Yields.sub hrest hb.within (by decide)).bind fun _ hdifference => ?_
  refine (Yields.abs hdifference).bind fun _ hdistance => ?_
  exact (Yields.sub within_one hdistance (by decide)).relax (by decide)

theorem tame_modes : ∀ mode ∈ modes, Tame mode := by
  simp only [modes, List.forall_mem_cons]
  exact ⟨tame_normal, tame_multiply, tame_additive, tame_subtract, tame_screen, tame_overlay,
    tame_difference, tame_dodge, tame_burn, tame_darken, tame_lighten, tame_xor, tame_negation,
    List.forall_mem_nil _⟩

end ColorChain.Stepwise
