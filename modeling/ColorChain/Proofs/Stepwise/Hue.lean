import ColorChain.Proofs.Stepwise.Yields
import ColorChain.Stepwise

/-! Hues and back, on colours between zero and one.

A colour that is no grey has a largest and a smallest channel that differ, so their difference
is a positive number and so are both divisors of the saturation: each is no smaller than that
difference, and each channel difference is no larger (`Extremes`). What follows is regular because
all numbers are of moderate size. -/
namespace ColorChain.Stepwise

open Binary Traced

variable {d e : Nat}

/-! ### From hue, saturation and lightness -/

theorem fract_yields {x : Single} (hx : Within e x) (he : e < 63) :
    (fract x).Yields (Within (e + 1)) := by
  refine (Yields.floor hx (by omega)).bind fun _ hfloor => ?_
  refine (Yields.sub hx hfloor (by omega)).relax (by omega)

theorem turn_yields {t : Single} (ht : Within 15 t) : (turn t).Yields (Within 17) := by
  refine (Yields.ite (P := Within 16) (fun _ => ?_) (fun _ => ?_)).bind fun t ht => ?_
  · exact Yields.add ht within_one (by decide)
  · exact .pure (ht.mono (by decide))
  · refine Yields.ite (fun _ => ?_) (fun _ => ?_)
    · exact Yields.sub ht within_one (by decide)
    · exact .pure (ht.mono (by decide))

theorem channel_yields {p q t : Single} (hp : Within 3 p) (hq : Within 2 q) (ht : Within 15 t) :
    (channel p q t).Yields (Within 26) := by
  have hthirds : Within 0 (Scalar.ratio 2 3 : Single) :=
    within_ofRatio 2 (by decide) (by decide) (by decide)
  refine (turn_yields ht).bind fun t ht => ?_
  refine Yields.ite (fun _ => ?_) (fun _ => Yields.ite (fun _ => ?_) (fun _ => Yields.ite (fun _ => ?_)
    (fun _ => ?_)))
  · refine (Yields.sub hq hp (by decide)).bind fun _ hrange => ?_
    refine (Yields.mul hrange within_six (by decide)).bind fun _ hsixfold => ?_
    refine (Yields.mul hsixfold ht (by decide)).bind fun _ habove => ?_
    exact (Yields.add hp habove (by decide)).relax (by decide)
  · exact .pure (hq.mono (by decide))
  · refine (Yields.sub hq hp (by decide)).bind fun _ hrange => ?_
    refine (Yields.sub hthirds ht (by decide)).bind fun _ hrest => ?_
    refine (Yields.mul hrange hrest (by decide)).bind fun _ hscaled => ?_
    refine (Yields.mul hscaled within_six (by decide)).bind fun _ habove => ?_
    exact (Yields.add hp habove (by decide)).relax (by decide)
  · exact .pure (hp.mono (by decide))

theorem greatest_yields {s l : Single} (hs : s.InUnit) (hl : l.InUnit) :
    (greatest s l).Yields (Within 2) := by
  refine Yields.ite (fun _ => ?_) (fun _ => ?_)
  · refine (Yields.add within_one hs.within (by decide)).bind fun _ hfactor => ?_
    exact (Yields.mul hl.within hfactor (by decide)).relax (by decide)
  · refine (Yields.add hl.within hs.within (by decide)).bind fun _ hsum => ?_
    refine (Yields.mul hl.within hs.within (by decide)).bind fun _ hproduct => ?_
    exact Yields.sub hsum hproduct (by decide)

theorem toRgb_yields {c : Color} (hhue : Within 13 c.x) (hs : c.y.InUnit) (hl : c.z.InUnit) :
    (toRgb c).Yields (Vec3.All (Within 26)) := by
  have hthird : Within 0 (Scalar.ratio 1 3 : Single) :=
    within_ofRatio 1 (by decide) (by decide) (by decide)
  refine (fract_yields hhue (by decide)).bind fun hue hhue => ?_
  refine Yields.ite (fun _ => ?_) (fun _ => ?_)
  · have hgrey : Within 26 c.z := hl.within.mono (by decide)
    exact .pure ⟨hgrey, hgrey, hgrey⟩
  · refine (greatest_yields hs hl).bind fun q hq => ?_
    refine (Yields.mul within_two hl.within (by decide)).bind fun _ hdouble => ?_
    refine (Yields.sub hdouble hq (by decide)).bind fun p hp => ?_
    refine (Yields.add hhue hthird (by decide)).bind fun _ hbefore => ?_
    refine (Yields.sub hhue hthird (by decide)).bind fun _ hbehind => ?_
    refine (channel_yields hp hq hbefore).bind fun _ hx => ?_
    refine (channel_yields hp hq (hhue.mono (by decide))).bind fun _ hy => ?_
    exact (channel_yields hp hq hbehind).bind fun _ hz => .pure ⟨hx, hy, hz⟩

/-! ### To hue, saturation and lightness -/

/-- Two numbers of the unit range with all channels of a colour between them. -/
structure Extremes (c : Color) (largest smallest : Single) : Prop where
  inUnit_largest : largest.InUnit
  inUnit_smallest : smallest.InUnit
  channels : c.All fun a => a.isFinite = true ∧ smallest.rational ≤ a.rational ∧
    a.rational ≤ largest.rational

/-- The difference of two numbers of which the first is larger. -/
structure Range (largest smallest range : Single) : Prop where
  rounds : Rounds range (largest.rational - smallest.rational)
  within : Within 1 range
  pos : 0 < range.rational

variable {c : Color} {largest smallest range lightness : Single}

theorem range_sub (h : Extremes c largest smallest) (hlt : smallest.rational < largest.rational) :
    Range largest smallest (largest - smallest) where
  rounds := sub_rounds h.inUnit_largest.within.isFinite h.inUnit_smallest.within.isFinite
  within := within_sub h.inUnit_largest.within h.inUnit_smallest.within (by decide)
  pos := sub_pos h.inUnit_largest.within.isFinite h.inUnit_smallest.within.isFinite hlt

/-- Two channels are no further apart than the range, so the quotient is one at most. -/
theorem offset_yields {x y : Single} (hrange : Range largest smallest range)
    (hx : x.isFinite = true) (hy : y.isFinite = true)
    (h : |x.rational - y.rational| ≤ largest.rational - smallest.rational) :
    (offset x y range).Yields (Within 0) := by
  have hrounds := sub_rounds hx hy
  have hle := hrounds.abs_mono hrange.rounds h
  have hfinite : (x - y).isFinite = true :=
    isFinite_of_rational hrange.within.isFinite (hle.trans (le_abs_self _))
  refine .step rfl hrounds.isNaN ?_
  refine .within (isZero_of_rational hrange.pos.ne') ?_
  exact within_div hfinite hrange.within.isFinite hrange.pos (by decide)
    (by rw [pow_zero, one_mul]; exact hle)

theorem sextant_yields (h : Extremes c largest smallest) (hrange : Range largest smallest range) :
    (sextant c largest range).Yields (Within 3) := by
  have hfour : Within 2 4 := within_ofRatio 4 Nat.one_pos (by decide) (by decide)
  obtain ⟨⟨hx, hxlow, hxhigh⟩, ⟨hy, hylow, hyhigh⟩, hz, hzlow, hzhigh⟩ := h.channels
  refine Yields.ite (fun _ => ?_) (fun _ => Yields.ite (fun _ => ?_) (fun _ => ?_))
  · refine (offset_yields hrange hy hz ?_).relax (by decide)
    exact abs_le.mpr ⟨by linarith, by linarith⟩
  · refine (offset_yields hrange hz hx ?_).bind fun _ hquotient => ?_
    · exact abs_le.mpr ⟨by linarith, by linarith⟩
    · exact (Yields.add within_two hquotient (by decide)).relax (by decide)
  · refine (offset_yields hrange hx hy ?_).bind fun _ hquotient => ?_
    · exact abs_le.mpr ⟨by linarith, by linarith⟩
    · exact Yields.add hfour hquotient (by decide)

/-- Both divisors are as large as the range at least. -/
theorem saturation_yields (h : Extremes c largest smallest) (hrange : Range largest smallest range) :
    (saturation largest smallest range lightness).Yields (Within 0) := by
  obtain ⟨hlargest, hsmallest, -⟩ := h
  have hquotient {divisor : Single} (hfinite : divisor.isFinite = true)
      (hle : range.rational ≤ divisor.rational) :
      (perform (.div range divisor)).Yields (Within 0) := by
    have hpos := hrange.pos.trans_le hle
    refine .within (isZero_of_rational hpos.ne') ?_
    refine within_div hrange.within.isFinite hfinite hpos (by decide) ?_
    rw [pow_zero, one_mul, abs_of_pos hrange.pos]
    exact hle
  refine Yields.ite (fun _ => ?_) (fun _ => ?_)
  · -- The largest channel is between the two.
    have hsum := add_rounds hlargest.within.isFinite hsmallest.within.isFinite
    have hwithin := within_add hlargest.within hsmallest.within (by decide)
    refine .step rfl hsum.isNaN (hquotient hwithin.isFinite ?_)
    calc range.rational
        ≤ largest.rational := hrange.rounds.le hlargest.isNaN (by linarith [hsmallest.nonneg])
      _ ≤ (largest + smallest).rational :=
          hsum.ge hlargest.isNaN (by linarith [hsmallest.nonneg])
  · -- Two less the largest channel is one at least, and so no less than that channel.
    have hbelow := within_sub within_two hlargest.within (by decide)
    have hone : 1 ≤ (2 - largest).rational := by
      rw [← rational_one]
      refine (sub_rounds within_two.isFinite hlargest.within.isFinite).ge within_one.isNaN ?_
      rw [rational_one, rational_two]
      linarith [hlargest.le_one]
    have hrest := sub_rounds hbelow.isFinite hsmallest.within.isFinite
    have hwithin := within_sub hbelow hsmallest.within (by decide)
    refine .step rfl hbelow.isNaN ?_
    refine .step rfl hrest.isNaN (hquotient hwithin.isFinite ?_)
    exact hrange.rounds.mono hrest (by linarith [hlargest.le_one])

/-- A hue in turns, a saturation and a lightness, all of moderate size. -/
theorem ofExtremes_yields (h : Extremes c largest smallest) (hl : Within 1 lightness) :
    (ofExtremes c largest smallest lightness).Yields (Vec3.All (Within 4)) := by
  have hlightness : Within 4 lightness := hl.mono (by decide)
  refine Yields.ite (fun _ => ?_) (fun hne => ?_)
  · have hzero : Within 4 0 := inUnit_zero.within.mono (by decide)
    exact .pure ⟨hzero, hzero, hlightness⟩
  · have hlt : smallest.rational < largest.rational := by
      rw [same_iff_rational h.inUnit_largest.isNaN h.inUnit_smallest.isNaN] at hne
      exact lt_of_le_of_ne (h.channels.x.2.1.trans h.channels.x.2.2) (Ne.symm hne)
    have hrange := range_sub h hlt
    refine .step rfl hrange.within.isNaN ?_
    refine (saturation_yields h hrange).bind fun _ hsaturation => ?_
    refine (sextant_yields h hrange).bind fun _ hsixths => ?_
    refine (Yields.div hsixths within_six.isFinite (one_le_ofNat (by decide) (by decide))
      (by decide)).bind fun hue hhue => ?_
    refine (Yields.ite (P := Within 4) (fun _ => ?_) (fun _ => ?_)).bind fun _ hhue => ?_
    · exact Yields.add hhue within_one (by decide)
    · exact .pure (hhue.mono (by decide))
    · exact .pure ⟨hhue, hsaturation.mono (by decide), hlightness⟩

theorem ofRgb_yields (h : c.All InUnit) : (ofRgb c).Yields (Vec3.All (Within 4)) := by
  have hsmaller := h.y.lower h.z
  have hsmallest := h.x.lower hsmaller
  have hlarger := h.y.upper h.z
  have hlargest := h.x.upper hlarger
  have hextremes : Extremes c (c.x.upper (c.y.upper c.z)) (c.x.lower (c.y.lower c.z)) := by
    refine ⟨hlargest, hsmallest, ?_⟩
    rw [(lower_eq h.x.isNaN hsmaller.isNaN).2, (lower_eq h.y.isNaN h.z.isNaN).2,
      (upper_eq h.x.isNaN hlarger.isNaN).2, (upper_eq h.y.isNaN h.z.isNaN).2]
    refine ⟨⟨h.x.within.isFinite, ?_, ?_⟩, ⟨h.y.within.isFinite, ?_, ?_⟩,
      h.z.within.isFinite, ?_, ?_⟩ <;> simp
  refine .step rfl hsmaller.isNaN ?_
  refine .step rfl hsmallest.isNaN ?_
  refine .step rfl hlarger.isNaN ?_
  refine .step rfl hlargest.isNaN ?_
  refine (Yields.add hlargest.within hsmallest.within (by decide)).bind fun _ hsum => ?_
  refine (Yields.div hsum within_two.isFinite (one_le_ofNat (by decide) (by decide))
    (by decide)).bind fun _ hlightness => ?_
  exact ofExtremes_yields hextremes hlightness

end ColorChain.Stepwise
