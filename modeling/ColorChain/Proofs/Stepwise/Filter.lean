import ColorChain.Proofs.Stepwise.Blend
import ColorChain.Proofs.Stepwise.Hue
import ColorChain.Proofs.Stepwise.Result

/-! The built-in filters on colours between zero and one.

With values that belong to its controls every built-in filter is regular, from the slots to the
last channel (`evaluations_safe`). The bounds of a control's range are constants of moderate size,
so the number read for it is one, too, and the slots made of it are. -/
namespace ColorChain.Stepwise

open Binary Traced

/-! ### Values read for a control -/

section Row

variable {controls : List Control} {values : List ControlValue} {control : Control} {i : Nat}

theorem exists_value (hrow : List.Forall₂ Control.Admits controls values)
    (hcontrol : controls[i]? = some control) : ∃ v, values[i]? = some v ∧ control.Admits v := by
  obtain ⟨hi, rfl⟩ := List.getElem?_eq_some_iff.mp hcontrol
  have hi' : i < values.length := hrow.length_eq ▸ hi
  exact ⟨values[i], List.getElem?_eq_getElem hi', hrow.get hi hi'⟩

/-- The number read for a numeric control is within its range. -/
theorem numberAt_of_row (hrow : List.Forall₂ Control.Admits controls values)
    (hcontrol : controls[i]? = some control) {range : NumericRange}
    (hrange : control.range? = some range) :
    (numberAt values i).isFinite = true ∧ range.min.rational ≤ (numberAt values i).rational ∧
      (numberAt values i).rational ≤ range.max.rational := by
  obtain ⟨v, hv, hadmits⟩ := exists_value hrow hcontrol
  cases v with
  | number x =>
    have hnumber : numberAt values i = x := by
      rw [numberAt, hv]
      rfl
    obtain ⟨range', hrange', hfinite, hmin, hmax⟩ := hadmits
    cases hrange.symm.trans hrange'
    rw [hnumber]
    exact ⟨hfinite, (le_iff_rational.mp hmin).2.2, (le_iff_rational.mp hmax).2.2⟩
  | color c =>
    have hcolor := hadmits.1
    simp [Control.isColor, hrange] at hcolor

theorem within_numberAt (hrow : List.Forall₂ Control.Admits controls values)
    (hcontrol : controls[i]? = some control) {range : NumericRange}
    (hrange : control.range? = some range) {e : Nat} (hmin : Within e range.min)
    (hmax : Within e range.max) : Within e (numberAt values i) := by
  obtain ⟨hfinite, hlow, hhigh⟩ := numberAt_of_row hrow hcontrol hrange
  obtain ⟨hmin, -⟩ := abs_le.mp hmin.abs_le
  obtain ⟨-, hmax⟩ := abs_le.mp hmax.abs_le
  exact ⟨hfinite, abs_le.mpr ⟨by linarith, by linarith⟩⟩

/-- The colour read for a colour control is in the unit cube. -/
theorem colorAt_of_row (hrow : List.Forall₂ Control.Admits controls values)
    (hcontrol : controls[i]? = some control) (hcolor : control.isColor = true) :
    (colorAt values i).All InUnit := by
  obtain ⟨v, hv, hadmits⟩ := exists_value hrow hcontrol
  cases v with
  | number x =>
    obtain ⟨range, hrange, -⟩ := hadmits
    have hnone : control.range? = none := by simpa [Control.isColor] using hcolor
    rw [hnone] at hrange
    cases hrange
  | color c =>
    have hread : colorAt values i = c := by
      rw [colorAt, hv]
      rfl
    rw [hread, Vec3.all_iff]
    exact fun a ha => inUnit_iff.mp (hadmits.2 a ha)

end Row

/-! ### Slots -/

variable {values : List ControlValue} {color : Color}

/-- Two levels or more leave one step or more to divide by. -/
theorem posterize_slots (hrow : List.Forall₂ Control.Admits Catalog.posterize.controls values) :
    (posterize.vectorize values).Yields fun slots => Within 6 (slotAt slots 0).x ∧
      (slotAt slots 0).y.isFinite = true ∧ 1 ≤ (slotAt slots 0).y.rational := by
  have hmin : Within 6 2 := within_two.mono (by decide)
  have hmax : Within 6 64 := within_ofRatio 64 Nat.one_pos (by decide) (by decide)
  have hlevels := within_numberAt (i := 0) hrow rfl rfl hmin hmax
  have hsteps := within_sub hlevels within_one (by decide)
  have hone : 1 ≤ (numberAt values 0 - 1).rational := by
    have hlow : (2 : Single).rational ≤ (numberAt values 0).rational :=
      (numberAt_of_row (i := 0) hrow rfl rfl).2.1
    rw [rational_two] at hlow
    rw [← rational_one]
    refine (sub_rounds hlevels.isFinite within_one.isFinite).ge within_one.isNaN ?_
    rw [rational_one]
    linarith
  exact .step rfl hsteps.isNaN (.pure ⟨hlevels, hsteps.isFinite, hone⟩)

theorem within_hundred : Within 7 100 := within_ofRatio 100 Nat.one_pos (by decide) (by decide)

theorem within_percent : Within 7 Catalog.percent.min := within_neg within_hundred

/-- A percentage as a fraction. -/
theorem percent_yields {controls : List Control} {control : Control} {i : Nat}
    (hrow : List.Forall₂ Control.Admits controls values) (hcontrol : controls[i]? = some control)
    {range : NumericRange} (hrange : control.range? = some range) (hmin : Within 7 range.min)
    (hmax : range.max = 100) : (perform (.div (numberAt values i) 100)).Yields (Within 7) :=
  Yields.div (within_numberAt hrow hcontrol hrange hmin (hmax ▸ within_hundred))
    within_hundred.isFinite (one_le_ofNat (by decide) (by decide)) (by decide)

theorem brightnessContrast_slots
    (hrow : List.Forall₂ Control.Admits Catalog.brightnessContrast.controls values) :
    (brightnessContrast.vectorize values).Yields fun slots =>
      Within 7 (slotAt slots 0).x ∧ Within 7 (slotAt slots 0).y := by
  refine (percent_yields hrow (i := 0) rfl rfl within_percent rfl).bind fun _ hbrightness => ?_
  refine (percent_yields hrow (i := 1) rfl rfl within_percent rfl).bind fun _ hcontrast => ?_
  exact .pure ⟨hbrightness, hcontrast⟩

theorem hslAdjust_slots (hrow : List.Forall₂ Control.Admits Catalog.hslAdjust.controls values) :
    (hslAdjust.vectorize values).Yields fun slots => (slotAt slots 0).rgb.All (Within 8) := by
  have hturn : Within 9 360 := within_ofRatio 360 Nat.one_pos (by decide) (by decide)
  have hhalf : Within 8 180 := within_ofRatio 180 Nat.one_pos (by decide) (by decide)
  have hdegrees := within_numberAt (i := 0) hrow rfl rfl (within_neg hhalf) hhalf
  refine (Yields.div hdegrees hturn.isFinite (one_le_ofNat (by decide) (by decide))
    (by decide)).bind fun _ hhue => ?_
  refine (percent_yields hrow (i := 1) rfl rfl within_percent rfl).bind fun _ hsaturation => ?_
  refine (percent_yields hrow (i := 2) rfl rfl within_percent rfl).bind fun _ hlightness => ?_
  exact .pure ⟨hhue, hsaturation.mono (by decide), hlightness.mono (by decide)⟩

theorem hslMultiply_slots (hrow : List.Forall₂ Control.Admits Catalog.hslMultiply.controls values) :
    (hslMultiply.vectorize values).Yields fun slots => (slotAt slots 0).rgb.All (Within 8) := by
  have hmin : Within 8 0 := inUnit_zero.within.mono (by decide)
  have hmax : Within 8 10 := within_ofRatio 10 Nat.one_pos (by decide) (by decide)
  exact .pure ⟨within_numberAt hrow (i := 0) rfl rfl hmin hmax,
    within_numberAt hrow (i := 1) rfl rfl hmin hmax,
    within_numberAt hrow (i := 2) rfl rfl hmin hmax⟩

theorem blend_slots {b : Blend} {mode : Single → Single → Traced Single}
    (hrow : List.Forall₂ Control.Admits b.controls values) :
    ((blend b mode).vectorize values).Yields fun slots =>
      (slotAt slots 0).rgb.All InUnit ∧ Within 7 (slotAt slots 0).w := by
  have hmin : Within 7 0 := inUnit_zero.within.mono (by decide)
  refine (percent_yields hrow (i := 1) rfl rfl hmin rfl).bind fun _ hopacity => ?_
  exact .pure ⟨colorAt_of_row hrow (i := 0) rfl rfl, hopacity⟩

/-! ### Kernels -/

variable {slots : List Slot}

theorem posterize_kernel (hcolor : color.All InUnit) (hlevels : Within 6 (slotAt slots 0).x)
    (hfinite : (slotAt slots 0).y.isFinite = true) (hone : 1 ≤ (slotAt slots 0).y.rational) :
    (posterize.kernel color slots).Yields (Vec3.All (Within 6)) := by
  refine (Yields.traverse hcolor fun _ ha => Yields.mul ha.within hlevels (by decide)).bind
    fun scaled hscaled => ?_
  refine (Yields.traverse hscaled fun _ ha => Yields.floor ha (by decide)).bind
    fun whole hwhole => ?_
  exact Yields.traverse hwhole fun _ ha => Yields.div ha hfinite hone (by decide)

theorem brightnessContrast_kernel (hcolor : color.All InUnit)
    (hbrightness : Within 7 (slotAt slots 0).x) (hcontrast : Within 7 (slotAt slots 0).y) :
    (brightnessContrast.kernel color slots).Yields (Vec3.All (Within 11)) := by
  refine (Yields.traverse hcolor fun _ ha => Yields.sub ha.within within_half (by decide)).bind
    fun moved hmoved => ?_
  refine (Yields.add within_one hcontrast (by decide)).bind fun scale hscale => ?_
  refine (Yields.traverse hmoved fun _ ha => Yields.mul ha hscale (by decide)).bind
    fun scaled hscaled => ?_
  refine (Yields.traverse hscaled fun _ ha => Yields.add ha within_half (by decide)).bind
    fun back hback => ?_
  exact Yields.traverse hback fun _ ha => Yields.add ha hbrightness (by decide)

/-- The saturation and the lightness are held in the unit range on the way back to a colour. -/
theorem combineHsl_yields {combine : Single → Single → Operation} {slot : Slot}
    (hcombine : ∀ x y, Within 4 x → Within 8 y → (perform (combine x y)).Yields (Within 12))
    (hcolor : color.All InUnit) (hslot : slot.rgb.All (Within 8)) :
    (combineHsl combine color slot).Yields (Vec3.All (Within 26)) := by
  refine (ofRgb_yields hcolor).bind fun hsl hhsl => ?_
  refine (hcombine _ _ hhsl.x hslot.x).bind fun _ hhue => ?_
  refine (fract_yields hhue (by decide)).bind fun _ hhue => ?_
  refine (hcombine _ _ hhsl.y hslot.y).bind fun _ hsaturation => ?_
  refine (hcombine _ _ hhsl.z hslot.z).bind fun _ hlightness => ?_
  exact toRgb_yields hhue (inUnit_clamp hsaturation.isNaN) (inUnit_clamp hlightness.isNaN)

theorem mix_yields {v w : Color} {t : Single} (hv : v.All InUnit) (hw : w.All (Within 32))
    (ht : Within 7 t) : (mix v w t).Yields (Vec3.All (Within 40)) := by
  refine (Yields.sub within_one ht (by decide)).bind fun _ hrest => ?_
  refine (Yields.traverse hv fun _ ha => Yields.mul ha.within hrest (by decide)).bind
    fun kept hkept => ?_
  refine (Yields.traverse hw fun _ hb => Yields.mul hb ht (by decide)).bind fun added hadded => ?_
  exact Yields.traverse₂ hkept hadded fun _ _ ha hb => Yields.add ha hb (by decide)

theorem blend_kernel {b : Blend} {mode : Single → Single → Traced Single} (hmode : Tame mode)
    (hcolor : color.All InUnit) (htop : (slotAt slots 0).rgb.All InUnit)
    (hopacity : Within 7 (slotAt slots 0).w) :
    ((blend b mode).kernel color slots).Yields (Vec3.All (Within 40)) := by
  refine (Yields.traverse₂ hcolor htop fun _ _ ha hb => hmode _ _ ha hb).bind
    fun blended hblended => ?_
  exact mix_yields hcolor hblended hopacity

/-! ### Filters -/

/-- With admitted values and on colours of the unit cube the filter is regular, and gives numbers. -/
def Evaluation.Safe (e : Evaluation) : Prop :=
  ∀ values color, List.Forall₂ Control.Admits e.definition.controls values → color.All InUnit →
    (do
      let slots ← e.vectorize values
      e.kernel color slots).Yields (Vec3.All fun a => a.isNaN = false)

theorem numeric_of_within {e : Nat} {t : Traced Color} (h : t.Yields (Vec3.All (Within e))) :
    t.Yields (Vec3.All fun a => a.isNaN = false) :=
  h.mono fun _ hc => hc.mono fun _ ha => ha.isNaN

theorem posterize_safe : posterize.Safe := fun _ _ hrow hcolor =>
  (posterize_slots hrow).bind fun _ ⟨hlevels, hfinite, hone⟩ =>
    numeric_of_within (posterize_kernel hcolor hlevels hfinite hone)

theorem brightnessContrast_safe : brightnessContrast.Safe := fun _ _ hrow hcolor =>
  (brightnessContrast_slots hrow).bind fun _ ⟨hbrightness, hcontrast⟩ =>
    numeric_of_within (brightnessContrast_kernel hcolor hbrightness hcontrast)

theorem hslAdjust_safe : hslAdjust.Safe := fun _ _ hrow hcolor =>
  (hslAdjust_slots hrow).bind fun _ hslot =>
    numeric_of_within (combineHsl_yields
      (fun _ _ hx hy => (Yields.add hx hy (by decide)).relax (by decide)) hcolor hslot)

theorem hslMultiply_safe : hslMultiply.Safe := fun _ _ hrow hcolor =>
  (hslMultiply_slots hrow).bind fun _ hslot =>
    numeric_of_within (combineHsl_yields
      (fun _ _ hx hy => Yields.mul hx hy (by decide)) hcolor hslot)

theorem blend_safe {b : Blend} {mode : Single → Single → Traced Single} (hmode : Tame mode) :
    (blend b mode).Safe := fun _ _ hrow hcolor =>
  (blend_slots hrow).bind fun _ ⟨htop, hopacity⟩ =>
    numeric_of_within (blend_kernel hmode hcolor htop hopacity)

theorem evaluations_safe : ∀ e ∈ evaluations, e.Safe := by
  intro e he
  rcases mem_evaluations he with rfl | rfl | rfl | rfl | ⟨b, mode, hmode, -, rfl⟩
  · exact posterize_safe
  · exact brightnessContrast_safe
  · exact hslAdjust_safe
  · exact hslMultiply_safe
  · exact blend_safe (tame_modes mode hmode)

end ColorChain.Stepwise
