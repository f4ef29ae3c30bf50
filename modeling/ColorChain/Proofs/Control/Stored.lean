import ColorChain.Proofs.Control.Equal

/-! What a control stores it takes again as it is.

Holding a number within a range a second time changes nothing, so the only values that a
control stores and would not take again are the infinite bounds of its range. A control takes
every value of its kind but the numbers that are not finite (`Control.Suits`), and where its
bounds are finite it stores none but such. -/
namespace ColorChain

theorem Binary.lt_irrefl {f : Format} (x : Binary f) : x.lt x = false := by
  simp [lt]

/-! ### Ranges -/

namespace NumericRange

variable {range : NumericRange} {x : Single}

/-- A number held within a range is the number itself or a bound. -/
theorem clamp_cases (range : NumericRange) (x : Single) :
    range.clamp x = range.max ∨ range.clamp x = range.min ∨
      range.clamp x = x ∧ x.lt range.min = false ∧ range.max.lt x = false := by
  unfold clamp
  cases hmin : x.lt range.min with
  | true =>
    cases hmax : range.max.lt range.min with
    | true => simp [hmax]
    | false => simp [hmax]
  | false =>
    cases hmax : range.max.lt x with
    | true => simp [hmax]
    | false => simp [hmax]

theorem clamp_clamp (hordered : range.max.lt range.min = false) (x : Single) :
    range.clamp (range.clamp x) = range.clamp x := by
  rcases range.clamp_cases x with h | h | ⟨h, hmin, hmax⟩
  · rw [h]
    simp [clamp, hordered, Binary.lt_irrefl]
  · rw [h]
    simp [clamp, hordered, Binary.lt_irrefl]
  · rw [h, h]

theorem isFinite_clamp (hmin : range.min.isFinite = true) (hmax : range.max.isFinite = true)
    (hx : x.isFinite = true) : (range.clamp x).isFinite = true := by
  rcases range.clamp_cases x with h | h | ⟨h, -, -⟩
  · rw [h, hmax]
  · rw [h, hmin]
  · rw [h, hx]

theorem unit_ordered : unit.min.le unit.max = true := by decide +kernel

end NumericRange

theorem Vector.unitClamp_unitClamp (c : Color) : unitClamp (unitClamp c) = unitClamp c := by
  have hordered := Binary.not_lt_of_le NumericRange.unit_ordered
  simp only [unitClamp_eq, NumericRange.clamp_clamp hordered]

/-! ### Controls -/

/-- The value is no number that is not finite. -/
def ControlValue.Finite : ControlValue → Prop
  | .number x => x.isFinite = true
  | .color _ => True

instance (v : ControlValue) : Decidable v.Finite :=
  match v with
  | .number _ => inferInstanceAs (Decidable (_ = true))
  | .color _ => inferInstanceAs (Decidable True)

namespace Control

variable {control : Control} {v stored : ControlValue}

/-- The bounds of a numeric control are finite. -/
def Bounded (control : Control) : Prop :=
  ∀ range, control.range? = some range →
    range.min.isFinite = true ∧ range.max.isFinite = true

instance (control : Control) : Decidable control.Bounded :=
  inferInstanceAs (Decidable (∀ range ∈ control.range?, _ ∧ _))

/-- A control whose bounds are finite and ordered takes what it stores again as it is. -/
theorem accept_stored
    (hordered : ∀ range, control.range? = some range → range.max.lt range.min = false)
    (hbounded : control.Bounded) (h : control.accept v = .ok stored) :
    control.accept stored = .ok stored := by
  rcases accept_cases h with ⟨range, x, hrange, rfl, hfinite, rfl⟩ | ⟨c, hrange, rfl, rfl⟩
  · obtain ⟨hmin, hmax⟩ := hbounded range hrange
    rw [accept_number hrange (NumericRange.isFinite_clamp hmin hmax hfinite),
      NumericRange.clamp_clamp (hordered range hrange)]
  · rw [accept_color hrange, Vector.unitClamp_unitClamp]

/-! ### Values of the right kind -/

/-- A value of the control's kind, finite if it is a number. -/
inductive Suits (control : Control) : ControlValue → Prop where
  | number {x} (hkind : control.isColor = false) (hfinite : x.isFinite = true) :
      Suits control (.number x)
  | color {c} (hkind : control.isColor = true) : Suits control (.color c)

/-- A control takes every value that suits it. -/
theorem Suits.accept (h : control.Suits v) : ∃ stored, control.accept v = .ok stored := by
  cases h with
  | number hkind hfinite =>
    cases hrange : control.range? with
    | none => simp [isColor, hrange] at hkind
    | some range => exact ⟨_, accept_number hrange hfinite⟩
  | color hkind =>
    rw [isColor, Option.isNone_iff_eq_none] at hkind
    exact ⟨_, accept_color hkind _⟩

/-- What a control with finite bounds stores suits it. -/
theorem suits_stored (hbounded : control.Bounded) (h : control.accept v = .ok stored) :
    control.Suits stored := by
  rcases accept_cases h with ⟨range, x, hrange, rfl, hfinite, rfl⟩ | ⟨c, hrange, rfl, rfl⟩
  · obtain ⟨hmin, hmax⟩ := hbounded range hrange
    exact .number (by simp [isColor, hrange]) (range.isFinite_clamp hmin hmax hfinite)
  · exact .color (by simp [isColor, hrange])

/-- The default value suits its control unless it is a number that is not finite. -/
theorem suits_default (h : control.default.Finite) : control.Suits control.default := by
  unfold Control.default at h ⊢
  split
  · next x range hkind =>
    rw [hkind] at h
    exact .number (by simp [isColor, range?, hkind]) h
  · next x range hkind =>
    rw [hkind] at h
    exact .number (by simp [isColor, range?, hkind]) h
  · next c hkind => exact .color (by simp [isColor, range?, hkind])

end Control
end ColorChain
