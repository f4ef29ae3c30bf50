import ColorChain.Catalog
import ColorChain.Proofs.Control.Exact
import ColorChain.Proofs.Control.Stored

/-! The values that belong to a control.

A value belongs to a control when it is of the control's kind and within what the control is for:
a finite number between the bounds, or a colour whose channels are between zero and one
(`Control.Admits`). A control that admits its default admits all that it stores
(`Control.Admits.stored`): its default is a finite number that stands between the bounds, so a
bound that another finite number is held at is finite too. What is not a number is held by no
bounds (`Color.Held`), so a colour has to come without. -/
namespace ColorChain

/-! ### Numbers held within a range -/

namespace NumericRange

variable {range : NumericRange} {x d : Single}

/-- A number held within an ordered range is there, and if it had to be moved it was moved to the
bound on its side. -/
theorem clamp_position (hordered : range.min.le range.max = true) (hx : x.isNaN = false) :
    (range.clamp x).isNaN = false ∧
      (x.position < range.min.position ∧ (range.clamp x).position = range.min.position ∨
        range.max.position < x.position ∧ (range.clamp x).position = range.max.position ∨
        range.min.position ≤ x.position ∧ x.position ≤ range.max.position ∧
          (range.clamp x).position = x.position) := by
  obtain ⟨hmin, hmax, horder⟩ := Binary.le_iff.mp hordered
  have hlow : x.lt range.min = decide (x.position < range.min.position) := by
    simp [Binary.lt, hx, hmin]
  have hhigh : range.max.lt x = decide (range.max.position < x.position) := by
    simp [Binary.lt, hx, hmax]
  by_cases hbelow : x.position < range.min.position
  · have hclamp : range.clamp x = range.min := by
      simp [clamp, hlow, hbelow, Binary.not_lt_of_le hordered]
    rw [hclamp]
    exact ⟨hmin, .inl ⟨hbelow, rfl⟩⟩
  · by_cases habove : range.max.position < x.position
    · have hclamp : range.clamp x = range.max := by simp [clamp, hlow, hbelow, hhigh, habove]
      rw [hclamp]
      exact ⟨hmax, .inr (.inl ⟨habove, rfl⟩)⟩
    · have hclamp : range.clamp x = x := by simp [clamp, hlow, hbelow, hhigh, habove]
      rw [hclamp]
      exact ⟨hx, .inr (.inr ⟨by omega, by omega, rfl⟩)⟩

theorem clamp_within (hordered : range.min.le range.max = true) (hx : x.isNaN = false) :
    range.min.le (range.clamp x) = true ∧ (range.clamp x).le range.max = true := by
  obtain ⟨hmin, hmax, horder⟩ := Binary.le_iff.mp hordered
  obtain ⟨hnan, hposition⟩ := clamp_position hordered hx
  exact ⟨Binary.le_iff.mpr ⟨hmin, hnan, by omega⟩, Binary.le_iff.mpr ⟨hnan, hmax, by omega⟩⟩

/-- A finite number stays finite in a range that has a finite number in it. -/
theorem isFinite_clamp_of_within (hmin : range.min.le d = true) (hmax : d.le range.max = true)
    (hd : d.isFinite = true) (hx : x.isFinite = true) : (range.clamp x).isFinite = true := by
  obtain ⟨-, -, hlow⟩ := Binary.le_iff.mp hmin
  obtain ⟨-, -, hhigh⟩ := Binary.le_iff.mp hmax
  obtain ⟨-, hposition⟩ :=
    clamp_position (Binary.le_trans hmin hmax) (Binary.isNaN_of_isFinite hx)
  have hbounds := Binary.position_of_isFinite hd
  have hbounds' := Binary.position_of_isFinite hx
  exact decide_eq_true (Binary.index_lt_of_position (by omega) (by omega))

end NumericRange

/-! ### Colours -/

namespace Color

/-- Every channel is a number. -/
def Numeric (c : Color) : Prop := ∀ a ∈ c.toList, a.isNaN = false

instance (c : Color) : Decidable c.Numeric := inferInstanceAs (Decidable (∀ a ∈ c.toList, _ = _))

/-- Every channel is between zero and one. -/
def InUnit (c : Color) : Prop := ∀ a ∈ c.toList, Binary.le 0 a = true ∧ a.le 1 = true

instance (c : Color) : Decidable c.InUnit := inferInstanceAs (Decidable (∀ a ∈ c.toList, _ ∧ _))

theorem OfBytes.numeric {c : Color} (h : c.OfBytes) : c.Numeric := by
  obtain ⟨r, -, g, -, b, -, h⟩ := h
  obtain ⟨hx, hy, hz⟩ := beq_iff.mp h
  intro a ha
  simp only [Vec3.toList, List.mem_cons, List.not_mem_nil, or_false] at ha
  rcases ha with rfl | rfl | rfl
  · exact (Binary.beq_iff.mp hx).1
  · exact (Binary.beq_iff.mp hy).1
  · exact (Binary.beq_iff.mp hz).1

/-- A channel as it is stored: between zero and one, or not a number as it was before. -/
inductive Held : Single → Single → Prop where
  | number {a b} (ha : a.isNaN = false) (hmin : Binary.le 0 b = true) (hmax : b.le 1 = true) :
      Held a b
  | notNumber {a} (ha : a.isNaN = true) : Held a a

theorem held_clamp (a : Single) : Held a (NumericRange.unit.clamp a) := by
  cases ha : a.isNaN with
  | false =>
    obtain ⟨hmin, hmax⟩ := NumericRange.clamp_within NumericRange.unit_ordered ha
    exact .number ha hmin hmax
  | true =>
    have hclamp : NumericRange.unit.clamp a = a := by
      simp [NumericRange.clamp, Binary.lt, ha]
    rw [hclamp]
    exact .notNumber ha

theorem held_unitClamp (c : Color) : List.Forall₂ Held c.toList (Vector.unitClamp c).toList := by
  rw [Vector.unitClamp_eq]
  exact .cons (held_clamp c.x) (.cons (held_clamp c.y) (.cons (held_clamp c.z) .nil))

/-- A stored channel is within the unit range just when there was a number to store. -/
theorem Held.inUnit_iff {a b : Single} (h : Held a b) :
    (Binary.le 0 b = true ∧ b.le 1 = true) ↔ a.isNaN = false := by
  cases h with
  | number ha hmin hmax => exact ⟨fun _ => ha, fun _ => ⟨hmin, hmax⟩⟩
  | notNumber ha => simp [Binary.le, ha]

/-- Only a colour of numbers is held within the unit cube. -/
theorem inUnit_unitClamp {c : Color} : InUnit (Vector.unitClamp c) ↔ c.Numeric := by
  have hx := (held_clamp c.x).inUnit_iff
  have hy := (held_clamp c.y).inUnit_iff
  have hz := (held_clamp c.z).inUnit_iff
  rw [Vector.unitClamp_eq]
  simp only [InUnit, Numeric, Vec3.toList, List.forall_mem_cons, List.not_mem_nil,
    IsEmpty.forall_iff, implies_true, and_true]
  rw [hx, hy, hz]

end Color

/-! ### Controls -/

/-- The value is of the control's kind, and within what the control is for. -/
def Control.Admits (control : Control) : ControlValue → Prop
  | .number x => ∃ range ∈ control.range?,
    x.isFinite = true ∧ range.min.le x = true ∧ x.le range.max = true
  | .color c => control.isColor = true ∧ c.InUnit

instance (control : Control) : DecidablePred control.Admits
  | .number _ => inferInstanceAs (Decidable (∃ range ∈ control.range?, _ ∧ _ ∧ _))
  | .color _ => inferInstanceAs (Decidable (_ ∧ _))

/-- No channel of a colour is other than a number. -/
def ControlValue.Numeric : ControlValue → Prop
  | .number _ => True
  | .color c => c.Numeric

instance : DecidablePred ControlValue.Numeric
  | .number _ => inferInstanceAs (Decidable True)
  | .color c => inferInstanceAs (Decidable c.Numeric)

namespace Control

variable {control : Control} {v stored : ControlValue}

/-- The default of a control with a range is a number. -/
theorem exists_default {range : NumericRange} (hrange : control.range? = some range) :
    ∃ d, control.default = .number d := by
  obtain ⟨id, label, kind⟩ := control
  cases kind with
  | number d => exact ⟨d, rfl⟩
  | slider d => exact ⟨d, rfl⟩
  | color => cases hrange

/-- What a control that admits its default stores, it admits. -/
theorem admits_stored (hdefault : control.Admits control.default) (hv : v.Numeric)
    (h : control.accept v = .ok stored) : control.Admits stored := by
  rcases accept_cases h with ⟨range, x, hrange, rfl, hfinite, rfl⟩ | ⟨c, hrange, rfl, rfl⟩
  · obtain ⟨d, hd⟩ := exists_default hrange
    rw [hd] at hdefault
    obtain ⟨range', hrange', hfiniteDefault, hmin, hmax⟩ := hdefault
    cases hrange.symm.trans hrange'
    exact ⟨range, hrange, NumericRange.isFinite_clamp_of_within hmin hmax hfiniteDefault hfinite,
      NumericRange.clamp_within (Binary.le_trans hmin hmax) (Binary.isNaN_of_isFinite hfinite)⟩
  · exact ⟨by simp [isColor, hrange], Color.inUnit_unitClamp.mpr hv⟩

end Control

/-- The built-in controls admit their defaults. -/
theorem Catalog.admits_default : ∀ d ∈ definitions, ∀ control ∈ d.controls,
    control.Admits control.default := by decide +kernel

end ColorChain
