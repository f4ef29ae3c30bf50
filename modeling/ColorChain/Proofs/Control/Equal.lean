import ColorChain.Control
import ColorChain.Proofs.Color.Hex

/-! Equal values of a control.

Values are equal when their numbers are, and a control stores equal values for equal ones. A value
returns from a form that it was written in when what is read of the form is an equal value, and its
control stores an equal one. The control then stores an equal one of what is read, too. -/
namespace ColorChain

namespace ControlValue

/-- Equal values are of one kind. -/
theorem beq_cases {v w : ControlValue} (h : (v == w) = true) :
    (∃ x y, v = .number x ∧ w = .number y ∧ (x == y) = true) ∨
      ∃ c d, v = .color c ∧ w = .color d ∧ (c == d) = true := by
  cases v with
  | number x =>
    cases w with
    | number y => exact .inl ⟨x, y, rfl, rfl, h⟩
    | color d => cases h
  | color c =>
    cases w with
    | number y => cases h
    | color d => exact .inr ⟨c, d, rfl, rfl, h⟩

theorem beq_symm {v w : ControlValue} (h : (v == w) = true) : (w == v) = true := by
  rcases beq_cases h with ⟨x, y, rfl, rfl, hxy⟩ | ⟨c, d, rfl, rfl, hcd⟩
  · exact Binary.beq_symm hxy
  · exact Color.beq_symm hcd

theorem beq_trans {u v w : ControlValue} (h : (u == v) = true) (h' : (v == w) = true) :
    (u == w) = true := by
  rcases beq_cases h with ⟨x, y, rfl, rfl, hxy⟩ | ⟨c, d, rfl, rfl, hcd⟩
  · rcases beq_cases h' with ⟨_, z, heq, rfl, hyz⟩ | ⟨_, _, heq, -, -⟩
    · cases heq
      exact Binary.beq_trans hxy hyz
    · cases heq
  · rcases beq_cases h' with ⟨_, _, heq, -, -⟩ | ⟨_, e, heq, rfl, hde⟩
    · cases heq
    · cases heq
      exact Color.beq_trans hcd hde

end ControlValue

/-! ### What a control stores -/

theorem NumericRange.clamp_beq (range : NumericRange) {x y : Single} (h : (x == y) = true) :
    (range.clamp x == range.clamp y) = true := by
  have halike := (Binary.beq_iff.mp h).2.2
  unfold clamp
  simp only [halike.lt_left]
  have hmin : ((if y.lt range.min then range.min else x) ==
      (if y.lt range.min then range.min else y)) = true :=
    Binary.beq_ite h fun hlt => (Binary.not_isNaN_of_lt hlt).2
  rw [(Binary.beq_iff.mp hmin).2.2.lt_right]
  exact Binary.beq_ite hmin fun hlt => (Binary.not_isNaN_of_lt hlt).1

/-- The range that a channel is held within. -/
def NumericRange.unit : NumericRange := ⟨Scalar.zero, Scalar.one, Scalar.zero, 0⟩

theorem Vector.unitClamp_eq (c : Color) :
    unitClamp c = ⟨NumericRange.unit.clamp c.x, NumericRange.unit.clamp c.y,
      NumericRange.unit.clamp c.z⟩ := rfl

theorem Vector.unitClamp_beq {c d : Color} (h : (c == d) = true) :
    (unitClamp c == unitClamp d) = true := by
  obtain ⟨hx, hy, hz⟩ := Color.beq_iff.mp h
  rw [unitClamp_eq, unitClamp_eq]
  exact Color.beq_iff.mpr ⟨NumericRange.unit.clamp_beq hx, NumericRange.unit.clamp_beq hy,
    NumericRange.unit.clamp_beq hz⟩

theorem NumericRange.clamp_of_within {range : NumericRange} {x : Single}
    (hmin : range.min.le x = true) (hmax : x.le range.max = true) : range.clamp x = x := by
  simp [clamp, Binary.not_lt_of_le hmin, Binary.not_lt_of_le hmax]

namespace Control

variable {control : Control} {v w stored : ControlValue}

/-- What a control stores: a finite number held within the range, or a colour held within the unit
range. -/
theorem accept_cases (h : control.accept v = .ok stored) :
    (∃ range x, control.range? = some range ∧ v = .number x ∧ x.isFinite = true ∧
      stored = .number (range.clamp x)) ∨
    ∃ c, control.range? = none ∧ v = .color c ∧ stored = .color (Vector.unitClamp c) := by
  cases hrange : control.range? with
  | none =>
    cases v with
    | number x => simp [accept, hrange] at h
    | color c =>
      simp only [accept, hrange, Except.ok.injEq] at h
      exact .inr ⟨c, rfl, rfl, h.symm⟩
  | some range =>
    cases v with
    | color c => simp [accept, hrange] at h
    | number x =>
      cases hfinite : x.isFinite with
      | false => simp [accept, hrange, hfinite] at h
      | true =>
        simp only [accept, hrange, hfinite, if_true, Except.ok.injEq] at h
        exact .inl ⟨range, x, rfl, rfl, hfinite, h.symm⟩

theorem accept_number {range : NumericRange} {x : Single} (hrange : control.range? = some range)
    (hfinite : x.isFinite = true) :
    control.accept (.number x) = .ok (.number (range.clamp x)) := by
  simp only [accept, hrange, hfinite, if_true]

theorem accept_color (hrange : control.range? = none) (c : Color) :
    control.accept (.color c) = .ok (.color (Vector.unitClamp c)) := by
  simp only [accept, hrange]

/-- What a control stores of a value it stores of every equal value. -/
theorem accept_beq (h : (v == w) = true) (hv : control.accept v = .ok stored) :
    ∃ stored', control.accept w = .ok stored' ∧ (stored == stored') = true := by
  rcases accept_cases hv with ⟨range, x, hrange, rfl, hfinite, rfl⟩ | ⟨c, hrange, rfl, rfl⟩
  · rcases ControlValue.beq_cases h with ⟨_, y, heq, rfl, hxy⟩ | ⟨_, _, heq, -, -⟩
    · cases heq
      rw [(Binary.beq_iff.mp hxy).2.2.isFinite] at hfinite
      exact ⟨_, accept_number hrange hfinite, range.clamp_beq hxy⟩
    · cases heq
  · rcases ControlValue.beq_cases h with ⟨_, _, heq, -, -⟩ | ⟨_, d, heq, rfl, hcd⟩
    · cases heq
    · cases heq
      exact ⟨_, accept_color hrange d, Vector.unitClamp_beq hcd⟩

end Control

/-! ### Values that come back -/

/-- A value comes back: what `read` gives and what the control stores of it equal `v`. -/
structure Control.Returns {ε : Type} (control : Control) (v : ControlValue)
    (read : Except ε ControlValue) : Prop where
  read : ∃ w, read = .ok w ∧ (w == v) = true
  stored : ∃ w, control.accept v = .ok w ∧ (w == v) = true

/-- Whether an outcome is a value equal to `v`. -/
def ControlValue.equalsOk {ε : Type} (v : ControlValue) : Except ε ControlValue → Bool
  | .ok w => w == v
  | .error _ => false

theorem ControlValue.equalsOk_iff {ε : Type} {v : ControlValue} {read : Except ε ControlValue} :
    v.equalsOk read = true ↔ ∃ w, read = .ok w ∧ (w == v) = true := by
  cases read with
  | error e => simp [equalsOk]
  | ok w => simp [equalsOk]

instance {ε : Type} (control : Control) (v : ControlValue) (read : Except ε ControlValue) :
    Decidable (control.Returns v read) :=
  decidable_of_iff (v.equalsOk read = true ∧ v.equalsOk (control.accept v) = true)
    ⟨fun h => ⟨ControlValue.equalsOk_iff.mp h.1, ControlValue.equalsOk_iff.mp h.2⟩,
      fun h => ⟨ControlValue.equalsOk_iff.mpr h.read, ControlValue.equalsOk_iff.mpr h.stored⟩⟩

/-- What is read of a value that comes back is stored as an equal one. -/
theorem Control.Returns.accept {ε : Type} {control : Control} {v : ControlValue}
    {read : Except ε ControlValue} (h : control.Returns v read) :
    ∃ w stored, read = .ok w ∧ control.accept w = .ok stored ∧ (stored == v) = true := by
  obtain ⟨w, hread, hw⟩ := h.read
  obtain ⟨kept, hkept, hv⟩ := h.stored
  obtain ⟨stored, hstored, heq⟩ := Control.accept_beq (ControlValue.beq_symm hw) hkept
  exact ⟨w, stored, hread, hstored, ControlValue.beq_trans (ControlValue.beq_symm heq) hv⟩

end ColorChain
