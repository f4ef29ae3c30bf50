import ColorChain.Proofs.Control.Admits

/-! What a control makes of a value.

A control refuses a value of the other kind and a number that is not finite, and nothing else
(`Control.accept_eq_error`). What it stores is of its kind and is stored again as it is, and a
number is within its bounds. Only a colour may be stored that is outside the control's domain:
its channels are held between zero and one by comparisons, and a channel that is not a number
compares with neither bound, so it stays (`Color.Held`). That is the one way out of the domain
(`accept_settles`). -/
namespace ColorChain

/-! ### Colours -/

namespace Color

variable {c : Color}

/-- A colour of the unit cube is held as it is. -/
theorem InUnit.unitClamp (h : c.InUnit) : Vector.unitClamp c = c := by
  have channel (a : Single) (ha : a ∈ c.toList) : NumericRange.unit.clamp a = a :=
    @NumericRange.clamp_of_within .unit a (h a ha).1 (h a ha).2
  rw [Vector.unitClamp_eq, channel c.x (by simp [Vec3.toList]), channel c.y (by simp [Vec3.toList]),
    channel c.z (by simp [Vec3.toList])]

end Color

/-! ### Controls -/

/-- Why a control refuses a value. -/
inductive Control.Refuses (control : Control) : ControlValue → ControlError → Prop where
  | number {x} (hkind : control.isColor = true) :
      Refuses control (.number x) (.wrongKind control.id .color)
  | color {c} (hkind : control.isColor = false) :
      Refuses control (.color c) (.wrongKind control.id .numeric)
  | nonFinite {x} (hkind : control.isColor = false) (hfinite : x.isFinite = false) :
      Refuses control (.number x) (.nonFinite control.id)

namespace Control

variable {control : Control} {v w : ControlValue} {e : ControlError}

theorem Refuses.accept (h : control.Refuses v e) : control.accept v = .error e := by
  cases h with
  | number hkind =>
    rw [isColor, Option.isNone_iff_eq_none] at hkind
    simp only [Control.accept, hkind]
  | color hkind =>
    cases hrange : control.range? with
    | none => simp [isColor, hrange] at hkind
    | some range => simp only [Control.accept, hrange]
  | nonFinite hkind hfinite =>
    cases hrange : control.range? with
    | none => simp [isColor, hrange] at hkind
    | some range => simp only [Control.accept, hrange, hfinite, Bool.false_eq_true, if_false]

/-- Every value suits a control or is refused by it. -/
theorem suits_or_refuses (control : Control) (v : ControlValue) :
    control.Suits v ∨ ∃ e, control.Refuses v e := by
  cases v with
  | number x =>
    cases hkind : control.isColor with
    | true => exact .inr ⟨_, .number hkind⟩
    | false =>
      cases hfinite : x.isFinite with
      | true => exact .inl (.number hkind hfinite)
      | false => exact .inr ⟨_, .nonFinite hkind hfinite⟩
  | color c =>
    cases hkind : control.isColor with
    | true => exact .inl (.color hkind)
    | false => exact .inr ⟨_, .color hkind⟩

/-- A control refuses values of the other kind and numbers that are not finite, and no others. -/
theorem accept_eq_error : control.accept v = .error e ↔ control.Refuses v e := by
  refine ⟨fun h => ?_, Refuses.accept⟩
  rcases control.suits_or_refuses v with hsuits | ⟨e', hrefuses⟩
  · obtain ⟨w, hw⟩ := hsuits.accept
    cases hw.symm.trans h
  · cases hrefuses.accept.symm.trans h
    exact hrefuses

/-- What is stored belongs to the control, but for a channel that is not a number. -/
theorem admits_stored_iff (hordered : ∀ range, control.range? = some range →
    range.min.le range.max = true) (hbounded : control.Bounded) (h : control.accept v = .ok w) :
    control.Admits w ↔ v.Numeric := by
  rcases accept_cases h with ⟨range, x, hrange, rfl, hfinite, rfl⟩ | ⟨c, hrange, rfl, rfl⟩
  · obtain ⟨hmin, hmax⟩ := hbounded range hrange
    refine ⟨fun _ => trivial, fun _ => ⟨range, hrange, range.isFinite_clamp hmin hmax hfinite, ?_⟩⟩
    exact NumericRange.clamp_within (hordered range hrange) (Binary.isNaN_of_isFinite hfinite)
  · have hkind : control.isColor = true := by simp [isColor, hrange]
    exact (and_iff_right hkind).trans Color.inUnit_unitClamp

/-- What a control admits it stores as it is. -/
theorem accept_of_admits (h : control.Admits v) : control.accept v = .ok v := by
  cases v with
  | number x =>
    obtain ⟨range, hrange, hfinite, hmin, hmax⟩ := h
    rw [accept_number hrange hfinite, NumericRange.clamp_of_within hmin hmax]
  | color c =>
    obtain ⟨hkind, hunit⟩ := h
    rw [isColor, Option.isNone_iff_eq_none] at hkind
    rw [accept_color hkind, hunit.unitClamp]

end Control

/-- **What a control stores is inside its domain, but for channels that are not numbers.** A control
with finite and ordered bounds stores a value of its kind, finite if it is a number, and stores that
value again as it is. The value belongs to the control, a number within the bounds or a colour of
the unit cube, just when no channel of what was given is other than a number; such a channel stays,
and the others are held between zero and one. What belongs to the control is stored as it is. And
all that is refused is a value of the other kind or a number that is not finite. -/
theorem accept_settles (control : Control)
    (hordered : ∀ range, control.range? = some range → range.min.le range.max = true)
    (hbounded : control.Bounded) (v : ControlValue) :
    (∀ w, control.accept v = .ok w →
        control.Suits w ∧ control.accept w = .ok w ∧ (control.Admits w ↔ v.Numeric) ∧
        ∀ c, v = .color c → ∃ d, w = .color d ∧ List.Forall₂ Color.Held c.toList d.toList) ∧
      (control.Admits v → control.accept v = .ok v) ∧
      ∀ e, control.accept v = .error e ↔ control.Refuses v e := by
  refine ⟨fun w hw => ⟨Control.suits_stored hbounded hw, ?_, ?_, ?_⟩, Control.accept_of_admits,
    fun e => Control.accept_eq_error⟩
  · exact Control.accept_stored
      (fun range hrange => Binary.not_lt_of_le (hordered range hrange)) hbounded hw
  · exact Control.admits_stored_iff hordered hbounded hw
  · rintro c rfl
    rcases Control.accept_cases hw with ⟨_, _, -, heq, -⟩ | ⟨_, -, heq, rfl⟩
    · cases heq
    · cases heq
      exact ⟨_, rfl, Color.held_unitClamp c⟩

/-- A control for a colour. -/
def Control.tint : Control := ⟨"tint", "Tint", .color ⟨0, 0, 0⟩⟩

/-- Infinite channels are held at the bounds, one that is not a number is not. -/
theorem accept_settles_infinite :
    let bright : ControlValue := .color ⟨.infinity false, .infinity true, 0.5⟩
    let torn : ControlValue := .color ⟨.indefinite, 0.5, 2⟩
    Control.tint.accept bright = .ok (.color ⟨1, 0, 0.5⟩) ∧
      Control.tint.Admits (.color ⟨1, 0, 0.5⟩) ∧
      Control.tint.accept torn = .ok (.color ⟨.indefinite, 0.5, 1⟩) ∧
      Control.tint.accept (.color ⟨.indefinite, 0.5, 1⟩) = .ok (.color ⟨.indefinite, 0.5, 1⟩) := by
  intro bright torn
  have hordered : ∀ range, Control.tint.range? = some range → range.min.le range.max = true :=
    fun _ h => by cases h
  have hbounded : Control.tint.Bounded := fun _ h => by cases h
  have hbright : Control.tint.accept bright = .ok (.color ⟨1, 0, 0.5⟩) := by decide +kernel
  have htorn : Control.tint.accept torn = .ok (.color ⟨.indefinite, 0.5, 1⟩) := by decide +kernel
  obtain ⟨hstored, -⟩ := accept_settles .tint hordered hbounded bright
  obtain ⟨-, -, hadmits, -⟩ := hstored _ hbright
  obtain ⟨hstored', -⟩ := accept_settles .tint hordered hbounded torn
  obtain ⟨-, hagain, -⟩ := hstored' _ htorn
  exact ⟨hbright, hadmits.mpr (by decide +kernel), htorn, hagain⟩

/-- A control for a colour stores one with a channel that is not a number. -/
theorem accept_leaves_domain :
    ¬ ∀ (control : Control) (v w : ControlValue),
      (∀ range, control.range? = some range → range.min.le range.max = true) → control.Bounded →
        control.accept v = .ok w → control.Admits w := by
  intro hclaim
  have hadmits : Control.tint.Admits (.color ⟨.indefinite, 0.5, 1⟩) :=
    hclaim .tint (.color ⟨.indefinite, 0.5, 2⟩) _ (fun _ h => by cases h) (fun _ h => by cases h)
      (by decide +kernel)
  exact absurd hadmits (by decide +kernel)

end ColorChain
