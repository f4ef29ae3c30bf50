import ColorChain.Proofs.Chain.Change
import ColorChain.Proofs.Chain.Loading

/-! What a history of edits keeps.

A property of filters that new ones have and that another value or visibility leaves alone
(`Filter.Kept`) holds of every filter of a chain after every history (`forall_run`). The
first such property is soundness: a filter's definition is the one that the registry holds
under its id, and the filter has one value for each of its controls. -/
namespace ColorChain

/-- A property that new filters have and that edits of a filter keep. -/
structure Filter.Kept (r : Registry) (P : Filter → Prop) : Prop where
  fresh : ∀ key d, r.get? d.id = some d → P (.ofDefaults key d)
  shown : ∀ f visible, P f → P { f with visible }
  set : ∀ f f' control value, P f → f.setValue control value = .ok f' → P f'

namespace Filter.Kept

variable {r : Registry} {P : Filter → Prop}

theorem setValues (hk : Kept r P) {f f' : Filter} {index : Nat} {values : List ControlValue}
    (hf : P f) (h : f.setValues index values = .ok f') : P f' := by
  induction values generalizing f index with
  | nil =>
    cases h
    exact hf
  | cons value rest ih =>
    obtain ⟨g, hg, h⟩ := Outcome.bind_eq_ok.mp h
    exact ih (hk.set f g index value hf hg) h

/-- Filters read from a text have the property. -/
theorem filters (hk : Kept r P) {key : Nat} {es : List Entry} {fs : List Filter}
    (hes : ∀ e ∈ es, e.Registered r) (h : Entry.filters key es = .ok fs) : ∀ f ∈ fs, P f := by
  induction es generalizing key fs with
  | nil =>
    cases h
    simp
  | cons e rest ih =>
    obtain ⟨d, values⟩ := e
    obtain ⟨he, hrest⟩ := List.forall_mem_cons.mp hes
    obtain ⟨f, hf, h⟩ := Outcome.bind_eq_ok.mp h
    obtain ⟨fs', hfs, h⟩ := Outcome.bind_eq_ok.mp h
    cases h
    exact List.forall_mem_cons.mpr ⟨hk.setValues (hk.fresh ⟨key⟩ d he) hf, ih hrest hfs⟩

end Filter.Kept

namespace Chain

variable {c c' : Chain} {P : Filter → Prop}

theorem mem_of_get? {key : FilterKey} {f : Filter} (h : c.get? key = some f) : f ∈ c.filters :=
  List.mem_of_find?_eq_some h

theorem Change.forall_filters (h : Change c c') (hk : Filter.Kept c.registry P)
    (hc : ∀ f ∈ c.filters, P f) : ∀ f ∈ c'.filters, P f := by
  intro f hf
  cases h with
  | label => exact hc f hf
  | insert index d hi hd =>
    rcases (List.mem_insertIdx hi).mp hf with rfl | hf
    · exact hk.fresh _ d hd
    · exact hc f hf
  | remove key g hg => exact hc f (List.mem_of_mem_eraseIdx hf)
  | move source target g hg ht => exact hc f (mem_of_mem_move hg ht hf)
  | reveal key g visible hg =>
    rcases List.mem_or_eq_of_mem_set hf with hf | rfl
    · exact hc f hf
    · exact hk.shown g visible (hc g (mem_of_get? hg))
  | set key g g' control value hg hv =>
    rcases List.mem_or_eq_of_mem_set hf with hf | rfl
    · exact hc f hf
    · exact hk.set g f control value (hc g (mem_of_get? hg)) hv
  | clear => cases hf
  | load name es fs hes hfs => exact hk.filters hes hfs f hf

/-- **What every edit keeps of a filter holds after every history.** -/
theorem forall_run (hk : Filter.Kept c.registry P) (hc : ∀ f ∈ c.filters, P f)
    (es : List Edit) : ∀ f ∈ (c.run es).filters, P f := by
  induction es generalizing c with
  | nil => exact hc
  | cons e rest ih =>
    have hstep := step_change c e
    exact ih (hstep.registry ▸ hk) (hstep.forall_filters hk hc)

end Chain

/-! ### Soundness -/

structure Filter.Sound (r : Registry) (f : Filter) : Prop where
  registered : r.get? f.id = some f.definition
  values : f.values.length = f.definition.controls.length

/-- Setting a value changes that value and nothing else. -/
theorem Filter.setValue_eq_ok {f f' : Filter} {index : Nat} {value : ControlValue} :
    f.setValue index value = .ok f' ↔ ∃ control stored,
      f.definition.controls[index]? = some control ∧
      control.accept value = .ok stored ∧ f' = { f with values := f.values.set index stored } := by
  unfold setValue
  cases f.definition.controls[index]? with
  | none => simp
  | some control =>
    cases hv : control.accept value with
    | error e => simp [Except.map, hv]
    | ok stored => simp [Except.map, hv, eq_comm]

theorem Filter.kept_sound (r : Registry) : Filter.Kept r (Filter.Sound r) where
  fresh _ d hd := ⟨hd, by simp [Filter.ofDefaults, Definition.defaults]⟩
  shown _ _ hf := ⟨hf.registered, hf.values⟩
  set f f' _ _ hf h := by
    obtain ⟨control, stored, -, -, rfl⟩ := setValue_eq_ok.mp h
    exact ⟨hf.registered, by simpa using hf.values⟩

/-- What holds of every default, and of all that a control stores, holds along the values of sound
filters. -/
theorem Filter.kept_row {r : Registry} {P : Control → ControlValue → Prop}
    (hdefault : ∀ d ∈ r.definitions, ∀ control ∈ d.controls, P control control.default)
    (hstored : ∀ d ∈ r.definitions, ∀ control ∈ d.controls, ∀ v w, control.accept v = .ok w →
      P control w) :
    Filter.Kept r fun f => f.Sound r ∧ List.Forall₂ P f.definition.controls f.values where
  fresh key d hd :=
    ⟨(kept_sound r).fresh key d hd, Control.row_defaults (hdefault d (Registry.mem_of_get? hd))⟩
  shown f visible hf := ⟨(kept_sound r).shown f visible hf.1, hf.2⟩
  set f f' k value hf h := by
    refine ⟨(kept_sound r).set f f' k value hf.1 h, ?_⟩
    obtain ⟨control, stored, hcontrol, haccept, rfl⟩ := setValue_eq_ok.mp h
    have hdefinition := Registry.mem_of_get? hf.1.registered
    exact Control.row_set hf.2 hcontrol
      (hstored f.definition hdefinition control (List.mem_of_getElem? hcontrol) value stored haccept)

/-- Every filter is of a definition of the registry and has a value for each control. -/
def Chain.Sound (c : Chain) : Prop := ∀ f ∈ c.filters, f.Sound c.registry

namespace Chain

theorem run_new_registry (r : Registry) (es : List Edit) : ((new r).run es).registry = r :=
  run_registry (new r) es

/-- Every chain that comes about is sound. -/
theorem sound_run_new (r : Registry) (es : List Edit) : ((new r).run es).Sound := by
  have h := forall_run (c := new r) (Filter.kept_sound r) (by simp [new]) es
  rw [Sound, run_new_registry]
  exact h

end Chain
end ColorChain
