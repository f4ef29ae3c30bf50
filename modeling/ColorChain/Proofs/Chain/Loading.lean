import ColorChain.Chain.Loading
import ColorChain.Proofs.Registry
import Mathlib.Data.List.Forall2

/-! Loading entries that the controls accept.

When every control accepts the value read for it, loading succeeds and replaces the filters
by visible ones that hold what the controls made of the values (`load_stores`). The seed
stays, and the keys are counted on from the chain's counter. -/
namespace ColorChain

/-! ### Rows of values -/

namespace Control

variable {P : Control → ControlValue → Prop} {controls : List Control} {values : List ControlValue}

/-- What holds of the defaults of controls holds along their row. -/
theorem row_defaults (h : ∀ control ∈ controls, P control control.default) :
    List.Forall₂ P controls (controls.map default) := by
  rw [List.forall₂_map_right_iff, List.forall₂_same]
  exact h

/-- What holds along a row still does when one value is replaced by another of which it holds. -/
theorem row_set (h : List.Forall₂ P controls values) {k : Nat} {control : Control}
    {v : ControlValue} (hcontrol : controls[k]? = some control) (hv : P control v) :
    List.Forall₂ P controls (values.set k v) := by
  induction h generalizing k with
  | nil => exact .nil
  | cons hfirst hrest ih =>
    cases k with
    | zero =>
      cases hcontrol
      exact .cons hv hrest
    | succ k => exact .cons hfirst (ih hcontrol)

end Control

/-- What a row of controls stores of a row of values, each control of its own. -/
inductive Control.Stores : List Control → List ControlValue → List ControlValue → Prop where
  | nil : Stores [] [] []
  | cons {control value stored controls values storeds} :
      control.accept value = .ok stored → Stores controls values storeds →
      Stores (control :: controls) (value :: values) (stored :: storeds)

namespace Control.Stores

variable {controls : List Control} {values storeds : List ControlValue}

/-- Each control stores of its own value. -/
theorem stored_at (h : Stores controls values storeds) {k : Nat} {control : Control}
    {v : ControlValue} (hcontrol : controls[k]? = some control) (hv : values[k]? = some v) :
    ∃ stored, control.accept v = .ok stored ∧ storeds[k]? = some stored := by
  induction h generalizing k with
  | nil => cases hcontrol
  | cons haccept _ ih =>
    cases k with
    | zero =>
      cases hcontrol
      cases hv
      exact ⟨_, haccept, rfl⟩
    | succ k => exact ih hcontrol hv

/-- Setting the values from some control on. The induction is on the row, with the controls
before it and their values in front; `old` are the values that are replaced. -/
theorem setValues (h : Stores controls values storeds) (before : List Control)
    (first old : List ControlValue) (f : Filter)
    (hcontrols : f.definition.controls = before ++ controls) (hvalues : f.values = first ++ old)
    (hfirst : first.length = before.length) (hold : old.length = controls.length) :
    f.setValues before.length values = .ok { f with values := first ++ storeds } := by
  induction h generalizing before first old f with
  | nil =>
    rw [List.length_nil, List.length_eq_zero_iff] at hold
    rw [Filter.setValues, ← hold, ← hvalues]
  | @cons control value stored controls values storeds haccept _ ih =>
    cases old with
    | nil => simp at hold
    | cons replaced old =>
      have hset : f.setValue before.length value =
          .ok { f with values := (first ++ [stored]) ++ old } := by
        have hget : f.definition.controls[before.length]? = some control := by
          simp [hcontrols]
        have hlist : f.values.set before.length stored = (first ++ [stored]) ++ old := by
          rw [hvalues, ← hfirst]
          simp
        rw [Filter.setValue, hget]
        simp only [haccept, Except.map, hlist]
      have hrest := ih (before ++ [control]) (first ++ [stored]) old
        { f with values := (first ++ [stored]) ++ old } (by simp [hcontrols]) rfl
        (by simp [hfirst]) (by simpa using hold)
      rw [List.length_append, List.length_singleton] at hrest
      rw [Filter.setValues, hset]
      simpa [bind, Except.bind] using hrest

/-- The filter of a definition with values that its controls accept. -/
theorem ofValues {d : Definition} (h : Stores d.controls values storeds) (key : FilterKey) :
    Filter.ofValues key d values = .ok ⟨key, d, storeds, true⟩ :=
  h.setValues [] [] d.defaults (.ofDefaults key d) rfl rfl rfl
    (by rw [Definition.defaults, List.length_map])

end Control.Stores

/-! ### Entries -/

/-- A filter made of an entry. -/
structure Entry.Held (e : Entry) (f : Filter) : Prop where
  definition : f.definition = e.1
  visible : f.visible = true
  stored : Control.Stores e.1.controls e.2 f.values

/-- Every value of the entry is accepted by its control. -/
def Entry.Accepted (e : Entry) : Prop := ∃ storeds, Control.Stores e.1.controls e.2 storeds

theorem Entry.filters_accepted {es : List Entry} (h : ∀ e ∈ es, e.Accepted) (key : Nat) :
    ∃ fs, Entry.filters key es = .ok fs ∧ List.Forall₂ Entry.Held es fs ∧
      fs.map Filter.key = (List.range' key es.length).map FilterKey.mk := by
  induction es generalizing key with
  | nil => exact ⟨[], rfl, .nil, rfl⟩
  | cons e rest ih =>
    obtain ⟨d, values⟩ := e
    obtain ⟨⟨storeds, hstores⟩, hrest⟩ := List.forall_mem_cons.mp h
    obtain ⟨fs, hfs, hheld, hkeys⟩ := ih hrest (key + 1)
    refine ⟨⟨⟨key⟩, d, storeds, true⟩ :: fs, ?_, .cons ⟨rfl, rfl, hstores⟩ hheld, ?_⟩
    · rw [Entry.filters, hstores.ofValues, hfs]
      rfl
    · rw [List.map_cons, hkeys, List.length_cons, List.range'_succ, List.map_cons]

namespace Chain

/-- The chain `c'` is `c` with a name and entries loaded. -/
structure Loaded (c : Chain) (name : String) (es : List Entry) (c' : Chain) : Prop where
  name : c'.name = name
  seed : c'.seed = c.seed
  registry : c'.registry = c.registry
  filters : List.Forall₂ Entry.Held es c'.filters
  keys : c'.filters.map Filter.key = (List.range' c.nextKey es.length).map FilterKey.mk
  nextKey : c'.nextKey = c.nextKey + es.length

/-- **Entries whose values the controls accept are loaded**, all of them. -/
theorem load_accepted (c : Chain) (name : String) {es : List Entry}
    (h : ∀ e ∈ es, e.Accepted) : ∃ c', c.load name es = .ok c' ∧ c.Loaded name es c' := by
  obtain ⟨fs, hfs, hheld, hkeys⟩ := Entry.filters_accepted h c.nextKey
  refine ⟨{ c with name, filters := fs, nextKey := c.nextKey + fs.length }, ?_, ?_⟩
  · rw [load, hfs]
  · exact ⟨rfl, rfl, rfl, hheld, hkeys, by rw [hheld.length_eq]⟩

end Chain
end ColorChain
