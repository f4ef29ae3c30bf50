import ColorChain.Proofs.Chain.Origin
import ColorChain.Proofs.Control.Admits
import ColorChain.Proofs.Program.Measure

/-! The values of a chain belong to their controls.

Values come into a chain as defaults, as single values and from the two text forms. A default is
never checked, a value of a text when it is read and when it is stored, a single value only when it
is stored, and nobody counts them when a filter is made. What holds them together is that a filter
has all its values from the start, and that no later one is stored but by its control. So if the
defaults belong to their controls, all values do in every chain that comes about
(`values_admitted`), and the slots made of them are as many as a program counts. -/
namespace ColorChain

/-! ### What is read -/

/-- No colour of the entry has a channel other than a number. -/
def Entry.Numeric (e : Entry) : Prop := ∀ v ∈ e.2, v.Numeric

namespace Compact

variable {r : Registry} {id : String}

theorem field_numeric {control : Control} {text : List Char} {v : ControlValue}
    (h : field id control text = .ok v) : v.Numeric := by
  unfold field at h
  split at h
  · split at h
    · next hc =>
      cases h
      exact (Color.ofBytes_of_ofHex? hc).numeric
    · cases h
  · split at h
    · cases h
      trivial
    · cases h

theorem fields_numeric {controls : List Control} {texts : List (List Char)}
    {values : List ControlValue} (h : fields id controls texts = .ok values) :
    ∀ v ∈ values, v.Numeric := by
  fun_induction fields id controls texts generalizing values with
  | case1 control controls text texts ih =>
    obtain ⟨v, hv, h⟩ := Outcome.bind_eq_ok.mp h
    obtain ⟨vs, hvs, h⟩ := Outcome.bind_eq_ok.mp h
    cases h
    exact List.forall_mem_cons.mpr ⟨field_numeric hv, ih hvs⟩
  | case2 =>
    cases h
    simp

theorem clause_numeric {text : List Char} {e : Entry} (h : clause r text = .ok e) :
    e.Numeric := by
  unfold clause at h
  split at h
  · cases h
  · cases h
  · obtain ⟨d, -, h⟩ := Outcome.bind_eq_ok.mp h
    dsimp only at h
    split at h
    · cases h
    · obtain ⟨values, hvalues, h⟩ := Outcome.bind_eq_ok.mp h
      cases h
      exact fields_numeric hvalues

end Compact

namespace SavedFilter

variable {r : Registry} {id : String} {f : SavedFilter}

theorem argument_numeric {control : Control} {j : Json} {v : ControlValue}
    (h : argument id control j = .ok v) : v.Numeric := by
  unfold argument at h
  split at h
  · split at h
    · next hc =>
      cases h
      obtain ⟨text, -, hc⟩ := Option.bind_eq_some_iff.mp hc
      exact (Color.ofBytes_of_ofHex? hc).numeric
    · cases h
  · split at h
    · cases h
      trivial
    · cases h

theorem arguments_numeric {controls : List Control} {values : List ControlValue}
    (h : f.arguments controls = .ok values) : ∀ v ∈ values, v.Numeric := by
  induction controls generalizing values with
  | nil =>
    cases h
    simp
  | cons control controls ih =>
    unfold arguments at h
    split at h
    · cases h
    · obtain ⟨v, hv, h⟩ := Outcome.bind_eq_ok.mp h
      obtain ⟨vs, hvs, h⟩ := Outcome.bind_eq_ok.mp h
      cases h
      exact List.forall_mem_cons.mpr ⟨argument_numeric hv, ih hvs⟩

theorem entry_numeric {e : Entry} (h : f.entry r = .ok e) : e.Numeric := by
  obtain ⟨d, -, h⟩ := Outcome.bind_eq_ok.mp h
  obtain ⟨values, hvalues, h⟩ := Outcome.bind_eq_ok.mp h
  cases h
  exact arguments_numeric hvalues

end SavedFilter

/-! ### What is stored -/

/-- Every control of the registry admits its default. -/
def Registry.Admitting (r : Registry) : Prop :=
  ∀ d ∈ r.definitions, ∀ control ∈ d.controls, control.Admits control.default

/-- The filter is one of the registry, and each of its values belongs to its control. -/
structure Filter.Admitted (r : Registry) (f : Filter) : Prop where
  registered : r.get? f.id = some f.definition
  values : List.Forall₂ Control.Admits f.definition.controls f.values

/-- The value that an edit sets by itself. -/
def Edit.value? : Edit → Option ControlValue
  | .setValue _ _ v => some v
  | _ => none

/-- A colour that the edit sets has no channel other than a number. -/
def Edit.Numeric (e : Edit) : Prop := ∀ v ∈ e.value?, v.Numeric

instance (e : Edit) : Decidable e.Numeric := inferInstanceAs (Decidable (∀ v ∈ e.value?, _))

/-- Controls that admit their defaults admit what they store along their row. -/
theorem Control.Stores.admits {controls : List Control} {values storeds : List ControlValue}
    (h : Stores controls values storeds)
    (hdefaults : ∀ control ∈ controls, control.Admits control.default)
    (hvalues : ∀ v ∈ values, v.Numeric) : List.Forall₂ Admits controls storeds := by
  induction h with
  | nil => exact .nil
  | cons haccept _ ih =>
    obtain ⟨hdefault, hdefaults⟩ := List.forall_mem_cons.mp hdefaults
    obtain ⟨hv, hvalues⟩ := List.forall_mem_cons.mp hvalues
    exact .cons (admits_stored hdefault hv haccept) (ih hdefaults hvalues)

namespace Chain

variable {c : Chain} {e : Edit}

/-- One edit keeps the values with their controls: of the filters that it leaves, the new ones have
the defaults, and all other new values went through a control. -/
theorem admitted_step (hr : c.registry.Admitting) (he : e.Numeric)
    (hc : ∀ f ∈ c.filters, f.Admitted c.registry) :
    ∀ f ∈ (c.step e).filters, f.Admitted c.registry := by
  intro f hf
  cases origin_step c e f hf with
  | kept g hg hdefinition hvalues =>
    obtain ⟨hregistered, hadmitted⟩ := hc g hg
    refine ⟨?_, ?_⟩
    · rw [Filter.id, hdefinition]
      exact hregistered
    · rw [hdefinition, hvalues]
      exact hadmitted
  | fresh hregistered hvalues =>
    refine ⟨hregistered, ?_⟩
    rw [hvalues]
    exact Control.row_defaults (hr _ (Registry.mem_of_get? hregistered))
  | set key k value g hedit hg hset =>
    subst hedit
    obtain ⟨hregistered, hadmitted⟩ := hc g hg
    obtain ⟨control, stored, hcontrol, hstored, rfl⟩ := Filter.setValue_eq_ok.mp hset
    have hdefault := hr _ (Registry.mem_of_get? hregistered) control
      (List.mem_of_getElem? hcontrol)
    exact ⟨hregistered,
      Control.row_set hadmitted hcontrol (Control.admits_stored hdefault (he value rfl) hstored)⟩
  | read form name es entry hedit hread hentry hheld =>
    have hregistered := (ChainForm.read_sound hread entry hentry).1
    have hnumeric : entry.Numeric := ChainForm.read_forall
      (fun _ _ => Compact.clause_numeric) (fun _ _ => SavedFilter.entry_numeric) hread entry hentry
    refine ⟨?_, ?_⟩
    · rw [Filter.id, hheld.definition]
      exact hregistered
    · rw [hheld.definition]
      exact hheld.stored.admits (hr _ (Registry.mem_of_get? hregistered)) hnumeric

theorem admitted_run (hr : c.registry.Admitting) (es : List Edit) (hes : ∀ e ∈ es, e.Numeric)
    (hc : ∀ f ∈ c.filters, f.Admitted c.registry) :
    ∀ f ∈ (c.run es).filters, f.Admitted c.registry := by
  induction es generalizing c with
  | nil => exact hc
  | cons e rest ih =>
    obtain ⟨he, hrest⟩ := List.forall_mem_cons.mp hes
    have hregistry := (step_change c e).registry
    have hstep := admitted_step hr he hc
    rw [← hregistry] at hr hstep ⊢
    exact ih hr hrest hstep

/-- The slots of a sound chain are those of its definitions, and its layout counts them. -/
theorem Sound.layout {c : Chain} (hc : c.Sound)
    (hr : ∀ d ∈ c.registry.definitions, d.Steady) :
    c.slots.length = (c.filters.map fun f => f.definition.slotCount).sum ∧
      ∃ l, c.registry.layout c.ids = .ok l ∧ c.slots.length = l.slotCount := by
  have hslots := Layout.slotCount_eq_length hr hc
  refine ⟨?_, Layout.ofDefinitions (c.filters.map Filter.definition), ?_, hslots.symm⟩
  · rw [slots, ← hslots, Layout.slotCount_ofDefinitions, List.map_map]
    rfl
  · rw [Registry.layout, ids, Registry.resolve_ids hc]
    rfl

end Chain

/-- **Every value belongs to its control.** In every chain that comes about over a registry whose
defaults belong to their controls, by edits that are made or refused, in which no colour is set
that is no colour: a filter has a value for each control of its definition, in order, and each of
the control's kind and within its bounds. If its definitions make equally many slots of equally
many values, the chain has as many slots as they declare, and as the layout of its ids counts. -/
theorem values_admitted (r : Registry) (hr : r.Admitting) (edits : List Edit)
    (hedits : ∀ e ∈ edits, e.Numeric) :
    let c := Editor.history (Chain.new r) edits
    (∀ f ∈ c.filters, r.get? f.id = some f.definition ∧
        f.values.length = f.definition.controls.length ∧
        List.Forall₂ Control.Admits f.definition.controls f.values) ∧
      ((∀ d ∈ r.definitions, d.Steady) →
        c.slots.length = (c.filters.map fun f => f.definition.slotCount).sum ∧
        ∃ l, r.layout c.ids = .ok l ∧ c.slots.length = l.slotCount) ∧
      c.visibility.length = c.filters.length := by
  intro c
  have hrun : c = (Chain.new r).run edits := Editor.history_eq _ _
  have hregistry : c.registry = r := by rw [hrun, Chain.run_new_registry]
  refine ⟨fun f hf => ?_, fun hsteady => ?_, List.length_map _⟩
  · rw [hrun] at hf
    obtain ⟨hregistered, hvalues⟩ :=
      Chain.admitted_run (c := .new r) hr edits hedits (by simp [Chain.new]) f hf
    exact ⟨hregistered, hvalues.length_eq.symm, hvalues⟩
  · have hsound : c.Sound := hrun ▸ Chain.sound_run_new r edits
    rw [← hregistry] at hsteady ⊢
    exact hsound.layout hsteady

/-- Values beyond their bounds by all ways in, one that is refused, and an infinite channel. -/
theorem values_admitted_beyond :
    let edits : List Edit := [
      .decode "posterize:900;blend_screen:FFF,-5;~c", .setValue ⟨0⟩ 0 (.number (.infinity true)),
      .setValue ⟨1⟩ 0 (.color ⟨2, .infinity true, 0.5⟩), .setValue ⟨1⟩ 1 (.number 250),
      .setVisible ⟨1⟩ false]
    let c := Editor.history (Chain.new .builtin) edits
    Registry.builtin.Admitting ∧ (∀ e ∈ edits, e.Numeric) ∧
      (∀ f ∈ c.filters, List.Forall₂ Control.Admits f.definition.controls f.values) ∧
      c.filters.map Filter.values = [[.number 64], [.color ⟨1, 0, 0.5⟩, .number 100]] ∧
      c.slots.length = 2 := by
  intro edits c
  have hedits : ∀ e ∈ edits, e.Numeric := by decide +kernel
  obtain ⟨hvalues, hslots, -⟩ :=
    values_admitted .builtin Catalog.admits_default edits hedits
  have hhistory : c = (Chain.new .builtin).run edits := Editor.history_eq _ _
  refine ⟨Catalog.admits_default, hedits, fun f hf => (hvalues f hf).2.2, ?_, ?_⟩
  · rw [hhistory]
    decide +kernel
  · rw [(hslots Catalog.steady).1, Editor.history_eq]
    decide +kernel

end ColorChain
