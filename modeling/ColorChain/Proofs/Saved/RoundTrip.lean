import ColorChain.Proofs.Chain.Sound
import ColorChain.Proofs.Saved.Record

/-! Saved chains that are loaded again.

A filter's arguments are sorted by key, so they are no longer in the order of its controls.
Ids of controls are unique, so each control finds its own (`Filter.Sound.get?_saved`). If the
values come back from what is saved of them, the saved chain is loaded as a copy: `load_saved`. -/
namespace ColorChain

/-! ### Filters -/

namespace Filter

/-- Every value of the filter comes back from what is saved of it. -/
def ReturnsSaved (f : Filter) : Prop :=
  ∀ p ∈ f.definition.controls.zip f.values,
    p.1.Returns p.2 (SavedFilter.argument f.id p.1 (p.1.saved p.2))

instance (f : Filter) : Decidable f.ReturnsSaved :=
  inferInstanceAs (Decidable (∀ p ∈ f.definition.controls.zip f.values, _))

variable {r : Registry} {f : Filter}

/-- Every control finds its own value under its id. -/
theorem Sound.get?_saved (hf : f.Sound r) {p : Control × ControlValue}
    (hp : p ∈ f.definition.controls.zip f.values) :
    Json.Fields.get? f.saved.args p.1.id = some (p.1.saved p.2) := by
  have hids : (f.definition.controls.map Control.id).Nodup :=
    Definition.nodup_controls (r.valid _ (Registry.mem_of_get? hf.registered))
  have hentries : List.zipWith (fun control value => (control.id, control.saved value))
      f.definition.controls f.values =
        (f.definition.controls.zip f.values).map fun p => (p.1.id, p.1.saved p.2) :=
    (List.map_uncurry_zip_eq_zipWith ..).symm
  unfold saved
  rw [hentries]
  apply Json.Fields.get?_ofEntries
  · have hkeys : ((f.definition.controls.zip f.values).map
        fun p => (p.1.id, p.1.saved p.2)).map Prod.fst = f.definition.controls.map Control.id := by
      rw [List.map_map]
      show (f.definition.controls.zip f.values).map (Control.id ∘ Prod.fst) = _
      rw [← List.map_map, List.map_fst_zip hf.values.ge]
    rw [hkeys]
    exact hids
  · exact List.mem_map.mpr ⟨p, hp, rfl⟩

end Filter

namespace SavedFilter

theorem arguments_eq_ok {f : SavedFilter} {form : Control → ControlValue → Json}
    {controls : List Control} {values ws : List ControlValue}
    (hlen : values.length = controls.length)
    (hget : ∀ p ∈ controls.zip values, f.args.get? p.1.id = some (form p.1 p.2))
    (h : List.zipWith (fun control v => argument f.id control (form control v)) controls values =
      ws.map .ok) :
    f.arguments controls = .ok ws := by
  induction controls generalizing values ws with
  | nil =>
    cases ws with
    | nil => rfl
    | cons w ws => cases h
  | cons control controls ih =>
    cases values with
    | nil => simp at hlen
    | cons v values =>
      cases ws with
      | nil => cases h
      | cons w ws =>
        rw [List.zipWith_cons_cons, List.map_cons, List.cons.injEq] at h
        rw [List.zip_cons_cons, List.forall_mem_cons] at hget
        rw [arguments, hget.1]
        simp only [h.1, ih (by simpa using hlen) hget.2 h.2]
        rfl

theorem entry_eq_ok {r : Registry} {f : SavedFilter} {d : Definition} {ws : List ControlValue}
    (hd : r.get? f.id = some d) (h : f.arguments d.controls = .ok ws) :
    f.entry r = .ok (d, ws) := by
  rw [entry, lookup_eq_ok.mpr hd]
  simp only [bind, Except.bind, h]
  rfl

/-- The entry of a filter whose values come back, and what it restores. -/
theorem entry_saved {r : Registry} {f : Filter} (hf : f.Sound r) (h : f.ReturnsSaved) :
    ∃ e, f.saved.entry r = .ok e ∧ Entry.Restores f e := by
  obtain ⟨ws, storeds, hreads, hstores, hvalues⟩ := @Control.returns_row _ _
    (fun control v => argument f.id control (control.saved v)) hf.values h
  have harguments : f.saved.arguments f.definition.controls = .ok ws :=
    arguments_eq_ok hf.values (fun p hp => hf.get?_saved hp) hreads
  exact ⟨(f.definition, ws), entry_eq_ok hf.registered harguments,
    ⟨rfl, storeds, hstores, hvalues⟩⟩

/-- The entries of a row of filters. -/
theorem entries_saved {r : Registry} {fs : List Filter} (hfs : ∀ f ∈ fs, f.Sound r)
    (h : ∀ f ∈ fs, f.ReturnsSaved) :
    ∃ es, entries r (fs.map Filter.saved) = .ok es ∧ List.Forall₂ Entry.Restores fs es := by
  induction fs with
  | nil => exact ⟨[], rfl, .nil⟩
  | cons f rest ih =>
    obtain ⟨hf, hrest⟩ := List.forall_mem_cons.mp hfs
    obtain ⟨hreturns, hreturnsRest⟩ := List.forall_mem_cons.mp h
    obtain ⟨e, he, hrestores⟩ := entry_saved hf hreturns
    obtain ⟨es, hes, hall⟩ := ih hrest hreturnsRest
    refine ⟨e :: es, ?_, .cons hrestores hall⟩
    rw [List.map_cons, entries, he, hes]
    rfl

end SavedFilter

/-! ### Chains -/

namespace Chain

variable {c d : Chain}

/-- The value of a saved chain is loaded as the entries of its filters. -/
theorem loadJson_value {saved : SavedChain} {es : List Entry}
    (h : SavedFilter.entries d.registry saved.filters = .ok es) :
    d.loadJson saved.value = d.load saved.name es := by
  rw [loadJson, SavedChain.ofJson?_value]
  simp only [h, bind, Except.bind]

/-- A saved chain whose values come back is loaded as a copy. -/
theorem Sound.loadJson_saved (hc : c.Sound) (hd : d.registry = c.registry)
    (h : ∀ f ∈ c.filters, f.ReturnsSaved) :
    ∃ d', d.loadJson c.saved.value = .ok d' ∧ Copy c d d' := by
  obtain ⟨es, hes, hrestores⟩ := SavedFilter.entries_saved hc h
  obtain ⟨d', hload, hcopy⟩ := load_copy c d hrestores
  refine ⟨d', ?_, hcopy⟩
  rw [← hd] at hes
  rw [loadJson_value hes]
  exact hload

/-- The text of a saved chain starts with a brace, whatever its name is. -/
theorem head_toJsonText (c : Chain) : c.toJsonText.toList.head? = some '\x7b' := by
  rw [toJsonText, Json.render, String.toList_ofList, SavedChain.toJson, Json.text]
  rfl

theorem decode_toJsonText {j : Json} (d : Chain) (h : Json.parse? c.toJsonText = some j) :
    d.decode c.toJsonText = d.loadJson j := by
  rw [decode, if_pos c.head_toJsonText, h]

end Chain

/-! ### The round trip -/

/-- **JSON round trip.** A chain whose values come back from what is saved of them is loaded,
by any chain over its registry, as a copy: its name, ids and values in the order of the
controls, all filters visible, and the loading chain's own seed. So it is from the JSON text,
if reading what was written gives the value that was saved. With the built-in filters the
values that come back include every in-range number nearest to a decimal with the control's
places and every colour whose channels are bytes. -/
theorem load_saved :
    (∀ (r : Registry) (edits : List Edit) (d : Chain), d.registry = r →
      (∀ f ∈ ((Chain.new r).run edits).filters, f.ReturnsSaved) →
      (∃ d', d.loadJson ((Chain.new r).run edits).saved.value = .ok d' ∧
        Chain.Copy ((Chain.new r).run edits) d d' ∧
        d'.ids = ((Chain.new r).run edits).ids) ∧
      (Json.parse? ((Chain.new r).run edits).toJsonText =
          some ((Chain.new r).run edits).saved.value →
        ∃ d', d.decode ((Chain.new r).run edits).toJsonText = .ok d' ∧
          Chain.Copy ((Chain.new r).run edits) d d' ∧
          d'.ids = ((Chain.new r).run edits).ids)) ∧
    ∀ definition ∈ Registry.builtin.definitions, ∀ control ∈ definition.controls,
      ∀ v, control.Exact v →
        control.Returns v (SavedFilter.argument definition.id control (control.saved v)) := by
  refine ⟨?_, ?_⟩
  · intro r edits d hd h
    have hregistry := Chain.run_new_registry r edits
    have hsound := Chain.sound_run_new r edits
    generalize (Chain.new r).run edits = c at *
    obtain ⟨d', hload, hcopy⟩ := hsound.loadJson_saved (hd.trans hregistry.symm) h
    refine ⟨⟨d', hload, hcopy, hcopy.ids⟩, ?_⟩
    intro hparse
    refine ⟨d', ?_, hcopy, hcopy.ids⟩
    rw [Chain.decode_toJsonText d hparse]
    exact hload
  · intro definition hdefinition control hcontrol v hv
    exact hv.returns_saved (Catalog.small_range definition hdefinition control hcontrol) _

/-- Two filters, one with a value of its own, under a name with a quote and a line break. -/
def quoteEdits : List Edit :=
  [.add "posterize", .add "hsl_multiply", .setValue ⟨1⟩ 0 (.number 1.15), .setName "\x7b\"~\n"]

/-- Quotes and line breaks in a name do not disturb the text, and 1.15 comes back. -/
theorem load_saved_quoteName :
    (∀ f ∈ ((Chain.new .builtin).run quoteEdits).filters, f.ReturnsSaved) ∧
    (∃ d', (Chain.new .builtin).decode ((Chain.new .builtin).run quoteEdits).toJsonText = .ok d' ∧
      d'.name = "\x7b\"~\n" ∧ d'.ids = ["posterize", "hsl_multiply"]) ∧
    Control.Returns ⟨"hue", "Hue", .number 1 Catalog.factor⟩ (.number 1.15)
      (SavedFilter.argument "hsl_multiply" ⟨"hue", "Hue", .number 1 Catalog.factor⟩
        (Control.saved ⟨"hue", "Hue", .number 1 Catalog.factor⟩ (.number 1.15))) := by
  have hreturns : ∀ f ∈ ((Chain.new .builtin).run quoteEdits).filters, f.ReturnsSaved := by
    decide +kernel
  have hdoubles : ∀ f ∈ ((Chain.new .builtin).run quoteEdits).filters, f.ReadableDoubles := by
    decide +kernel
  obtain ⟨d', hdecode, hcopy, hids⟩ := (load_saved.1 .builtin quoteEdits (.new .builtin) rfl
    hreturns).2 (Chain.parse?_toJsonText hdoubles)
  refine ⟨hreturns, ⟨d', hdecode, hcopy.name, hids⟩, ?_⟩
  exact load_saved.2 Catalog.hslMultiply (by simp [Registry.builtin, Catalog.definitions]) _
    (by simp [Catalog.hslMultiply]) _ .of_factor

end ColorChain
