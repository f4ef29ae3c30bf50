import ColorChain.Proofs.Chain.Whole
import ColorChain.Proofs.Compact.RoundTrip
import ColorChain.Proofs.Json.Displayed
import ColorChain.Proofs.Saved.RoundTrip

/-! The two written forms of a chain.

Compact text keeps of every value what its control shows. A saved chain, whether it is handed over
as a value or as text, keeps the same of it, but a number without decimal places is an integer of 64
bits there, and what is beyond these is confined to their bound. So both forms of a chain are always
read, and as the same chain if no number in it overflows: `encodings_agree`. -/
namespace ColorChain

/-! ### Values -/

namespace Control

variable {control : Control} {v : ControlValue}

/-- The text of a saved value is read as the saved value is. -/
theorem Suits.argument_reread (h : control.Suits v) (hp : control.precision.toNat ≤ 15)
    (id : String) :
    (control.saved v).Legible ∧
      SavedFilter.argument id control (control.saved v).reread = .ok (control.confined v) := by
  have hsaved := h.argument_saved hp id
  cases h with
  | color _ => exact ⟨trivial, hsaved⟩
  | @number x hkind hfinite =>
    by_cases hnone : control.precision = 0
    · have hinteger : control.saved (.number x) =
          .ofInt (Display.rounded x control.precision).toWord64 := by
        simp only [saved, if_pos hnone]
      obtain ⟨hlow, hhigh⟩ := Binary.toWord64_bounds (Display.rounded x control.precision)
      obtain ⟨hlegible, hreread⟩ := Json.legible_ofInt hlow hhigh
      rw [← hinteger] at hlegible hreread
      exact ⟨hlegible, hreread.symm ▸ hsaved⟩
    · have hdouble : control.saved (.number x) =
          .number (.real (Display.rounded x control.precision)) := by
        simp only [saved, if_neg hnone, Json.ofDouble, Display.isFinite_rounded hp hfinite, if_true]
      obtain ⟨y, hread, hconvert⟩ := Display.read?_rounded hp hfinite
      have hreread := JsonNumber.reread_eq hread
      have hplaces : ¬ control.Overflows (.number x) := fun h => hnone h.1
      refine ⟨?_, ?_⟩
      · rw [hdouble]
        exact hread.trans (congrArg some hreread.symm)
      · rw [hdouble, Json.reread, hreread, confined_of_not_overflows hplaces]
        exact SavedFilter.argument_number id hkind hconvert (Display.isFinite_shown hp hfinite)

end Control

/-! ### Filters -/

/-- A sound filter whose values suit its controls. -/
structure Filter.Suited (r : Registry) (f : Filter) : Prop where
  sound : f.Sound r
  suits : List.Forall₂ Control.Suits f.definition.controls f.values

/-- The filter with its values as `read` gives them. -/
def Filter.readAs (f : Filter) (read : Control → ControlValue → ControlValue) : Entry :=
  (f.definition, List.zipWith read f.definition.controls f.values)

/-- The chain's filters with their values as `read` gives them. -/
def Chain.readAs (c : Chain) (read : Control → ControlValue → ControlValue) : List Entry :=
  c.filters.map fun f => f.readAs read

/-- All controls of the registry are moderate. -/
def Registry.Moderate (r : Registry) : Prop :=
  ∀ d ∈ r.definitions, ∀ control ∈ d.controls, control.Moderate

theorem Filter.suited_iff {r : Registry} {f : Filter} :
    f.Suited r ↔ f.Sound r ∧ List.Forall₂ Control.Suits f.definition.controls f.values :=
  ⟨fun h => ⟨h.sound, h.suits⟩, fun h => ⟨h.1, h.2⟩⟩

/-- Filters of moderate controls hold values that suit these. -/
theorem Filter.kept_suited {r : Registry} (hr : r.Moderate) :
    Filter.Kept r (Filter.Suited r) := by
  have hsuited : Filter.Suited r = fun f =>
      f.Sound r ∧ List.Forall₂ Control.Suits f.definition.controls f.values := by
    funext f
    exact propext suited_iff
  rw [hsuited]
  refine kept_row (fun d hd control hcontrol => ?_) fun d hd control hcontrol v w h => ?_
  · exact Control.suits_default (hr d hd control hcontrol).default
  · exact Control.suits_stored (hr d hd control hcontrol).bounded h

/-- The fields of a row of values spell what their controls show. -/
theorem Compact.spellsAll_displayed {controls : List Control} {values : List ControlValue}
    (h : List.Forall₂ (fun control v => control.precision.toNat ≤ 15 ∧ control.Suits v)
      controls values) :
    SpellsAll controls (List.zipWith Control.fieldText controls values)
      (List.zipWith Control.displayed controls values) := by
  induction h with
  | nil => exact .nil
  | cons hv _ ih => exact .cons (field_eq_ok.mp (hv.2.field_fieldText hv.1 "")) ih

namespace Filter.Suited

variable {r : Registry} {f : Filter}

theorem row (hf : f.Suited r) (hr : r.Moderate) :
    List.Forall₂ (fun control v => control.precision.toNat ≤ 15 ∧ control.Suits v)
      f.definition.controls f.values := by
  refine (List.forall₂_and_left _ _).mpr ⟨fun control hcontrol => ?_, hf.suits⟩
  exact (hr f.definition (Registry.mem_of_get? hf.sound.registered) control hcontrol).precision

/-- The clause of a filter spells what its controls show. -/
theorem clause (hf : f.Suited r) (hr : r.Moderate) :
    Compact.Clause r f.openClause (f.readAs Control.displayed) :=
  Compact.clause_of_spells hf.sound (Compact.spellsAll_displayed (hf.row hr))

/-- A filter is read from any form in which each control finds what is read as its value. -/
theorem entry_eq_ok {saved : SavedFilter} {form : Control → ControlValue → Json}
    {read : Control → ControlValue → ControlValue} (hf : f.Suited r) (hr : r.Moderate)
    (hid : saved.id = f.id)
    (hget : ∀ p ∈ f.definition.controls.zip f.values,
      saved.args.get? p.1.id = some (form p.1 p.2))
    (hread : ∀ control v, control.precision.toNat ≤ 15 → control.Suits v →
      SavedFilter.argument saved.id control (form control v) = .ok (read control v)) :
    saved.entry r = .ok (f.readAs read) := by
  refine SavedFilter.entry_eq_ok (hid ▸ hf.sound.registered)
    (SavedFilter.arguments_eq_ok hf.sound.values hget ?_)
  rw [List.map_zipWith]
  exact List.zipWith_congr _ _ _ _ ((hf.row hr).imp fun control v h => hread control v h.1 h.2)

theorem entry_saved (hf : f.Suited r) (hr : r.Moderate) :
    f.saved.entry r = .ok (f.readAs Control.confined) :=
  hf.entry_eq_ok hr rfl (fun _ hp => hf.sound.get?_saved hp) fun _ _ hp hv =>
    hv.argument_saved hp _

theorem entry_reread (hf : f.Suited r) (hr : r.Moderate) :
    f.saved.reread.entry r = .ok (f.readAs Control.confined) := by
  refine hf.entry_eq_ok hr rfl (fun p hp => ?_) fun _ _ hp hv => (hv.argument_reread hp _).2
  show Json.Fields.get? (Json.rereadFields f.saved.args) p.1.id = _
  rw [Json.get?_rereadFields, hf.sound.get?_saved hp]
  rfl

theorem legible (hf : f.Suited r) (hr : r.Moderate) :
    ∀ p ∈ f.definition.controls.zip f.values, (p.1.saved p.2).Legible := by
  intro p hp
  obtain ⟨hplaces, hv⟩ := List.forall₂_zip (hf.row hr) hp
  exact (hv.argument_reread hplaces "").1

end Filter.Suited

theorem SavedFilter.entries_map {r : Registry} {fs : List Filter} {form : Filter → SavedFilter}
    {entry : Filter → Entry} (h : ∀ f ∈ fs, (form f).entry r = .ok (entry f)) :
    entries r (fs.map form) = .ok (fs.map entry) := by
  induction fs with
  | nil => rfl
  | cons f rest ih =>
    obtain ⟨hf, hrest⟩ := List.forall_mem_cons.mp h
    rw [List.map_cons, entries, hf, ih hrest]
    rfl

/-! ### Chains -/

namespace Chain

variable {c d text json : Chain}

/-- Compact text is loaded as what the controls show. -/
theorem decode_displayed (hr : c.registry.Moderate) (hc : ∀ f ∈ c.filters, f.Suited c.registry)
    (hd : d.registry = c.registry) :
    d.decode c.encode = d.load c.name (c.readAs Control.displayed) := by
  have hsound : c.Sound := fun f hf => (hc f hf).sound
  refine hsound.decode_encode_eq hd ?_
  unfold readAs
  rw [List.forall₂_map_left_iff, List.forall₂_map_right_iff, List.forall₂_same]
  exact fun f hf => (hc f hf).clause hr

/-- A saved chain is loaded as what is left of its values, as a value and as text. -/
theorem loadJson_confined (hr : c.registry.Moderate) (hc : ∀ f ∈ c.filters, f.Suited c.registry)
    (hd : d.registry = c.registry) :
    d.loadJson c.saved.value =
        d.load c.name (c.readAs Control.confined) ∧
      d.decode c.toJsonText =
        d.load c.name (c.readAs Control.confined) := by
  refine ⟨loadJson_value ?_, ?_⟩
  · rw [hd]
    exact SavedFilter.entries_map fun f hf => (hc f hf).entry_saved hr
  · rw [decode_toJsonText d (parse?_legible fun f hf => (hc f hf).legible hr)]
    refine loadJson_value ?_
    rw [hd, SavedChain.reread]
    show SavedFilter.entries c.registry ((c.filters.map Filter.saved).map SavedFilter.reread) = _
    rw [List.map_map]
    exact SavedFilter.entries_map fun f hf => (hc f hf).entry_reread hr

/-- The two chains that are read of the forms of `c`. -/
structure Agree (c text json : Chain) : Prop where
  name : text.name = c.name ∧ json.name = c.name
  ids : text.ids = c.ids ∧ json.ids = c.ids
  visible : (∀ f ∈ text.filters, f.visible = true) ∧ ∀ f ∈ json.filters, f.visible = true
  /-- A value that does not overflow is the same in both. -/
  values : ∀ (i k : Nat) (f t j : Filter) (control : Control) (v : ControlValue),
    c.filters[i]? = some f → text.filters[i]? = some t → json.filters[i]? = some j →
    f.definition.controls[k]? = some control → f.values[k]? = some v →
    ¬ control.Overflows v → t.values[k]? = j.values[k]?
  /-- If no value overflows there is no difference at all. -/
  eq : (∀ f ∈ c.filters, ∀ p ∈ f.definition.controls.zip f.values, ¬ p.1.Overflows p.2) →
    text = json

theorem Loaded.ids_readAs {read : Control → ControlValue → ControlValue}
    (h : d.Loaded c.name (c.readAs read) text) : text.ids = c.ids :=
  ids_of_definitions ((List.forall₂_map_left_iff.mp h.filters).imp fun _ _ hf => hf.definition)

/-- The value that a control stores of what is read for it. -/
theorem Loaded.value_readAs {read : Control → ControlValue → ControlValue}
    (h : d.Loaded c.name (c.readAs read) text) {i k : Nat} {f t : Filter}
    {control : Control} {v : ControlValue} (hf : c.filters[i]? = some f)
    (ht : text.filters[i]? = some t) (hcontrol : f.definition.controls[k]? = some control)
    (hv : f.values[k]? = some v) :
    ∃ stored, control.accept (read control v) = .ok stored ∧ t.values[k]? = some stored := by
  have hmem : (f, t) ∈ c.filters.zip text.filters :=
    List.mem_of_getElem? (List.getElem?_zip_eq_some.mpr ⟨hf, ht⟩)
  have hheld := List.forall₂_zip (List.forall₂_map_left_iff.mp h.filters) hmem
  refine hheld.stored.stored_at hcontrol ?_
  exact List.getElem?_zipWith_eq_some.mpr ⟨control, v, hcontrol, hv, rfl⟩

theorem agree_of_loaded
    (htext : d.Loaded c.name (c.readAs Control.displayed) text)
    (hjson : d.Loaded c.name (c.readAs Control.confined) json)
    (heq : (∀ f ∈ c.filters, ∀ p ∈ f.definition.controls.zip f.values, ¬ p.1.Overflows p.2) →
      text = json) : c.Agree text json where
  name := ⟨htext.name, hjson.name⟩
  ids := ⟨htext.ids_readAs, hjson.ids_readAs⟩
  visible := ⟨htext.visible, hjson.visible⟩
  values := by
    intro i k f t j control v hf ht hj hcontrol hv hword
    obtain ⟨stored, hstored, htext⟩ := htext.value_readAs hf ht hcontrol hv
    obtain ⟨stored', hstored', hjson⟩ := hjson.value_readAs hf hj hcontrol hv
    rw [Control.confined_of_not_overflows hword, hstored] at hstored'
    rw [htext, hjson, Except.ok.inj hstored']
  eq := heq

end Chain

/-- Where nothing overflows both forms are read alike. -/
theorem Filter.readAs_confined {f : Filter}
    (h : ∀ p ∈ f.definition.controls.zip f.values, ¬ p.1.Overflows p.2) :
    f.readAs Control.confined = f.readAs Control.displayed := by
  unfold readAs
  rw [← List.map_uncurry_zip_eq_zipWith, ← List.map_uncurry_zip_eq_zipWith]
  exact congrArg _ (List.map_congr_left fun p hp => Control.confined_of_not_overflows (h p hp))

/-- **The two encodings carry the same chain**, large whole numbers apart. Over a registry whose
controls have finite defaults and bounds and at most fifteen decimal places, every chain that comes
about is read from both of its forms: from compact text with what its controls show, and from the
saved chain, as a value or as text, with what an integer of 64 bits holds of that where there are no
decimal places. The two chains have the name and the ids of the first one and no hidden filters, and
every value that is not beyond these integers is the same in both. -/
theorem encodings_agree {r : Registry} (hr : r.Moderate) (edits : List Edit) (d : Chain)
    (hd : d.registry = r) :
    ∃ text json,
      d.decode ((Chain.new r).run edits).encode = .ok text ∧
      d.loadJson ((Chain.new r).run edits).saved.value = .ok json ∧
      d.decode ((Chain.new r).run edits).toJsonText = .ok json ∧
      d.Loaded ((Chain.new r).run edits).name (((Chain.new r).run edits).readAs Control.displayed)
        text ∧
      d.Loaded ((Chain.new r).run edits).name (((Chain.new r).run edits).readAs Control.confined)
        json ∧
      ((Chain.new r).run edits).Agree text json := by
  have hregistry := Chain.run_new_registry r edits
  have hsuited : ∀ f ∈ ((Chain.new r).run edits).filters, f.Suited r :=
    @Chain.forall_run (Chain.new r) _ (Filter.kept_suited hr) (by simp [Chain.new]) edits
  generalize (Chain.new r).run edits = c at *
  subst hregistry
  have hdecode := Chain.decode_displayed hr hsuited hd
  obtain ⟨hvalue, htext⟩ := Chain.loadJson_confined hr hsuited hd
  obtain ⟨text, hload, hloaded⟩ : ∃ text,
      d.load c.name (c.readAs Control.displayed) = .ok text ∧
        d.Loaded c.name (c.readAs Control.displayed) text := by
    refine d.load_accepted c.name (List.forall_mem_map.mpr fun f hf => ?_)
    exact ((hsuited f hf).clause hr).accepted
  obtain ⟨json, hload', hloaded'⟩ : ∃ json,
      d.load c.name (c.readAs Control.confined) = .ok json ∧
        d.Loaded c.name (c.readAs Control.confined) json := by
    refine d.load_accepted c.name (List.forall_mem_map.mpr fun f hf => ?_)
    exact SavedFilter.entry_accepted ((hsuited f hf).entry_saved hr)
  refine ⟨text, json, hdecode.trans hload, hvalue.trans hload', htext.trans hload', hloaded,
    hloaded', Chain.agree_of_loaded hloaded hloaded' fun hword => ?_⟩
  have hentries : c.readAs Control.confined = c.readAs Control.displayed :=
    List.map_congr_left fun f hf => Filter.readAs_confined (hword f hf)
  rw [hentries, hload] at hload'
  exact Except.ok.inj hload'

/-! ### A filter of large numbers -/

/-- A filter with a whole number and one with many decimal places, both of a wide range. -/
def Definition.vast : Definition where
  id := "vast"
  name := "Vast"
  controls := [⟨"whole", "Whole", .number 1e19 ⟨0, 1e20, 1, 0⟩⟩,
    ⟨"part", "Part", .number 0.1 ⟨0, 1e30, 0.1, 15⟩⟩]
  slotCount := 1
  vectorize values := [⟨numberAt values 0, numberAt values 1, 0, 0⟩]
  kernel := .direct fun color slots => color * (slotAt slots 0).x
  template := "color = color * $0.x;"

/-- A registry with that filter only. -/
def Registry.vast : Registry := Registry.empty.offer .vast

theorem Registry.definitions_vast : Registry.vast.definitions = [.vast] :=
  Registry.definitions_offer (by decide +kernel) (by decide +kernel)

theorem Registry.moderate_vast : Registry.vast.Moderate := by
  unfold Moderate
  rw [definitions_vast]
  decide +kernel

/-- The filter with a whole number that an integer holds, and a tiny one beside it. -/
def vastEdits : List Edit :=
  [.add "vast", .setValue ⟨0⟩ 0 (.number 3e18), .setValue ⟨0⟩ 1 (.number 1e-14)]

/-- Large and small numbers are read alike from both forms. -/
theorem encodings_agree_vast :
    Registry.vast.Moderate ∧
    (∀ f ∈ ((Chain.new .vast).run vastEdits).filters,
      ∀ p ∈ f.definition.controls.zip f.values, ¬ p.1.Overflows p.2) ∧
    ∃ read, (Chain.new .vast).decode ((Chain.new .vast).run vastEdits).encode = .ok read ∧
      (Chain.new .vast).decode ((Chain.new .vast).run vastEdits).toJsonText = .ok read := by
  have hword : ∀ f ∈ ((Chain.new .vast).run vastEdits).filters,
      ∀ p ∈ f.definition.controls.zip f.values, ¬ p.1.Overflows p.2 := by decide +kernel
  obtain ⟨text, json, htext, -, hjson, -, -, hagree⟩ :=
    encodings_agree Registry.moderate_vast vastEdits (.new .vast) rfl
  obtain rfl := hagree.eq hword
  exact ⟨Registry.moderate_vast, hword, text, htext, hjson⟩

/-- A whole number beyond 64 bits is confined in the saved form and kept in the other, even if it is
the default value of its control. -/
theorem encodings_differ :
    Registry.vast.Moderate ∧
    (∀ definition ∈ Registry.vast.definitions, ∀ control ∈ definition.controls,
      control.accept control.default = .ok control.default) ∧
    ∃ text json,
      (Chain.new .vast).decode ((Chain.new .vast).run [.add "vast"]).encode = .ok text ∧
      (Chain.new .vast).decode ((Chain.new .vast).run [.add "vast"]).toJsonText = .ok json ∧
      (text == json) = false ∧
      text.filters.map Filter.values = [[.number 1e19, .number 0.1]] ∧
      json.filters.map Filter.values = [[.number 9223372036854775808, .number 0.1]] := by
  have haccept : ∀ definition ∈ Registry.vast.definitions, ∀ control ∈ definition.controls,
      control.accept control.default = .ok control.default := by
    rw [Registry.definitions_vast]
    decide +kernel
  have hread : (do
      let text ← (Chain.new .vast).decode ((Chain.new .vast).run [.add "vast"]).encode
      let json ← (Chain.new .vast).decode ((Chain.new .vast).run [.add "vast"]).toJsonText
      return (text == json, text.filters.map Filter.values, json.filters.map Filter.values)) =
        Except.ok (false, [[.number 1e19, .number 0.1]],
          [[.number 9223372036854775808, .number 0.1]]) := by decide +kernel
  obtain ⟨text, htext, hread⟩ := Outcome.bind_eq_ok.mp hread
  obtain ⟨json, hjson, hread⟩ := Outcome.bind_eq_ok.mp hread
  have hparts := Except.ok.inj hread
  rw [Prod.mk.injEq, Prod.mk.injEq] at hparts
  exact ⟨Registry.moderate_vast, haccept, text, json, htext, hjson, hparts⟩

end ColorChain
