import ColorChain.Proofs.Chain.Whole
import ColorChain.Session

/-! The chain that a configuration describes.

A configuration is validated over the built-in registry, but its chain is built over another one
whenever it has a menu of its own. Both find the same definitions, and what a text says depends on
nothing else of a registry, so a preset that passed the check is taken again when the chain is
built. `session_builds` says what passes, what is built then, and how building can fail. -/
namespace ColorChain

/-! ### Registries that find the same -/

section Reading

variable {r r' : Registry}

theorem Registry.lookup_congr (h : ∀ id, r'.get? id = r.get? id) (id : String) :
    r'.lookup id = r.lookup id := by
  rw [lookup, lookup, h]

theorem Compact.clause_congr (h : ∀ id, r'.get? id = r.get? id) (text : List Char) :
    Compact.clause r' text = Compact.clause r text := by
  unfold Compact.clause
  simp only [Registry.lookup_congr h]

theorem Compact.clauses_congr (h : ∀ id, r'.get? id = r.get? id) (texts : List (List Char)) :
    Compact.clauses r' texts = Compact.clauses r texts := by
  induction texts with
  | nil => rfl
  | cons text rest ih => rw [Compact.clauses, Compact.clauses, Compact.clause_congr h, ih]

theorem Compact.read_congr (h : ∀ id, r'.get? id = r.get? id) (text : List Char) :
    Compact.read r' text = Compact.read r text := by
  unfold Compact.read Compact.body
  simp only [Compact.clauses_congr h]

theorem SavedFilter.entries_congr (h : ∀ id, r'.get? id = r.get? id) (fs : List SavedFilter) :
    SavedFilter.entries r' fs = SavedFilter.entries r fs := by
  induction fs with
  | nil => rfl
  | cons f rest ih =>
    rw [SavedFilter.entries, SavedFilter.entries, SavedFilter.entry, SavedFilter.entry,
      Registry.lookup_congr h, ih]

/-- What a form says depends on a registry by its look-ups alone: the menu has no part in it. -/
theorem ChainForm.read_congr (h : ∀ id, r'.get? id = r.get? id) (form : ChainForm) :
    form.read r' = form.read r := by
  have hjson (j : Json) : ChainForm.readJson r' j = ChainForm.readJson r j := by
    unfold ChainForm.readJson
    simp only [SavedFilter.entries_congr h]
  cases form with
  | json j => exact hjson j
  | text s =>
    unfold ChainForm.read
    simp only [hjson, Compact.read_congr h]

end Reading

namespace Chain

/-- Loading gives new filters, and keys for them that follow on the chain's counter. -/
theorem load_eq_map {c d : Chain} (hkey : d.nextKey = c.nextKey) (name : String)
    (es : List Entry) :
    d.load name es = (c.load name es).map fun c' =>
      { d with name := c'.name, filters := c'.filters, nextKey := c'.nextKey } := by
  unfold load
  rw [hkey]
  cases Entry.filters c.nextKey es with
  | error e => rfl
  | ok fs => rfl

/-- Chains whose registries find the same and whose counters stand the same take the same from a
text, or refuse it with the same error. -/
theorem decode_eq_map {c d : Chain} (hget : ∀ id, d.registry.get? id = c.registry.get? id)
    (hkey : d.nextKey = c.nextKey) (text : String) :
    d.decode text = (c.decode text).map fun c' =>
      { d with name := c'.name, filters := c'.filters, nextKey := c'.nextKey } := by
  rw [ChainForm.decode_eq, ChainForm.decode_eq, ChainForm.read_congr hget]
  cases (ChainForm.text text).read c.registry with
  | error e => rfl
  | ok p => exact load_eq_map hkey p.1 p.2

end Chain

namespace Session

variable {s : Session}

/-! ### What passes -/

/-- What is asked of a configuration. -/
structure Valid (s : Session) : Prop where
  version : s.version = 1
  hue : s.seed.hue.isFinite = true
  saturation : Binary.le 0 s.seed.saturation = true ∧ s.seed.saturation.le 1 = true
  lightness : Binary.le 0 s.seed.lightness = true ∧ s.seed.lightness.le 1 = true
  /-- A menu has built-in ids only, each of them once. -/
  menu : ∀ ids, s.menuOverride = some ids → (∀ id ∈ ids, id ∈ Registry.builtin.ids) ∧ ids.Nodup
  preset : ∀ text, s.preset = some text → ∃ c, (Chain.new .builtin).decode text = .ok c

/-- A menu passes when its entries are built in, and no two of them are the same. The induction
is on what is left of the menu, with the entries `seen` before it. -/
theorem menuFault?_eq_none {seen ids : List String} :
    menuFault? seen ids = none ↔
      (∀ id ∈ ids, id ∈ Registry.builtin.ids ∧ id ∉ seen) ∧ ids.Nodup := by
  induction ids generalizing seen with
  | nil => simp [menuFault?]
  | cons id rest ih =>
    unfold menuFault?
    rw [Registry.contains, List.contains_eq_mem, List.contains_eq_mem]
    by_cases hknown : id ∈ Registry.builtin.ids
    · by_cases hseen : id ∈ seen
      · simp [hknown, hseen]
      · rw [List.forall_mem_cons, List.nodup_cons]
        simp only [hknown, hseen, decide_true, decide_false, Bool.not_true, Bool.false_eq_true,
          if_false, ih, List.mem_cons, not_or]
        constructor
        · rintro ⟨hrest, hnodup⟩
          exact ⟨⟨⟨trivial, not_false⟩, fun e he => ⟨(hrest e he).1, (hrest e he).2.2⟩⟩,
            fun hid => (hrest id hid).2.1 rfl, hnodup⟩
        · rintro ⟨⟨-, hrest⟩, hid, hnodup⟩
          exact ⟨fun e he => ⟨(hrest e he).1, fun h => hid (h ▸ he), (hrest e he).2⟩, hnodup⟩
    · simp [hknown]

theorem fault?_eq_none : s.fault? = none ↔ s.version = 1 ∧ s.seed.hue.isFinite = true ∧
    inUnit s.seed.saturation = true ∧ inUnit s.seed.lightness = true ∧
      s.menuOverride.bind (menuFault? []) = none := by
  unfold fault?
  split_ifs <;> simp_all

/-- Validation accepts what is asked of a configuration and nothing else. -/
theorem validate_eq_ok : s.validate = .ok () ↔ s.Valid := by
  have hmenu : s.menuOverride.bind (menuFault? []) = none ↔ ∀ ids, s.menuOverride = some ids →
      (∀ id ∈ ids, id ∈ Registry.builtin.ids) ∧ ids.Nodup := by
    cases s.menuOverride with
    | none => simp
    | some ids => simp [menuFault?_eq_none]
  have hunit (x : Single) : inUnit x = true ↔ Binary.le 0 x = true ∧ x.le 1 = true :=
    Bool.and_eq_true_iff
  have hpreset : s.fault? = none → (s.validate = .ok () ↔
      ∀ text, s.preset = some text → ∃ c, (Chain.new .builtin).decode text = .ok c) := by
    intro hfault
    unfold validate
    rw [hfault]
    cases s.preset with
    | none => simp
    | some text => cases h : (Chain.new .builtin).decode text <;> simp [h]
  constructor
  · intro h
    have hfault : s.fault? = none := by
      cases hf : s.fault? with
      | none => rfl
      | some fault => simp [validate, hf] at h
    obtain ⟨hversion, hhue, hsaturation, hlightness, hm⟩ := fault?_eq_none.mp hfault
    exact ⟨hversion, hhue, (hunit _).mp hsaturation, (hunit _).mp hlightness, hmenu.mp hm,
      (hpreset hfault).mp h⟩
  · intro h
    refine (hpreset (fault?_eq_none.mpr ⟨h.version, h.hue, ?_⟩)).mpr h.preset
    exact ⟨(hunit _).mpr h.saturation, (hunit _).mpr h.lightness, hmenu.mpr h.menu⟩

/-! ### What is built -/

/-- Registering the catalog one by one goes well throughout. -/
theorem catalog_registered :
    Catalog.definitions.foldlM Registry.register Registry.empty =
      .ok (Registry.builtin.setMenu []) := by
  obtain ⟨r, hfold, hdefinitions, hmenu⟩ :=
    Registry.foldlM_register (r := .empty) Catalog.fault?_of_mem_definitions Catalog.nodup_ids
  have hr : r = Registry.builtin.setMenu [] := Registry.ext hdefinitions hmenu
  rw [hfold, hr]

/-- The built-in registry is what is left of the catalog when it is registered, which is all. -/
theorem builtin_eq : Registry.builtin =
    (Registry.empty.registerAll Catalog.definitions).setMenu Catalog.menuOrder := by
  rw [Registry.registerAll_of_foldlM catalog_registered]
  rfl

/-- The configured registry is the built-in one with the configured menu. -/
theorem registry_eq (s : Session) : s.registry = .ok (Registry.builtin.setMenu s.menu) := by
  unfold registry
  split
  · next hmenu =>
    rw [menu, hmenu]
    rfl
  · rw [catalog_registered]
    rfl

/-- The chain as it stands before its preset is taken. -/
def blank (s : Session) : Chain where
  name := s.name.getD Chain.defaultName
  seed := s.seed
  filters := []
  nextKey := 0
  registry := Registry.builtin.setMenu s.menu

/-- A preset gives the chain what it gives a fresh one over the built-in registry. -/
theorem decode_blank (s : Session) (text : String) :
    s.blank.decode text = ((Chain.new .builtin).decode text).map fun d =>
      { s.blank with name := d.name, filters := d.filters, nextKey := d.nextKey } :=
  Chain.decode_eq_map (c := .new .builtin) (d := s.blank) (fun _ => rfl) rfl text

/-- A chain is built in two parts: the blank one, which is always there, and the preset. -/
theorem buildChain_eq (s : Session) : s.buildChain =
    match s.preset with
    | none => .ok s.blank
    | some text => (s.blank.decode text).mapError .preset := by
  unfold buildChain
  rw [registry_eq]
  cases hname : s.name <;> simp only [blank, hname] <;> rfl

/-- The chain `c` is the one that a configuration describes. -/
structure Built (s : Session) (c : Chain) : Prop where
  seed : c.seed = s.seed
  /-- With a preset, name and filters are those that a fresh built-in chain has of it. -/
  preset : ∀ text, s.preset = some text →
    ∃ d, (Chain.new .builtin).decode text = .ok d ∧ c.name = d.name ∧ c.filters = d.filters
  /-- They are what the preset says, as a registry of the built-in definitions reads it. -/
  read : ∀ text, s.preset = some text → ∃ es,
    (ChainForm.text text).read .builtin = .ok (c.name, es) ∧ List.Forall₂ Entry.Held es c.filters
  unset : s.preset = none → c.name = s.name.getD Chain.defaultName ∧ c.filters = []
  visible : ∀ f ∈ c.filters, f.visible = true
  definitions : c.registry.definitions = Registry.builtin.definitions
  ids : c.registry.ids = Registry.builtin.ids
  /-- The menu shows the configured entries, all of them. -/
  menu : c.registry.menu.map Definition.id = s.menu
  known : c.registry.menuReport.unknown = []

/-- The entries of a menu that passes are built in, and so are those of the built-in menu. -/
theorem Valid.mem_ids (h : s.Valid) : ∀ id ∈ s.menu, id ∈ Registry.builtin.ids := by
  cases hmenu : s.menuOverride with
  | none =>
    have hbuiltin : ∀ id ∈ Catalog.menuOrder, id ∈ Registry.builtin.ids := by decide +kernel
    rw [Session.menu, hmenu]
    exact hbuiltin
  | some ids =>
    rw [Session.menu, hmenu]
    exact (h.menu ids hmenu).1

/-- What holds of every chain that is built over the configured registry. -/
theorem Valid.menu_setMenu (h : s.Valid) :
    (Registry.builtin.setMenu s.menu).menu.map Definition.id = s.menu ∧
      (Registry.builtin.setMenu s.menu).menuReport.unknown = [] := by
  have hknown : ∀ id ∈ s.menu, id ∈ (Registry.builtin.setMenu s.menu).ids := h.mem_ids
  rw [Registry.map_id_menu, Registry.unknown_menuReport]
  constructor
  · exact List.filter_eq_self.mpr fun id hid => decide_eq_true (hknown id hid)
  · exact List.filter_eq_nil_iff.mpr fun id hid => by simpa using hknown id hid

/-- A configuration that passes builds the chain that it describes. -/
theorem Valid.built (h : s.Valid) : ∃ c, s.buildChain = .ok c ∧ s.Built c := by
  obtain ⟨hmenu, hknown⟩ := h.menu_setMenu
  rw [buildChain_eq]
  cases hpreset : s.preset with
  | none =>
    refine ⟨s.blank, rfl, rfl, ?_, ?_, fun _ => ⟨rfl, rfl⟩, ?_, rfl, rfl, hmenu, hknown⟩
    · simp [hpreset]
    · simp [hpreset]
    · simp [blank]
  | some text =>
    obtain ⟨d, hd⟩ := h.preset text hpreset
    obtain ⟨name, es, hread, hloaded⟩ := ChainForm.loaded_of_decode hd
    have hdecode := s.decode_blank text
    rw [hd] at hdecode
    refine ⟨{ s.blank with name := d.name, filters := d.filters, nextKey := d.nextKey },
      by simp only [hdecode]; rfl, rfl, ?_, ?_, ?_, hloaded.visible, rfl, rfl, hmenu, hknown⟩
    · intro text' htext
      cases hpreset.symm.trans htext
      exact ⟨d, hd, rfl, rfl⟩
    · intro text' htext
      cases hpreset.symm.trans htext
      cases hloaded.name
      exact ⟨es, hread, hloaded.filters⟩
    · simp [hpreset]

/-- Building fails when a fresh built-in chain refuses the preset, and with its error. -/
theorem buildChain_eq_error {e : SessionError} : s.buildChain = .error e ↔
    ∃ text refusal, s.preset = some text ∧
      (Chain.new .builtin).decode text = .error refusal ∧ e = .preset refusal := by
  rw [buildChain_eq]
  cases hpreset : s.preset with
  | none => simp
  | some text =>
    simp only [decode_blank]
    cases hdecode : (Chain.new .builtin).decode text <;>
      simp [hdecode, Except.map, Except.mapError, eq_comm]

end Session

/-- **A configuration that passes builds the chain that it describes.** Validation asks for the
first version, a finite hue, a saturation and a lightness between zero and one, a menu of built-in
ids without repetition and a preset that the built-in definitions can read, and for nothing else.
What passes is built, and the chain is as described: its seed, its name and filters, and its
registry, which differs from the built-in one in its menu at most. Whether a configuration passes
or not, its registry is always there, and the one error of building is that of the preset. -/
theorem session_builds (s : Session) :
    (s.validate = .ok () ↔ s.Valid) ∧
      (s.validate = .ok () → ∃ c, s.buildChain = .ok c ∧ s.Built c) ∧
      (∃ r, s.registry = .ok r) ∧
      ∀ e, s.buildChain = .error e ↔ ∃ text refusal, s.preset = some text ∧
        (Chain.new .builtin).decode text = .error refusal ∧ e = .preset refusal :=
  ⟨Session.validate_eq_ok, fun h => (Session.validate_eq_ok.mp h).built, ⟨_, s.registry_eq⟩,
    fun _ => Session.buildChain_eq_error⟩

/-- A cold seed with two filters from a preset, a name that the preset overrides, and a menu of
the two filters in another order than they are registered in. -/
theorem session_builds_cold :
    let s : Session := {
      version := 1, seed := ⟨200, 0.5, 0.4⟩, name := some "Cold"
      preset := some "hsl_adjust:-20,10,0;blend_screen:0000ff,25;~Cold front"
      menuOverride := some ["blend_screen", "hsl_adjust"] }
    s.validate = .ok () ∧ s.Valid ∧ ∃ c, s.buildChain = .ok c ∧ s.Built c ∧
      c.name = "Cold front" ∧ c.ids = ["hsl_adjust", "blend_screen"] ∧
      c.registry.menu.map Definition.id = ["blend_screen", "hsl_adjust"] := by
  intro s
  have hvalidate : s.validate = .ok () := rfl
  obtain ⟨hvalid, hbuilt, -, -⟩ := session_builds s
  obtain ⟨c, hc, hdescribed⟩ := hbuilt hvalidate
  obtain ⟨d, hd, hname, hfilters⟩ := hdescribed.preset _ rfl
  obtain ⟨d', hd', hname', hids'⟩ : ∃ d',
      (Chain.new .builtin).decode "hsl_adjust:-20,10,0;blend_screen:0000ff,25;~Cold front" = .ok d' ∧
        d'.name = "Cold front" ∧ d'.ids = ["hsl_adjust", "blend_screen"] := ⟨_, rfl, rfl, rfl⟩
  cases hd'.symm.trans hd
  refine ⟨hvalidate, hvalid.mp hvalidate, c, hc, hdescribed, hname.trans hname', ?_,
    hdescribed.menu⟩
  rw [Chain.ids, hfilters]
  exact hids'

end ColorChain
