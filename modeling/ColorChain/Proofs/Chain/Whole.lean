import ColorChain.Proofs.Chain.Copy
import ColorChain.Proofs.Chain.InPlace
import ColorChain.Proofs.Chain.Sound
import ColorChain.Proofs.Compact.Document
import ColorChain.Proofs.Control.Stored

/-! A form of a chain is taken whole or not at all.

What a text or a JSON value says is read without a chain: the registry decides whether it is
one, and the values read are values that their controls accept. So a chain that takes a form
either has an error before it is written to, or has nothing left that could fail, and in both
cases what it held before shows in its keys only (`load_whole`). -/
namespace ColorChain

/-! ### What is read of JSON is accepted -/

namespace SavedFilter

variable {id : String} {control : Control} {r : Registry}

theorem isFinite_of_number? {j : Json} {x : Single} (h : number? j = some x) :
    x.isFinite = true := by
  unfold number? at h
  split at h
  · dsimp only at h
    split at h
    · next hfinite =>
      cases h
      exact hfinite
    · cases h
  · cases h

/-- What is read for a control suits it. -/
theorem suits_of_argument {j : Json} {v : ControlValue} (h : argument id control j = .ok v) :
    control.Suits v := by
  unfold argument at h
  split at h
  · next hkind =>
    split at h
    · cases h
      exact .color hkind
    · cases h
  · next hkind =>
    split at h
    · next x hx =>
      cases h
      exact .number (by simpa using hkind) (isFinite_of_number? hx)
    · cases h

theorem arguments_accepted {f : SavedFilter} {controls : List Control} {values : List ControlValue}
    (h : f.arguments controls = .ok values) :
    ∃ storeds, Control.Stores controls values storeds := by
  induction controls generalizing values with
  | nil =>
    cases h
    exact ⟨[], .nil⟩
  | cons control controls ih =>
    unfold arguments at h
    split at h
    · cases h
    · obtain ⟨value, hvalue, h⟩ := Outcome.bind_eq_ok.mp h
      obtain ⟨rest, hrest, h⟩ := Outcome.bind_eq_ok.mp h
      cases h
      obtain ⟨stored, hstored⟩ := (suits_of_argument hvalue).accept
      obtain ⟨storeds, hstoreds⟩ := ih hrest
      exact ⟨stored :: storeds, .cons hstored hstoreds⟩

theorem entry_accepted {f : SavedFilter} {e : Entry} (h : f.entry r = .ok e) : e.Accepted := by
  obtain ⟨d, -, h⟩ := Outcome.bind_eq_ok.mp h
  obtain ⟨values, hvalues, h⟩ := Outcome.bind_eq_ok.mp h
  cases h
  exact arguments_accepted hvalues

end SavedFilter

/-! ### Reading without a chain -/

/-- The forms that a chain can be loaded from. -/
inductive ChainForm where
  /-- Compact text, or JSON text if it starts with a brace. -/
  | text (s : String)
  | json (j : Json)

namespace ChainForm

/-- The edit that takes a form. -/
def edit : ChainForm → Edit
  | .text s => .decode s
  | .json j => .load j

/-- The name and the entries of a JSON value. -/
def readJson (r : Registry) (j : Json) : Except DecodeError (String × List Entry) :=
  match SavedChain.ofJson? j with
  | none => .error .jsonShape
  | some saved => do
    let entries ← SavedFilter.entries r saved.filters
    return (saved.name, entries)

/-- The name and the entries of a form. -/
def read (r : Registry) : ChainForm → Except DecodeError (String × List Entry)
  | .text s =>
    if s.toList.head? = some '\x7b' then
      match Json.parse? s with
      | none => .error .jsonSyntax
      | some j => readJson r j
    else Compact.read r s.toList
  | .json j => readJson r j

variable {r : Registry} {form : ChainForm}

/-- What holds of every clause and of every saved filter that can be read holds of all that a
form says. -/
theorem read_forall {P : Entry → Prop}
    (hclause : ∀ text e, Compact.clause r text = .ok e → P e)
    (hentry : ∀ f e, SavedFilter.entry r f = .ok e → P e) {name : String} {es : List Entry}
    (h : form.read r = .ok (name, es)) : ∀ e ∈ es, P e := by
  have hjson {j : Json} (h : readJson r j = .ok (name, es)) : ∀ e ∈ es, P e := by
    unfold readJson at h
    split at h
    · cases h
    · obtain ⟨es', hes, h⟩ := Outcome.bind_eq_ok.mp h
      cases h
      exact SavedFilter.entries_forall hentry hes
  cases form with
  | json j => exact hjson h
  | text s =>
    by_cases hbrace : s.toList.head? = some '\x7b'
    · simp only [read, hbrace, if_true] at h
      split at h
      · cases h
      · exact hjson h
    · simp only [read, hbrace, if_false] at h
      exact Compact.read_forall hclause h

/-- What is read of a form is registered, and its values are accepted. -/
theorem read_sound {name : String} {es : List Entry} (h : form.read r = .ok (name, es)) :
    ∀ e ∈ es, e.Registered r ∧ e.Accepted :=
  read_forall
    (fun _ _ h => ⟨Compact.clause_registered h, (Compact.clause_eq_ok.mp h).accepted⟩)
    (fun _ _ h => ⟨SavedFilter.entry_registered h, SavedFilter.entry_accepted h⟩) h

theorem loadJson_eq (c : Chain) (j : Json) :
    c.loadJson j = readJson c.registry j >>= fun p => c.load p.1 p.2 := by
  unfold Chain.loadJson readJson
  cases SavedChain.ofJson? j with
  | none => rfl
  | some saved =>
    cases hes : SavedFilter.entries c.registry saved.filters with
    | error e => simp only [hes]; rfl
    | ok es => simp only [hes]; rfl

/-- Decoding a text is reading it for the chain's registry and then loading what was read. -/
theorem decode_eq (c : Chain) (s : String) :
    c.decode s = (text s).read c.registry >>= fun p => c.load p.1 p.2 := by
  unfold Chain.decode read
  by_cases hbrace : s.toList.head? = some '\x7b'
  · simp only [hbrace, if_true]
    cases Json.parse? s with
    | none => rfl
    | some j => simp only [loadJson_eq]
  · simp only [hbrace, if_false]

/-- A chain that decodes a text has loaded what the text says. -/
theorem loaded_of_decode {c c' : Chain} {s : String} (h : c.decode s = .ok c') :
    ∃ name es, (text s).read c.registry = .ok (name, es) ∧ c.Loaded name es c' := by
  rw [decode_eq] at h
  obtain ⟨⟨name, es⟩, hread, hload⟩ := Outcome.bind_eq_ok.mp h
  obtain ⟨c₁, hload₁, hloaded⟩ := c.load_accepted name fun e he => (read_sound hread e he).2
  cases hload.symm.trans hload₁
  exact ⟨name, es, hread, hloaded⟩

/-- Taking a form is reading it and then loading what was read. -/
theorem edit_eq (c : Chain) (form : ChainForm) :
    c.edit form.edit = Chain.done .decode (form.read c.registry >>= fun p => c.load p.1 p.2) := by
  cases form with
  | json j =>
    show Chain.done _ (c.loadJson j) = _
    rw [loadJson_eq]
    rfl
  | text s =>
    show Chain.done _ (c.decode s) = _
    rw [decode_eq]

/-- A form that cannot be read is refused with the reader's error. -/
theorem edit_of_refused {c : Chain} {e : DecodeError} (h : form.read c.registry = .error e) :
    c.edit form.edit = .error (.decode e) := by
  rw [edit_eq, h]
  rfl

/-- A form that can be read is loaded, all of it. -/
theorem edit_of_read {c : Chain} {name : String} {es : List Entry}
    (h : form.read c.registry = .ok (name, es)) :
    ∃ c', c.edit form.edit = .ok (.done, c') ∧ c.Loaded name es c' := by
  obtain ⟨c', hload, hloaded⟩ := c.load_accepted name fun e he => (read_sound h e he).2
  refine ⟨c', ?_, hloaded⟩
  rw [edit_eq, h]
  simp only [bind, Except.bind, hload]
  rfl

end ChainForm

/-! ### What loading leaves -/

/-- Every value that a row of controls stores was accepted by its control. -/
theorem Control.Stores.accepted {controls : List Control} {values storeds : List ControlValue}
    (h : Stores controls values storeds) :
    ∀ p ∈ controls.zip storeds, ∃ v, p.1.accept v = .ok p.2 := by
  induction h with
  | nil => simp
  | cons haccept _ ih =>
    rw [List.zip_cons_cons]
    exact List.forall_mem_cons.mpr ⟨⟨_, haccept⟩, ih⟩

theorem Entry.exists_held {es : List Entry} {fs : List Filter} (h : List.Forall₂ Entry.Held es fs) :
    ∀ f ∈ fs, ∃ e ∈ es, e.Held f := by
  induction h with
  | nil => simp
  | @cons e f es fs hf _ ih =>
    refine List.forall_mem_cons.mpr ⟨⟨e, List.mem_cons_self .., hf⟩, fun f' hf' => ?_⟩
    obtain ⟨e', he', hheld⟩ := ih f' hf'
    exact ⟨e', List.mem_cons_of_mem _ he', hheld⟩

/-- Filters made of the same entries do the same. -/
theorem Entry.held_unique {es : List Entry} {fs fs' : List Filter}
    (h : List.Forall₂ Entry.Held es fs) (h' : List.Forall₂ Entry.Held es fs') :
    fs'.map Filter.definition = fs.map Filter.definition ∧
      fs'.map Filter.values = fs.map Filter.values := by
  induction h generalizing fs' with
  | nil =>
    cases h'
    exact ⟨rfl, rfl⟩
  | cons hf _ ih =>
    cases h' with
    | cons hf' h' =>
      obtain ⟨hdefinitions, hvalues⟩ := ih h'
      simp only [List.map_cons, hdefinitions, hvalues, hf.definition, hf'.definition,
        hf'.stored.unique hf.stored, and_self]

namespace Chain

variable {c c' d d' : Chain} {name : String} {es : List Entry}

/-- The chain `c'` is `c` with new filters: visible ones of registered definitions, which hold
what their controls accepted, under the next keys in order. -/
structure Reloaded (c c' : Chain) : Prop where
  seed : c'.seed = c.seed
  registry : c'.registry = c.registry
  visible : ∀ f ∈ c'.filters, f.visible = true
  registered : ∀ f ∈ c'.filters, c.registry.get? f.id = some f.definition
  /-- Every value is what its control made of some value that it accepted. -/
  stored : ∀ f ∈ c'.filters, ∃ values, Control.Stores f.definition.controls values f.values
  /-- A control with finite bounds accepts the value that it holds, and as it is. -/
  accepted : ∀ f ∈ c'.filters, ∀ p ∈ f.definition.controls.zip f.values, p.1.Bounded →
    p.1.accept p.2 = .ok p.2
  keys : c'.filters.map Filter.key = (List.range' c.nextKey c'.filters.length).map FilterKey.mk
  nextKey : c'.nextKey = c.nextKey + c'.filters.length

theorem Loaded.visible (h : c.Loaded name es c') : ∀ f ∈ c'.filters, f.visible = true := by
  intro f hf
  obtain ⟨e, -, hheld⟩ := Entry.exists_held h.filters f hf
  exact hheld.visible

theorem Loaded.reloaded (h : c.Loaded name es c') (hes : ∀ e ∈ es, Entry.Registered c.registry e) :
    c.Reloaded c' := by
  have hlen : es.length = c'.filters.length := h.filters.length_eq
  refine ⟨h.seed, h.registry, h.visible, fun f hf => ?_, fun f hf => ?_,
    fun f hf p hp hbounded => ?_, ?_, ?_⟩
  · obtain ⟨e, he, hheld⟩ := Entry.exists_held h.filters f hf
    rw [Filter.id, hheld.definition]
    exact hes e he
  · obtain ⟨e, -, hheld⟩ := Entry.exists_held h.filters f hf
    rw [hheld.definition]
    exact ⟨e.2, hheld.stored⟩
  · obtain ⟨e, he, hheld⟩ := Entry.exists_held h.filters f hf
    rw [hheld.definition] at hp
    have hvalid := c.registry.valid e.1 (Registry.mem_of_get? (hes e he))
    have hordered := Definition.ordered_controls hvalid p.1 (List.of_mem_zip hp).1
    obtain ⟨v, hv⟩ := hheld.stored.accepted p hp
    exact Control.accept_stored hordered hbounded hv
  · rw [h.keys, hlen]
  · rw [h.nextKey, hlen]

/-- What is loaded of the same entries shows the same, whatever it is loaded into. -/
theorem Loaded.shows (h : c.Loaded name es c') (h' : d.Loaded name es d') :
    d'.name = c'.name ∧ d'.ids = c'.ids ∧
      d'.filters.map Filter.values = c'.filters.map Filter.values := by
  obtain ⟨hdefinitions, hvalues⟩ := Entry.held_unique h.filters h'.filters
  have hids : ∀ fs : List Filter, fs.map Filter.id = (fs.map Filter.definition).map Definition.id :=
    fun fs => by rw [List.map_map]; rfl
  refine ⟨h'.name.trans h.name.symm, ?_, hvalues⟩
  rw [ids, ids, hids, hids, hdefinitions]

end Chain

/-- **A form is taken whole or not at all, and history has no say in it.** A chain that refuses a
text or a JSON value is left as it was. One that takes it keeps its seed and its registry and has
new filters only, visible and accepted by their controls, under the next keys in order. And chains
over one registry refuse the same forms with the same errors and take the same name, ids and
values from the others, whatever either of them held before. -/
theorem load_whole (c d : Chain) (form : ChainForm) (hr : d.registry = c.registry) :
    (∀ e c', (Editor.perform form.edit).run c = .error e c' → c' = c) ∧
      (∀ result c', (Editor.perform form.edit).run c = .ok result c' → c.Reloaded c') ∧
      (∀ e, (Editor.perform form.edit).run c = .error e c ↔
        (Editor.perform form.edit).run d = .error e d) ∧
      ∀ result c', (Editor.perform form.edit).run c = .ok result c' →
        ∃ d', (Editor.perform form.edit).run d = .ok result d' ∧ d'.name = c'.name ∧
          d'.ids = c'.ids ∧ d'.filters.map Filter.values = c'.filters.map Filter.values := by
  simp only [Editor.perform_eq]
  cases hread : form.read c.registry with
  | error e =>
    rw [ChainForm.edit_of_refused hread, ChainForm.edit_of_refused (c := d) (by rw [hr, hread])]
    refine ⟨fun e' c' h => ?_, fun result c' h => ?_, fun e' => ?_, fun result c' h => ?_⟩
    · cases h
      rfl
    · cases h
    · simp [Chain.settle]
    · cases h
  | ok read =>
    obtain ⟨name, es⟩ := read
    obtain ⟨c₁, hc, hloaded⟩ := ChainForm.edit_of_read hread
    obtain ⟨d₁, hd, hloaded'⟩ := ChainForm.edit_of_read (c := d) (by rw [hr, hread])
    rw [hc, hd]
    refine ⟨fun e' c' h => ?_, fun result c' h => ?_, fun e' => ?_, fun result c' h => ?_⟩
    · cases h
    · cases h
      exact hloaded.reloaded fun e he => (ChainForm.read_sound hread e he).1
    · simp [Chain.settle]
    · cases h
      exact ⟨d₁, rfl, hloaded.shows hloaded'⟩

/-- A second clause with too small an opacity, taken by a chain that held a hidden filter and by
one that held none. -/
theorem load_whole_smallOpacity :
    let c := (Chain.new .builtin).run [.add "posterize", .setVisible ⟨0⟩ false]
    let d := Chain.new .builtin
    let form := ChainForm.text "posterize:9;blend_screen:FFF,-5;~c"
    d.registry = c.registry ∧
      ∃ c', (Editor.perform form.edit).run c = .ok .done c' ∧ c.Reloaded c' ∧
        c'.filters.map Filter.key = [⟨1⟩, ⟨2⟩] ∧
        ∃ d', (Editor.perform form.edit).run d = .ok .done d' ∧ d'.name = c'.name ∧
          d'.ids = c'.ids ∧ d'.filters.map Filter.values = c'.filters.map Filter.values := by
  intro c d form
  have hregistry : d.registry = c.registry := rfl
  obtain ⟨-, hreloaded, -, hshows⟩ := load_whole c d form hregistry
  obtain ⟨c', hc, hlength⟩ : ∃ c', (Editor.perform form.edit).run c = .ok .done c' ∧
      c'.filters.length = 2 := ⟨_, rfl, rfl⟩
  refine ⟨hregistry, c', hc, hreloaded _ c' hc, ?_, hshows _ c' hc⟩
  rw [(hreloaded _ c' hc).keys, hlength]
  rfl

end ColorChain
