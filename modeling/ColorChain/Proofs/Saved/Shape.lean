import ColorChain.Proofs.Chain.Whole
import ColorChain.Proofs.Saved.RoundTrip

/-! The JSON values that are saved chains.

A saved chain is a name and an array of saved filters, and a saved filter an id and an object of
arguments; each of these records is an object that has both parts under their keys or an array of
just the two. `SavedChain.Shape` says so without the reader. `SavedChain.Document` says what a value
of this shape spells for a registry and `SavedChain.Refused` which error any other value has: that
of the shape as a whole first, then that of the first filter that spells nothing, and in it that of
the first control. `load_shape`: a chain loads exactly the documents, refuses any other value with
its error, and takes no notice of anything but the arguments that controls declare. -/
namespace ColorChain

/-! ### Shape -/

/-- A record of two parts: an object with both keys, whatever else is in it, or an array of just
the two. -/
inductive Json.Record (first second : String) : Json → Json → Json → Prop where
  | object {fields : Fields} {a b : Json} (ha : fields.get? first = some a)
      (hb : fields.get? second = some b) : Record first second (.object fields) a b
  | array {a b : Json} : Record first second (.array [a, b]) a b

theorem Json.pair?_eq_some {first second : String} {j a b : Json} :
    j.pair? first second = some (a, b) ↔ Record first second j a b := by
  constructor
  · intro h
    unfold pair? at h
    split at h
    · obtain ⟨a', ha, h⟩ := Option.bind_eq_some_iff.mp h
      obtain ⟨b', hb, h⟩ := Option.bind_eq_some_iff.mp h
      cases h
      exact .object ha hb
    · cases h
      exact .array
    · cases h
  · intro h
    cases h with
    | object ha hb =>
      rw [pair?, ha, hb]
      rfl
    | array => rfl

namespace SavedFilter

/-- A JSON value of the shape of a saved filter, and that filter. -/
inductive Shape : Json → SavedFilter → Prop where
  | intro {j id args} (h : Json.Record "id" "args" j (.string id) (.object args)) :
      Shape j ⟨id, args⟩

theorem ofJson?_eq_some {j : Json} {f : SavedFilter} : ofJson? j = some f ↔ Shape j f := by
  constructor
  · intro h
    obtain ⟨⟨id, args⟩, hpair, h⟩ := Option.bind_eq_some_iff.mp h
    obtain ⟨name, hid, h⟩ := Option.bind_eq_some_iff.mp h
    obtain ⟨fields, hargs, h⟩ := Option.bind_eq_some_iff.mp h
    cases h
    unfold Json.string? at hid
    unfold Json.object? at hargs
    split at hid <;> cases hid
    split at hargs <;> cases hargs
    exact .intro (Json.pair?_eq_some.mp hpair)
  · rintro ⟨h⟩
    rw [ofJson?, Json.pair?_eq_some.mpr h]
    rfl

theorem mapM_ofJson?_eq_some {items : List Json} {fs : List SavedFilter} :
    items.mapM ofJson? = some fs ↔ List.Forall₂ Shape items fs := by
  induction items generalizing fs with
  | nil =>
    rw [List.mapM_nil]
    constructor
    · intro h
      cases h
      exact .nil
    · intro h
      cases h
      rfl
  | cons j rest ih =>
    rw [List.mapM_cons]
    constructor
    · intro h
      obtain ⟨f, hf, h⟩ := Option.bind_eq_some_iff.mp h
      obtain ⟨fs', hrest, h⟩ := Option.bind_eq_some_iff.mp h
      cases h
      exact .cons (ofJson?_eq_some.mp hf) (ih.mp hrest)
    · intro h
      cases h with
      | cons hf hrest =>
        rw [ofJson?_eq_some.mpr hf, ih.mpr hrest]
        rfl

end SavedFilter

/-- A JSON value of the shape of a saved chain, and that chain. -/
inductive SavedChain.Shape : Json → SavedChain → Prop where
  | intro {j name items filters} (h : Json.Record "name" "filters" j (.string name) (.array items))
      (hfilters : List.Forall₂ SavedFilter.Shape items filters) : Shape j ⟨name, filters⟩

theorem SavedChain.ofJson?_eq_some {j : Json} {saved : SavedChain} :
    ofJson? j = some saved ↔ Shape j saved := by
  constructor
  · intro h
    obtain ⟨⟨first, second⟩, hpair, h⟩ := Option.bind_eq_some_iff.mp h
    obtain ⟨name, hname, h⟩ := Option.bind_eq_some_iff.mp h
    obtain ⟨items, hitems, h⟩ := Option.bind_eq_some_iff.mp h
    obtain ⟨filters, hfilters, h⟩ := Option.bind_eq_some_iff.mp h
    cases h
    unfold Json.string? at hname
    unfold Json.array? at hitems
    split at hname <;> cases hname
    split at hitems <;> cases hitems
    exact .intro (Json.pair?_eq_some.mp hpair) (SavedFilter.mapM_ofJson?_eq_some.mp hfilters)
  · intro h
    cases h with
    | intro h hfilters =>
      have hread := SavedFilter.mapM_ofJson?_eq_some.mpr hfilters
      rw [ofJson?, Json.pair?_eq_some.mpr h]
      simp only [Json.string?, Json.array?, bind, Option.bind, hread]
      rfl

/-! ### Arguments -/

namespace SavedFilter

/-- The value that an argument spells: a string that is a colour in hexadecimal for a colour
control, and for any other a number whose nearest single is finite. -/
inductive Argues (control : Control) : Json → ControlValue → Prop where
  | color {text c} (hkind : control.isColor = true) (h : Color.ofHex? text = some c) :
      Argues control (.string text) (.color c)
  | number {n : JsonNumber} (hkind : control.isColor = false)
      (hfinite : (n.toDouble.convert : Single).isFinite = true) :
      Argues control (.number n) (.number n.toDouble.convert)

/-- What is told of an argument that spells nothing. -/
def argumentError (id : String) (control : Control) (j : Json) : DecodeError :=
  if control.isColor then .invalidColor id control.id j.render
  else .notANumber id control.id j.render

theorem argument_eq_ok {id : String} {control : Control} {j : Json} {v : ControlValue} :
    argument id control j = .ok v ↔ Argues control j v := by
  constructor
  · intro h
    unfold argument at h
    split at h
    · next hkind =>
      split at h
      · next c hc =>
        cases h
        obtain ⟨text, htext, hc⟩ := Option.bind_eq_some_iff.mp hc
        unfold Json.string? at htext
        split at htext <;> cases htext
        exact .color hkind hc
      · cases h
    · next hkind =>
      split at h
      · next x hx =>
        cases h
        have hfinite := isFinite_of_number? hx
        unfold number? at hx
        split at hx
        · dsimp only at hx
          split at hx <;> cases hx
          exact .number (by simpa using hkind) hfinite
        · cases hx
      · cases h
  · intro h
    cases h with
    | @color text c hkind h =>
      have hread : color? (.string text) = some c := h
      rw [argument, if_pos hkind, hread]
    | number hkind hfinite => exact argument_number id hkind rfl hfinite

theorem argument_eq_error {id : String} {control : Control} {j : Json} {e : DecodeError} :
    argument id control j = .error e ↔
      (∀ v, ¬ Argues control j v) ∧ e = argumentError id control j := by
  have hargument : (∃ v, argument id control j = .ok v) ∨
      argument id control j = .error (argumentError id control j) := by
    unfold argument argumentError
    split
    · cases color? j <;> simp
    · cases number? j <;> simp
  rcases hargument with ⟨v, hv⟩ | herror
  · rw [hv]
    simp only [reduceCtorEq, false_iff, not_and]
    exact fun hno => absurd (argument_eq_ok.mp hv) (hno v)
  · rw [herror]
    constructor
    · intro h
      cases h
      refine ⟨fun v hv => ?_, rfl⟩
      cases (argument_eq_ok.mpr hv).symm.trans herror
    · rintro ⟨-, rfl⟩
      rfl

/-- What the arguments hold for a control. -/
def Gives (f : SavedFilter) (control : Control) (v : ControlValue) : Prop :=
  ∃ j, f.args.get? control.id = some j ∧ Argues control j v

/-- The error of the first control that has no argument or one that spells nothing. -/
inductive FirstFault (f : SavedFilter) : List Control → DecodeError → Prop where
  | missing {control controls} (hget : f.args.get? control.id = none) :
      FirstFault f (control :: controls) (.missingArgument f.id control.id)
  | wrong {control controls j} (hget : f.args.get? control.id = some j)
      (hno : ∀ v, ¬ Argues control j v) :
      FirstFault f (control :: controls) (argumentError f.id control j)
  | later {control v controls e} (h : f.Gives control v) (hrest : FirstFault f controls e) :
      FirstFault f (control :: controls) e

variable {f : SavedFilter} {controls : List Control}

theorem Gives.arguments_cons {control : Control} {v : ControlValue} (h : f.Gives control v)
    (controls : List Control) :
    f.arguments (control :: controls) = (f.arguments controls).map (v :: ·) := by
  obtain ⟨j, hget, hj⟩ := h
  rw [arguments, hget]
  simp only [argument_eq_ok.mpr hj, bind, Except.bind]
  cases f.arguments controls <;> rfl

theorem arguments_of_gives {vs : List ControlValue} (h : List.Forall₂ f.Gives controls vs) :
    f.arguments controls = .ok vs := by
  induction h with
  | nil => rfl
  | cons hv _ ih =>
    rw [hv.arguments_cons, ih]
    rfl

theorem FirstFault.arguments_eq {e : DecodeError} (h : FirstFault f controls e) :
    f.arguments controls = .error e := by
  induction h with
  | missing hget => rw [arguments, hget]
  | wrong hget hno =>
    rw [arguments, hget]
    simp only [argument_eq_error.mpr ⟨hno, rfl⟩]
    rfl
  | later hv _ ih =>
    rw [hv.arguments_cons, ih]
    rfl

/-- Every row of controls is given its values or has a first fault. -/
theorem gives_or_fault (f : SavedFilter) (controls : List Control) :
    (∃ vs, List.Forall₂ f.Gives controls vs) ∨ ∃ e, FirstFault f controls e := by
  induction controls with
  | nil => exact .inl ⟨[], .nil⟩
  | cons control controls ih =>
    cases hget : f.args.get? control.id with
    | none => exact .inr ⟨_, .missing hget⟩
    | some j =>
      cases hread : argument f.id control j with
      | error e => exact .inr ⟨_, .wrong hget (argument_eq_error.mp hread).1⟩
      | ok v =>
        have hv : f.Gives control v := ⟨j, hget, argument_eq_ok.mp hread⟩
        rcases ih with ⟨vs, hvs⟩ | ⟨e, hfault⟩
        · exact .inl ⟨v :: vs, .cons hv hvs⟩
        · exact .inr ⟨e, .later hv hfault⟩

/-! ### Saved filters -/

/-- The entry that a saved filter spells. -/
inductive Spells (r : Registry) (f : SavedFilter) : Entry → Prop where
  | intro {d vs} (hd : r.get? f.id = some d) (hvs : List.Forall₂ f.Gives d.controls vs) :
      Spells r f (d, vs)

/-- The error of a saved filter that spells nothing: its id is unknown or an argument is at
fault. -/
inductive Faulty (r : Registry) (f : SavedFilter) : DecodeError → Prop where
  | unknown (hd : r.get? f.id = none) : Faulty r f (.unknownFilter f.id)
  | argument {d e} (hd : r.get? f.id = some d) (hfault : FirstFault f d.controls e) :
      Faulty r f e

variable {r : Registry}

theorem Spells.entry_eq {e : Entry} (h : f.Spells r e) : f.entry r = .ok e := by
  cases h with
  | intro hd hvs => exact entry_eq_ok hd (arguments_of_gives hvs)

theorem Faulty.entry_eq {e : DecodeError} (h : f.Faulty r e) : f.entry r = .error e := by
  cases h with
  | unknown hd =>
    rw [entry, Registry.lookup, hd]
    rfl
  | argument hd hfault =>
    rw [entry, lookup_eq_ok.mpr hd]
    simp only [bind, Except.bind, hfault.arguments_eq]

theorem spells_or_faulty (r : Registry) (f : SavedFilter) :
    (∃ e, f.Spells r e) ∨ ∃ e, f.Faulty r e := by
  cases hd : r.get? f.id with
  | none => exact .inr ⟨_, .unknown hd⟩
  | some d =>
    rcases f.gives_or_fault d.controls with ⟨vs, hvs⟩ | ⟨e, hfault⟩
    · exact .inl ⟨_, .intro hd hvs⟩
    · exact .inr ⟨e, .argument hd hfault⟩

theorem entries_of_spells {fs : List SavedFilter} {es : List Entry}
    (h : List.Forall₂ (Spells r) fs es) : entries r fs = .ok es := by
  induction h with
  | nil => rfl
  | cons he _ ih =>
    rw [entries, he.entry_eq, ih]
    rfl

/-- The reader stops at the first saved filter that spells nothing. -/
theorem entries_of_faulty {good rest : List SavedFilter} {bad : SavedFilter} {es : List Entry}
    {e : DecodeError} (hgood : List.Forall₂ (Spells r) good es) (hbad : bad.Faulty r e) :
    entries r (good ++ bad :: rest) = .error e := by
  induction hgood with
  | nil =>
    rw [List.nil_append, entries, hbad.entry_eq]
    rfl
  | cons he _ ih =>
    rw [List.cons_append, entries, he.entry_eq, ih]
    rfl

/-- A row of saved filters spells entries or has a first filter that spells nothing. -/
theorem spells_or_firstFaulty (r : Registry) (fs : List SavedFilter) :
    (∃ es, List.Forall₂ (Spells r) fs es) ∨
      ∃ good bad rest es e, fs = good ++ bad :: rest ∧ List.Forall₂ (Spells r) good es ∧
        bad.Faulty r e := by
  induction fs with
  | nil => exact .inl ⟨[], .nil⟩
  | cons f rest ih =>
    rcases spells_or_faulty r f with ⟨e, he⟩ | ⟨e, hfaulty⟩
    · rcases ih with ⟨es, hes⟩ | ⟨good, bad, after, es, e', rfl, hgood, hbad⟩
      · exact .inl ⟨e :: es, .cons he hes⟩
      · exact .inr ⟨f :: good, bad, after, e :: es, e', rfl, .cons he hgood, hbad⟩
    · exact .inr ⟨[], f, rest, [], e, rfl, .nil, hfaulty⟩

/-- Saved filters that differ at most in what no control of their definition declares. -/
structure Alike (r : Registry) (f g : SavedFilter) : Prop where
  id : g.id = f.id
  args : ∀ d, r.get? f.id = some d → ∀ control ∈ d.controls,
    g.args.get? control.id = f.args.get? control.id

theorem arguments_alike {g : SavedFilter} (hid : g.id = f.id)
    (h : ∀ control ∈ controls, g.args.get? control.id = f.args.get? control.id) :
    g.arguments controls = f.arguments controls := by
  induction controls with
  | nil => rfl
  | cons control controls ih =>
    obtain ⟨hfirst, hrest⟩ := List.forall_mem_cons.mp h
    rw [arguments, arguments, hfirst, hid, ih hrest]

theorem Alike.entry_eq {g : SavedFilter} (h : Alike r f g) : g.entry r = f.entry r := by
  unfold entry
  rw [h.id]
  cases hd : r.get? f.id with
  | none => simp only [Registry.lookup, hd, bind, Except.bind]
  | some d => simp only [lookup_eq_ok.mpr hd, bind, Except.bind,
      arguments_alike h.id (h.args d hd)]

theorem entries_alike {fs gs : List SavedFilter} (h : List.Forall₂ (Alike r) fs gs) :
    entries r gs = entries r fs := by
  induction h with
  | nil => rfl
  | cons hf _ ih => rw [entries, entries, hf.entry_eq, ih]

end SavedFilter

/-! ### Saved chains -/

namespace SavedChain

/-- A JSON value of the shape of a saved chain, its name and the entries that its filters spell. -/
inductive Document (r : Registry) : Json → String → List Entry → Prop where
  | intro {j name filters es} (hshape : Shape j ⟨name, filters⟩)
      (hes : List.Forall₂ (SavedFilter.Spells r) filters es) : Document r j name es

/-- A JSON value that is no document, and its error: it has not the shape, or it has and the first
filter that spells nothing has the error. -/
inductive Refused (r : Registry) : Json → DecodeError → Prop where
  | shape {j} (hno : ∀ saved, ¬ Shape j saved) : Refused r j .jsonShape
  | filter {j name good bad rest es e} (hshape : Shape j ⟨name, good ++ bad :: rest⟩)
      (hgood : List.Forall₂ (SavedFilter.Spells r) good es) (hbad : bad.Faulty r e) :
      Refused r j e

/-- Saved chains of one name whose filters differ at most in what no control declares. -/
structure Alike (r : Registry) (saved other : SavedChain) : Prop where
  name : other.name = saved.name
  filters : List.Forall₂ (SavedFilter.Alike r) saved.filters other.filters

variable {r : Registry} {j : Json}

theorem Document.readJson_eq {name : String} {es : List Entry} (h : Document r j name es) :
    ChainForm.readJson r j = .ok (name, es) := by
  cases h with
  | intro hshape hes =>
    rw [ChainForm.readJson, ofJson?_eq_some.mpr hshape]
    simp only [SavedFilter.entries_of_spells hes]
    rfl

theorem Refused.readJson_eq {e : DecodeError} (h : Refused r j e) :
    ChainForm.readJson r j = .error e := by
  cases h with
  | shape hno =>
    have hnone : ofJson? j = none :=
      Option.eq_none_iff_forall_ne_some.mpr fun saved h => hno saved (ofJson?_eq_some.mp h)
    rw [ChainForm.readJson, hnone]
  | filter hshape hgood hbad =>
    rw [ChainForm.readJson, ofJson?_eq_some.mpr hshape]
    simp only [SavedFilter.entries_of_faulty hgood hbad]
    rfl

/-- Every JSON value is a document or refused. -/
theorem document_or_refused (r : Registry) (j : Json) :
    (∃ name es, Document r j name es) ∨ ∃ e, Refused r j e := by
  cases hj : ofJson? j with
  | none =>
    refine .inr ⟨_, .shape fun saved hsaved => ?_⟩
    cases hj.symm.trans (ofJson?_eq_some.mpr hsaved)
  | some saved =>
    have hshape := ofJson?_eq_some.mp hj
    rcases SavedFilter.spells_or_firstFaulty r saved.filters with
      ⟨es, hes⟩ | ⟨good, bad, rest, es, e, hfilters, hgood, hbad⟩
    · exact .inl ⟨saved.name, es, .intro hshape hes⟩
    · have hrow : Shape j ⟨saved.name, good ++ bad :: rest⟩ := by
        rw [← hfilters]
        exact hshape
      exact .inr ⟨e, .filter hrow hgood hbad⟩

theorem Alike.readJson_eq {j' : Json} {saved saved' : SavedChain} (hj : Shape j saved)
    (hj' : Shape j' saved') (h : Alike r saved saved') :
    ChainForm.readJson r j' = ChainForm.readJson r j := by
  rw [ChainForm.readJson, ChainForm.readJson, ofJson?_eq_some.mpr hj, ofJson?_eq_some.mpr hj']
  simp only [SavedFilter.entries_alike h.filters, h.name]

end SavedChain

/-- **Exactly the saved chains are loaded.** A chain loads a JSON value exactly when it is a
document; it then has the document's name and the values that the arguments spell, as the controls
accept them; and any other value has the error that the grammar gives it. Values of the same shape
that give the same to every control are loaded, or refused, alike. -/
theorem load_shape (c : Chain) (j : Json) :
    ((∃ c', c.loadJson j = .ok c') ↔ ∃ name es, SavedChain.Document c.registry j name es) ∧
    (∀ name es, SavedChain.Document c.registry j name es →
      ∃ c', c.loadJson j = .ok c' ∧ c.Loaded name es c') ∧
    (∀ e, c.loadJson j = .error e ↔ SavedChain.Refused c.registry j e) ∧
    ∀ j' saved saved', SavedChain.Shape j saved → SavedChain.Shape j' saved' →
      saved.Alike c.registry saved' → c.loadJson j' = c.loadJson j := by
  have hloads : ∀ name es, SavedChain.Document c.registry j name es →
      ∃ c', c.loadJson j = .ok c' ∧ c.Loaded name es c' := by
    intro name es hdoc
    have haccepted : ∀ e ∈ es, e.Accepted := by
      cases hdoc with
      | intro _ hes =>
        exact SavedFilter.entries_forall (fun _ _ h => SavedFilter.entry_accepted h)
          (SavedFilter.entries_of_spells hes)
    obtain ⟨c', hload, hloaded⟩ := c.load_accepted name haccepted
    refine ⟨c', ?_, hloaded⟩
    rw [ChainForm.loadJson_eq, hdoc.readJson_eq]
    exact hload
  have hrefuses : ∀ e, SavedChain.Refused c.registry j e → c.loadJson j = .error e := by
    intro e hrefused
    rw [ChainForm.loadJson_eq, hrefused.readJson_eq]
    rfl
  refine ⟨⟨?_, ?_⟩, hloads, fun e => ⟨fun h => ?_, hrefuses e⟩, ?_⟩
  · rintro ⟨c', h⟩
    rcases SavedChain.document_or_refused c.registry j with hdoc | ⟨e, hrefused⟩
    · exact hdoc
    · cases h.symm.trans (hrefuses e hrefused)
  · rintro ⟨name, es, hdoc⟩
    obtain ⟨c', h, -⟩ := hloads name es hdoc
    exact ⟨c', h⟩
  · rcases SavedChain.document_or_refused c.registry j with ⟨name, es, hdoc⟩ | ⟨e', hrefused⟩
    · obtain ⟨c', h', -⟩ := hloads name es hdoc
      cases h.symm.trans h'
    · cases h.symm.trans (hrefuses e' hrefused)
      exact hrefused
  · intro j' saved saved' hj hj' halike
    rw [ChainForm.loadJson_eq, ChainForm.loadJson_eq, halike.readJson_eq hj hj']

/-- Records written as arrays, and the same ones as objects with keys and arguments that nothing
asks for. -/
theorem load_shape_arrays :
    let arrays : Json := .array [.string "x",
      .array [.array [.string "posterize", .object [("levels", .number (.natural 300))]]]]
    let objects : Json := .object [("author", .null), ("filters", .array [.object [
      ("args", .object [("gamma", .bool true), ("levels", .number (.natural 300))]),
      ("id", .string "posterize")]]), ("name", .string "x")]
    ∃ c', (Chain.new .builtin).loadJson arrays = .ok c' ∧
      (Chain.new .builtin).loadJson objects = .ok c' ∧ c'.name = "x" := by
  intro arrays objects
  have harrays : SavedChain.Shape arrays
      ⟨"x", [⟨"posterize", [("levels", .number (.natural 300))]⟩]⟩ :=
    .intro .array (.cons (.intro .array) .nil)
  have hobjects : SavedChain.Shape objects
      ⟨"x", [⟨"posterize", [("gamma", .bool true), ("levels", .number (.natural 300))]⟩]⟩ :=
    .intro (.object rfl rfl) (.cons (.intro (.object rfl rfl)) .nil)
  have hgiven : SavedFilter.Gives ⟨"posterize", [("levels", .number (.natural 300))]⟩
      ⟨"levels", "Levels", .number 5 ⟨2, 64, 1, 0⟩⟩ (.number _) :=
    ⟨_, rfl, .number rfl (by decide +kernel)⟩
  have hdoc : SavedChain.Document .builtin arrays "x" _ :=
    .intro harrays (.cons (.intro (d := Catalog.posterize) rfl (.cons hgiven .nil)) .nil)
  have halike : SavedFilter.Alike .builtin ⟨"posterize", [("levels", .number (.natural 300))]⟩
      ⟨"posterize", [("gamma", .bool true), ("levels", .number (.natural 300))]⟩ := by
    refine ⟨rfl, fun d hd control hcontrol => ?_⟩
    cases hd
    cases List.mem_singleton.mp hcontrol
    rfl
  obtain ⟨-, hloads, -, hcongr⟩ := load_shape (.new .builtin) arrays
  obtain ⟨c', hload, hloaded⟩ := hloads "x" _ hdoc
  exact ⟨c', hload, (hcongr objects _ _ harrays hobjects ⟨rfl, .cons halike .nil⟩).trans hload,
    hloaded.name⟩

end ColorChain
