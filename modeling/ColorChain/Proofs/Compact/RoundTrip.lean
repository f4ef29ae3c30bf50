import ColorChain.Proofs.Chain.Sound
import ColorChain.Proofs.Compact.Document
import ColorChain.Proofs.Compact.Field

/-! Compact text that is read back.

Ids and fields contain no mark, and the name stands after the first `~` whatever it is. So the
text of a chain is a document, its clauses are those of the filters, and it never starts with a
brace (`Chain.document_encode`, `Chain.head_encode`). If the values come back from their
fields, the document is loaded as a copy of the chain: `decode_encode`. -/
namespace ColorChain

/-! ### Clauses -/

namespace Filter

/-- The texts of the filter's values. -/
def texts (f : Filter) : List (List Char) :=
  List.zipWith Control.fieldText f.definition.controls f.values

/-- The filter's clause without its end mark. -/
def openClause (f : Filter) : List Char := f.id.toList ++ ':' :: Text.join ',' f.texts

theorem clause_eq (f : Filter) : f.clause = f.openClause ++ [';'] := by
  simp [clause, openClause, texts]

/-- Every value of the filter comes back from its field. -/
def ReturnsText (f : Filter) : Prop :=
  ∀ p ∈ f.definition.controls.zip f.values,
    p.1.Returns p.2 (Compact.field f.id p.1 (p.1.fieldText p.2))

instance (f : Filter) : Decidable f.ReturnsText :=
  inferInstanceAs (Decidable (∀ p ∈ f.definition.controls.zip f.values, _))

variable {r : Registry} {f : Filter}

theorem plain_texts : ∀ text ∈ f.texts, ∀ c ∈ text, Compact.Plain c := by
  intro text htext
  unfold texts at htext
  rw [← List.map_uncurry_zip_eq_zipWith] at htext
  obtain ⟨⟨control, v⟩, -, rfl⟩ := List.mem_map.mp htext
  exact control.plain_fieldText v

theorem Sound.plain_id (hf : f.Sound r) : ∀ c ∈ f.id.toList, Compact.Plain c :=
  Definition.plain_id (r.valid _ (Registry.mem_of_get? hf.registered))

theorem Sound.mem_openClause (hf : f.Sound r) {c : Char} (h : c ∈ f.openClause) :
    Compact.Plain c ∨ c = ':' ∨ c = ',' := by
  rcases List.mem_append.mp h with h | h
  · exact .inl (hf.plain_id c h)
  · rcases List.mem_cons.mp h with h | h
    · exact .inr (.inl h)
    · rcases Text.mem_join h with h | ⟨text, htext, h⟩
      · exact .inr (.inr h)
      · exact .inl (plain_texts text htext c h)

end Filter

namespace Compact

/-- No value has an empty text. -/
theorem Spells.ne_nil {control : Control} {text : List Char} {v : ControlValue}
    (h : Spells control text v) : text ≠ [] := by
  rintro rfl
  cases h with
  | color _ h => cases h
  | number _ h _ => cases h

theorem SpellsAll.ne_nil {controls : List Control} {texts : List (List Char)}
    {vs : List ControlValue} (h : SpellsAll controls texts vs) : ∀ text ∈ texts, text ≠ [] := by
  induction h with
  | nil => simp
  | cons hv _ ih => exact List.forall_mem_cons.mpr ⟨hv.ne_nil, ih⟩

theorem spellsAll_of_fields {id : String} {controls : List Control} {values ws : List ControlValue}
    (hlen : values.length = controls.length)
    (h : List.zipWith (fun control v => field id control (control.fieldText v)) controls values =
      ws.map .ok) :
    SpellsAll controls (List.zipWith Control.fieldText controls values) ws := by
  induction controls generalizing values ws with
  | nil =>
    rw [List.length_nil, List.length_eq_zero_iff] at hlen
    subst hlen
    cases ws with
    | nil => exact .nil
    | cons w ws => cases h
  | cons control controls ih =>
    cases values with
    | nil => simp at hlen
    | cons v values =>
      cases ws with
      | nil => cases h
      | cons w ws =>
        rw [List.zipWith_cons_cons, List.map_cons, List.cons.injEq] at h
        exact .cons (field_eq_ok.mp h.1) (ih (by simpa using hlen) h.2)

/-- The clause of a filter whose texts spell values. -/
theorem clause_of_spells {r : Registry} {f : Filter} {ws : List ControlValue} (hf : f.Sound r)
    (h : SpellsAll f.definition.controls f.texts ws) :
    Clause r f.openClause (f.definition, ws) := by
  refine .intro ?_ ?_ ?_ h
  · intro hmark
    exact not_plain ':' (by decide) (hf.plain_id ':' hmark)
  · rw [String.ofList_toList]
    exact hf.registered
  · by_cases hnone : f.texts = []
    · rw [hnone]
      exact .empty
    · refine .pieces hnone (Text.join_ne_nil hnone h.ne_nil) ?_
      intro text htext hmark
      exact not_plain ',' (by decide) (Filter.plain_texts text htext ',' hmark)

/-- The clause of a filter whose values come back, and what it restores. -/
theorem clause_openClause {r : Registry} {f : Filter} (hf : f.Sound r) (h : f.ReturnsText) :
    ∃ e, Clause r f.openClause e ∧ Entry.Restores f e := by
  obtain ⟨ws, storeds, hreads, hstores, hvalues⟩ :=
    @Control.returns_row _ _ (fun control v => field f.id control (control.fieldText v)) hf.values h
  exact ⟨(f.definition, ws), clause_of_spells hf (spellsAll_of_fields hf.values hreads),
    ⟨rfl, storeds, hstores, hvalues⟩⟩

/-- The clauses of a row of filters. -/
theorem clauses_openClause {r : Registry} {fs : List Filter} (hfs : ∀ f ∈ fs, f.Sound r)
    (h : ∀ f ∈ fs, f.ReturnsText) :
    ∃ es, List.Forall₂ (Clause r) (fs.map Filter.openClause) es ∧
      List.Forall₂ Entry.Restores fs es := by
  induction fs with
  | nil => exact ⟨[], .nil, .nil⟩
  | cons f rest ih =>
    obtain ⟨hf, hrest⟩ := List.forall_mem_cons.mp hfs
    obtain ⟨hreturns, hreturnsRest⟩ := List.forall_mem_cons.mp h
    obtain ⟨e, he, hrestores⟩ := clause_openClause hf hreturns
    obtain ⟨es, hes, hall⟩ := ih hrest hreturnsRest
    exact ⟨e :: es, .cons he hes, .cons hrestores hall⟩

end Compact

/-! ### Documents -/

namespace Chain

variable {c : Chain}

theorem toList_encode (c : Chain) :
    c.encode.toList =
      Text.closeAll ';' (c.filters.map Filter.openClause) ++ '~' :: c.name.toList := by
  have hclauses : c.filters.flatMap Filter.clause =
      Text.closeAll ';' (c.filters.map Filter.openClause) := by
    rw [Text.closeAll, List.flatMap_map]
    exact List.flatMap_congr fun f _ => f.clause_eq
  rw [encode, String.toList_ofList, hclauses]

/-- What the text has in front of its name. -/
theorem Sound.mem_front (hc : c.Sound) {a : Char}
    (h : a ∈ Text.closeAll ';' (c.filters.map Filter.openClause)) :
    Compact.Plain a ∨ a = ':' ∨ a = ',' ∨ a = ';' := by
  rcases Text.mem_closeAll h with h | ⟨text, htext, h⟩
  · exact .inr (.inr (.inr h))
  · obtain ⟨f, hf, rfl⟩ := List.mem_map.mp htext
    rcases (hc f hf).mem_openClause h with h | h | h
    · exact .inl h
    · exact .inr (.inl h)
    · exact .inr (.inr (.inl h))

/-- The text never reads as JSON. -/
theorem Sound.head_encode (hc : c.Sound) : c.encode.toList.head? ≠ some '\x7b' := by
  intro hhead
  rw [toList_encode] at hhead
  cases hfront : Text.closeAll ';' (c.filters.map Filter.openClause) with
  | nil => simp [hfront] at hhead
  | cons a rest =>
    rw [hfront] at hhead
    cases hhead
    have hbrace : '\x7b' ∈ Text.closeAll ';' (c.filters.map Filter.openClause) := by
      rw [hfront]
      exact List.mem_cons_self
    rcases hc.mem_front hbrace with h | h | h | h
    · exact Compact.not_plain '\x7b' (by decide) h
    · cases h
    · cases h
    · cases h

/-- **The text of a chain is a document** if its filters' clauses are. -/
theorem Sound.document_encode (hc : c.Sound) {es : List Entry}
    (hes : List.Forall₂ (Compact.Clause c.registry) (c.filters.map Filter.openClause) es) :
    Compact.Document c.registry c.encode.toList c.name.toList es := by
  rw [toList_encode]
  refine .intro ?_ ?_ hes
  · intro hmark
    rcases hc.mem_front hmark with h | h | h | h
    · exact Compact.not_plain '~' (by decide) h
    · cases h
    · cases h
    · cases h
  · intro text htext hmark
    obtain ⟨f, hf, rfl⟩ := List.mem_map.mp htext
    rcases (hc f hf).mem_openClause hmark with h | h | h
    · exact Compact.not_plain ';' (by decide) h
    · cases h
    · cases h

/-- The text is loaded as the entries of its clauses. -/
theorem Sound.decode_encode_eq {d : Chain} (hc : c.Sound) (hd : d.registry = c.registry)
    {es : List Entry}
    (hes : List.Forall₂ (Compact.Clause c.registry) (c.filters.map Filter.openClause) es) :
    d.decode c.encode = d.load c.name es := by
  rw [decode, if_neg hc.head_encode, hd, (hc.document_encode hes).read_eq, String.ofList_toList]
  rfl

theorem fieldTexts_beq (controls : List Control) {values values' : List ControlValue}
    (h : (values' == values) = true) :
    List.zipWith Control.fieldText controls values' =
      List.zipWith Control.fieldText controls values := by
  induction values generalizing controls values' with
  | nil =>
    cases values' with
    | nil => rfl
    | cons v' values' => cases h
  | cons v values ih =>
    cases values' with
    | nil => cases h
    | cons v' values' =>
      rw [List.cons_beq_cons, Bool.and_eq_true] at h
      cases controls with
      | nil => rfl
      | cons control controls =>
        rw [List.zipWith_cons_cons, List.zipWith_cons_cons, control.fieldText_beq h.1,
          ih controls h.2]

/-- A copy has the same text. -/
theorem Copy.encode {d d' : Chain} (h : Copy c d d') : d'.encode = c.encode := by
  have hclauses : d'.filters.flatMap Filter.clause = c.filters.flatMap Filter.clause := by
    have hcopies := h.filters
    generalize c.filters = fs at *
    generalize d'.filters = fs' at *
    induction hcopies with
    | nil => rfl
    | cons hf _ ih =>
      rw [List.flatMap_cons, List.flatMap_cons, ih]
      rw [Filter.clause, Filter.clause, Filter.id, Filter.id, hf.definition,
        fieldTexts_beq _ hf.values]
  rw [Chain.encode, Chain.encode, hclauses, h.name]

end Chain

/-! ### The round trip -/

/-- **Compact text round trip.** A chain whose values come back from their fields is decoded,
by any chain over its registry, as a copy: its name, ids and values, all filters visible, and
the decoding chain's own seed. The copy has the same text again, and it is equal to a chain
without hidden filters and with that seed. With the built-in filters the values that come
back include every in-range number nearest to a decimal with the control's places and every
colour whose channels are bytes. -/
theorem decode_encode :
    (∀ (r : Registry) (edits : List Edit) (d : Chain), d.registry = r →
      (∀ f ∈ ((Chain.new r).run edits).filters, f.ReturnsText) →
      ∃ d', d.decode ((Chain.new r).run edits).encode = .ok d' ∧
        Chain.Copy ((Chain.new r).run edits) d d' ∧
        d'.ids = ((Chain.new r).run edits).ids ∧
        d'.encode = ((Chain.new r).run edits).encode ∧
        ((∀ f ∈ ((Chain.new r).run edits).filters, f.visible = true) →
          (d.seed == ((Chain.new r).run edits).seed) = true →
          (d' == (Chain.new r).run edits) = true)) ∧
    ∀ definition ∈ Registry.builtin.definitions, ∀ control ∈ definition.controls,
      ∀ v, control.Exact v →
        control.Returns v (Compact.field definition.id control (control.fieldText v)) := by
  refine ⟨?_, ?_⟩
  · intro r edits d hd h
    have hregistry := Chain.run_new_registry r edits
    have hsound := Chain.sound_run_new r edits
    generalize (Chain.new r).run edits = c at *
    obtain ⟨es, hes, hrestores⟩ := Compact.clauses_openClause hsound h
    obtain ⟨d', hload, hcopy⟩ := Chain.load_copy c d hrestores
    refine ⟨d', ?_, hcopy, hcopy.ids, hcopy.encode, hcopy.beq⟩
    rw [hsound.decode_encode_eq (hd.trans hregistry.symm) hes]
    exact hload
  · intro definition hdefinition control hcontrol v hv
    exact hv.returns_fieldText (Catalog.small_range definition hdefinition control hcontrol) _

/-- Two filters, one with a value of its own, under a name of marks. -/
def markEdits : List Edit :=
  [.add "posterize", .add "hsl_multiply", .setValue ⟨1⟩ 0 (.number 1.15), .setName "\x7b~;:"]

/-- A name of marks does not disturb the clauses in front of it, and 1.15 comes back. -/
theorem decode_encode_markName :
    (∀ f ∈ ((Chain.new .builtin).run markEdits).filters, f.ReturnsText) ∧
    (∃ d', (Chain.new .builtin).decode ((Chain.new .builtin).run markEdits).encode = .ok d' ∧
      d'.name = "\x7b~;:" ∧ d'.ids = ["posterize", "hsl_multiply"]) ∧
    Control.Returns ⟨"hue", "Hue", .number 1 Catalog.factor⟩ (.number 1.15)
      (Compact.field "hsl_multiply" ⟨"hue", "Hue", .number 1 Catalog.factor⟩
        (Control.fieldText ⟨"hue", "Hue", .number 1 Catalog.factor⟩ (.number 1.15))) := by
  have hreturns : ∀ f ∈ ((Chain.new .builtin).run markEdits).filters, f.ReturnsText := by
    decide +kernel
  obtain ⟨d', hdecode, hcopy, hids, -⟩ :=
    decode_encode.1 .builtin markEdits (.new .builtin) rfl hreturns
  refine ⟨hreturns, ⟨d', hdecode, hcopy.name, hids⟩, ?_⟩
  exact decode_encode.2 Catalog.hslMultiply (by simp [Registry.builtin, Catalog.definitions]) _
    (by simp [Catalog.hslMultiply]) _ .of_factor

end ColorChain
