import ColorChain.Chain.Saved
import ColorChain.Proofs.Chain.Loading
import ColorChain.Proofs.Registry
import ColorChain.Proofs.Text

/-! The grammar of a clause.

A clause is an id, a `:` and fields with commas between them, and a field spells a value of
its control. `Clause` and `BadClause` say so without the reader: the second lists what can be
wrong with a clause and which error each fault has. The reader of a clause accepts exactly
the first and gives exactly the errors of the second (`clause_eq_ok`, `clause_eq_error`). -/
namespace ColorChain.Compact

/-! ### Fields -/

/-- The value that a field spells: a colour in hexadecimal for a colour control, and for any
other a numeral between blanks whose nearest number is finite. -/
inductive Spells (control : Control) (text : List Char) : ControlValue → Prop where
  | color {c : Color} (hkind : control.isColor = true)
      (h : Color.ofHex? (String.ofList text) = some c) : Spells control text (.color c)
  | number {n : Numeral} (hkind : control.isColor = false)
      (h : Numeral.ofText? (Text.trim text) = some n)
      (hfinite : (n.toBinary : Single).isFinite = true) :
      Spells control text (.number n.toBinary)

/-- What is told of a field that spells nothing. -/
def fieldError (id : String) (control : Control) (text : List Char) : DecodeError :=
  if control.isColor then .invalidColor id control.id (String.ofList text)
  else .notANumber id control.id (String.ofList text)

theorem number?_eq_some {text : List Char} {x : Single} :
    number? text = some x ↔
      ∃ n, Numeral.ofText? (Text.trim text) = some n ∧ n.toBinary = x ∧ x.isFinite = true := by
  unfold number?
  cases Numeral.ofText? (Text.trim text) with
  | none => simp
  | some n =>
    by_cases hfinite : (n.toBinary : Single).isFinite = true
    · simp only [hfinite, if_true, Option.some.injEq]
      constructor
      · rintro rfl
        exact ⟨n, rfl, rfl, hfinite⟩
      · rintro ⟨m, rfl, rfl, -⟩
        rfl
    · simp only [hfinite, Bool.false_eq_true, if_false, reduceCtorEq, false_iff]
      rintro ⟨m, hm, rfl, hx⟩
      cases hm
      exact hfinite hx

theorem field_eq_ok {id : String} {control : Control} {text : List Char} {v : ControlValue} :
    field id control text = .ok v ↔ Spells control text v := by
  unfold field
  cases hkind : control.isColor
  · simp only [Bool.false_eq_true, if_false]
    constructor
    · intro h
      cases hx : number? text with
      | none => simp [hx] at h
      | some x =>
        rw [hx] at h
        cases h
        obtain ⟨n, hn, rfl, hfinite⟩ := number?_eq_some.mp hx
        exact .number hkind hn hfinite
    · intro h
      cases h with
      | color hcolor _ => simp [hkind] at hcolor
      | number _ hn hfinite => rw [number?_eq_some.mpr ⟨_, hn, rfl, hfinite⟩]
  · simp only [if_true]
    constructor
    · intro h
      cases hc : Color.ofHex? (String.ofList text) with
      | none => simp [hc] at h
      | some c =>
        rw [hc] at h
        cases h
        exact .color hkind hc
    · intro h
      cases h with
      | color _ hc => rw [hc]
      | number hnumber _ _ => simp [hkind] at hnumber

theorem field_eq_error {id : String} {control : Control} {text : List Char} {e : DecodeError} :
    field id control text = .error e ↔
      (∀ v, ¬ Spells control text v) ∧ e = fieldError id control text := by
  have hfield : (∃ v, field id control text = .ok v) ∨
      field id control text = .error (fieldError id control text) := by
    unfold field fieldError
    split
    · cases Color.ofHex? (String.ofList text) <;> simp
    · cases number? text <;> simp
  rcases hfield with ⟨v, hv⟩ | herr
  · rw [hv]
    simp only [reduceCtorEq, false_iff, not_and]
    exact fun hno => absurd (field_eq_ok.mp hv) (hno v)
  · rw [herr]
    constructor
    · intro h
      cases h
      refine ⟨fun v hv => ?_, rfl⟩
      rw [field_eq_ok.mpr hv] at herr
      cases herr
    · rintro ⟨-, rfl⟩
      rfl

/-- The values that a row of fields spells, each for its own control. -/
inductive SpellsAll : List Control → List (List Char) → List ControlValue → Prop where
  | nil : SpellsAll [] [] []
  | cons {control text v controls texts vs} : Spells control text v →
      SpellsAll controls texts vs → SpellsAll (control :: controls) (text :: texts) (v :: vs)

/-- The error of the first field that spells nothing. -/
inductive FirstBad (id : String) : List Control → List (List Char) → DecodeError → Prop where
  | here {control text controls texts} : (∀ v, ¬ Spells control text v) →
      FirstBad id (control :: controls) (text :: texts) (fieldError id control text)
  | later {control text v controls texts e} : Spells control text v →
      FirstBad id controls texts e → FirstBad id (control :: controls) (text :: texts) e

theorem SpellsAll.length_eq {controls : List Control} {texts : List (List Char)}
    {vs : List ControlValue} (h : SpellsAll controls texts vs) :
    texts.length = controls.length := by
  induction h with
  | nil => rfl
  | cons _ _ ih => simp [ih]

theorem fields_eq_ok {id : String} {controls : List Control} {texts : List (List Char)}
    {vs : List ControlValue} (hlen : texts.length = controls.length) :
    fields id controls texts = .ok vs ↔ SpellsAll controls texts vs := by
  induction controls generalizing texts vs with
  | nil =>
    rw [List.length_nil, List.length_eq_zero_iff] at hlen
    subst hlen
    constructor
    · intro h
      cases h
      exact .nil
    · intro h
      cases h
      rfl
  | cons control controls ih =>
    cases texts with
    | nil => simp at hlen
    | cons text texts =>
      have hrest : texts.length = controls.length := by simpa using hlen
      constructor
      · intro h
        obtain ⟨v, hv, h⟩ := Outcome.bind_eq_ok.mp h
        obtain ⟨ws, hws, h⟩ := Outcome.bind_eq_ok.mp h
        cases h
        exact .cons (field_eq_ok.mp hv) ((ih hrest).mp hws)
      · intro h
        cases h with
        | @cons _ _ v _ _ ws hv hws =>
          rw [fields, field_eq_ok.mpr hv, (ih hrest).mpr hws]
          rfl

theorem fields_eq_error {id : String} {controls : List Control} {texts : List (List Char)}
    {e : DecodeError} (hlen : texts.length = controls.length) :
    fields id controls texts = .error e ↔ FirstBad id controls texts e := by
  induction controls generalizing texts with
  | nil =>
    rw [List.length_nil, List.length_eq_zero_iff] at hlen
    subst hlen
    constructor
    · intro h
      cases h
    · intro h
      cases h
  | cons control controls ih =>
    cases texts with
    | nil => simp at hlen
    | cons text texts =>
      have hrest : texts.length = controls.length := by simpa using hlen
      constructor
      · intro h
        rcases Outcome.bind_eq_error.mp h with h | ⟨v, hv, h⟩
        · obtain ⟨hno, rfl⟩ := field_eq_error.mp h
          exact .here hno
        · rcases Outcome.bind_eq_error.mp h with h | ⟨ws, -, h⟩
          · exact .later (field_eq_ok.mp hv) ((ih hrest).mp h)
          · cases h
      · intro h
        cases h with
        | here hno =>
          rw [fields, field_eq_error.mpr ⟨hno, rfl⟩]
          rfl
        | later hv hrest' =>
          rw [fields, field_eq_ok.mpr hv, (ih hrest).mpr hrest']
          rfl

/-- The fields of a clause's arguments: none for no text, else the pieces between commas. -/
inductive Separated : List Char → List (List Char) → Prop where
  | empty : Separated [] []
  | pieces {texts} (hne : texts ≠ []) (htext : Text.join ',' texts ≠ [])
      (h : ∀ text ∈ texts, ',' ∉ text) : Separated (Text.join ',' texts) texts

theorem separated_iff {args : List Char} {texts : List (List Char)} :
    Separated args texts ↔ splitFields args = texts := by
  unfold splitFields
  cases args with
  | nil =>
    constructor
    · intro h
      generalize hargs : ([] : List Char) = args at h
      cases h with
      | empty => rfl
      | pieces _ htext _ => exact absurd hargs.symm htext
    · rintro rfl
      exact .empty
  | cons c rest =>
    rw [List.isEmpty_cons, if_neg (by simp), Text.splitAll_eq]
    constructor
    · intro h
      generalize hargs : c :: rest = args at h
      cases h with
      | empty => cases hargs
      | pieces hne _ h => exact ⟨hne, rfl, h⟩
    · rintro ⟨hne, hargs, h⟩
      rw [hargs]
      exact .pieces hne (by simp [← hargs]) h

/-! ### Clauses -/

/-- A clause, without its end mark, and the entry that it spells. The id is what stands
before the first `:`. -/
inductive Clause (r : Registry) : List Char → Entry → Prop where
  | intro {id args texts d vs} (hid : ':' ∉ id) (hd : r.get? (String.ofList id) = some d)
      (hargs : Separated args texts) (hvs : SpellsAll d.controls texts vs) :
      Clause r (id ++ ':' :: args) (d, vs)

/-- A text that is no clause, and its error: there is no id, or it is unknown, or the fields
are not as many as the controls, or one of them spells nothing. -/
inductive BadClause (r : Registry) : List Char → DecodeError → Prop where
  | unmarked {text} (h : ':' ∉ text) : BadClause r text (.malformedClause (String.ofList text))
  | nameless {args} : BadClause r (':' :: args) (.malformedClause (String.ofList (':' :: args)))
  | unknown {id args} (hid : ':' ∉ id) (hne : id ≠ [])
      (hd : r.get? (String.ofList id) = none) :
      BadClause r (id ++ ':' :: args) (.unknownFilter (String.ofList id))
  | arity {id args texts d} (hid : ':' ∉ id) (hd : r.get? (String.ofList id) = some d)
      (hargs : Separated args texts) (hlen : texts.length ≠ d.controls.length) :
      BadClause r (id ++ ':' :: args)
        (.arity (String.ofList id) d.controls.length texts.length)
  | field {id args texts d e} (hid : ':' ∉ id) (hd : r.get? (String.ofList id) = some d)
      (hargs : Separated args texts) (hlen : texts.length = d.controls.length)
      (hbad : FirstBad (String.ofList id) d.controls texts e) :
      BadClause r (id ++ ':' :: args) e

variable {r : Registry}

/-- No definition is registered under the empty id. -/
theorem id_ne_nil {id : List Char} {d : Definition} (h : r.get? (String.ofList id) = some d) :
    id ≠ [] := by
  rintro rfl
  have hgood := Definition.goodId_of_fault? (r.valid d (Registry.mem_of_get? h))
  rw [Registry.id_of_get? h] at hgood
  simp [Definition.goodId] at hgood

/-- A clause is read in order: its id is looked up, its fields are counted, then read. -/
theorem clause_append {id : List Char} (hid : ':' ∉ id) (hne : id ≠ []) (args : List Char) :
    clause r (id ++ ':' :: args) = (do
      let d ← r.lookup (String.ofList id)
      let texts := splitFields args
      if texts.length ≠ d.controls.length then
        .error (.arity (String.ofList id) d.controls.length texts.length)
      else
        let vs ← fields (String.ofList id) d.controls texts
        return (d, vs)) := by
  unfold clause
  rw [Text.splitFirst_append hid]
  cases id with
  | nil => exact absurd rfl hne
  | cons c rest => rfl

/-- Once the id is found, what is left depends on the fields alone. -/
theorem clause_registered_append {id args : List Char} {texts : List (List Char)}
    {d : Definition} (hid : ':' ∉ id) (hd : r.get? (String.ofList id) = some d)
    (hargs : Separated args texts) :
    clause r (id ++ ':' :: args) =
      if texts.length ≠ d.controls.length then
        .error (.arity (String.ofList id) d.controls.length texts.length)
      else (fields (String.ofList id) d.controls texts).map fun vs => (d, vs) := by
  rw [clause_append hid (id_ne_nil hd), Registry.lookup, hd, ← separated_iff.mp hargs]
  rfl

/-- A text is a clause without an id, or has an id before its first `:`. -/
theorem clause_cases (text : List Char) :
    ':' ∉ text ∨ (∃ args, text = ':' :: args) ∨
      ∃ id args, text = id ++ ':' :: args ∧ ':' ∉ id ∧ id ≠ [] := by
  cases h : Text.splitFirst ':' text with
  | none => exact .inl (Text.splitFirst_eq_none.mp h)
  | some parts =>
    obtain ⟨id, args⟩ := parts
    obtain ⟨rfl, hid⟩ := Text.splitFirst_eq_some.mp h
    by_cases hne : id = []
    · subst hne
      exact .inr (.inl ⟨args, rfl⟩)
    · exact .inr (.inr ⟨id, args, rfl, hid, hne⟩)

theorem clause_of_unmarked {text : List Char} (h : ':' ∉ text) :
    clause r text = .error (.malformedClause (String.ofList text)) := by
  rw [clause, Text.splitFirst_eq_none.mpr h]

theorem clause_of_nameless (args : List Char) :
    clause r (':' :: args) = .error (.malformedClause (String.ofList (':' :: args))) := by
  have hsplit : Text.splitFirst ':' (':' :: args) = some ([], args) :=
    Text.splitFirst_append List.not_mem_nil args
  rw [clause, hsplit]

/-- Every text is a clause or a bad one, as the reader says. -/
theorem clause_reads (text : List Char) :
    (∃ e, clause r text = .ok e ∧ Clause r text e) ∨
      ∃ e, clause r text = .error e ∧ BadClause r text e := by
  rcases clause_cases text with h | ⟨args, rfl⟩ | ⟨id, args, rfl, hid, hne⟩
  · exact .inr ⟨_, clause_of_unmarked h, .unmarked h⟩
  · exact .inr ⟨_, clause_of_nameless args, .nameless⟩
  · cases hd : r.get? (String.ofList id) with
    | none =>
      refine .inr ⟨_, ?_, .unknown hid hne hd⟩
      rw [clause_append hid hne, Registry.lookup, hd]
      rfl
    | some d =>
      have hargs : Separated args (splitFields args) := separated_iff.mpr rfl
      have hclause := clause_registered_append hid hd hargs
      by_cases hlen : (splitFields args).length = d.controls.length
      · rw [if_neg (not_not.mpr hlen)] at hclause
        cases hfields : fields (String.ofList id) d.controls (splitFields args) with
        | ok vs =>
          refine .inl ⟨(d, vs), ?_, .intro hid hd hargs ((fields_eq_ok hlen).mp hfields)⟩
          rw [hclause, hfields]
          rfl
        | error e =>
          refine .inr ⟨e, ?_, .field hid hd hargs hlen ((fields_eq_error hlen).mp hfields)⟩
          rw [hclause, hfields]
          rfl
      · rw [if_pos hlen] at hclause
        exact .inr ⟨_, hclause, .arity hid hd hargs hlen⟩

theorem Clause.clause_eq {text : List Char} {e : Entry} (h : Clause r text e) :
    clause r text = .ok e := by
  cases h with
  | intro hid hd hargs hvs =>
    have hlen := hvs.length_eq
    rw [clause_registered_append hid hd hargs, if_neg (not_not.mpr hlen),
      (fields_eq_ok hlen).mpr hvs]
    rfl

theorem BadClause.clause_eq {text : List Char} {e : DecodeError} (h : BadClause r text e) :
    clause r text = .error e := by
  cases h with
  | unmarked h => exact clause_of_unmarked h
  | nameless => exact clause_of_nameless _
  | unknown hid hne hd =>
    rw [clause_append hid hne, Registry.lookup, hd]
    rfl
  | arity hid hd hargs hlen => rw [clause_registered_append hid hd hargs, if_pos hlen]
  | field hid hd hargs hlen hbad =>
    rw [clause_registered_append hid hd hargs, if_neg (not_not.mpr hlen),
      (fields_eq_error hlen).mpr hbad]
    rfl

theorem clause_eq_ok {text : List Char} {e : Entry} : clause r text = .ok e ↔ Clause r text e := by
  refine ⟨fun h => ?_, Clause.clause_eq⟩
  rcases clause_reads (r := r) text with ⟨e', he, hclause⟩ | ⟨e', he, -⟩
  · cases h.symm.trans he
    exact hclause
  · cases h.symm.trans he

theorem clause_eq_error {text : List Char} {e : DecodeError} :
    clause r text = .error e ↔ BadClause r text e := by
  refine ⟨fun h => ?_, BadClause.clause_eq⟩
  rcases clause_reads (r := r) text with ⟨e', he, -⟩ | ⟨e', he, hbad⟩
  · cases h.symm.trans he
  · cases h.symm.trans he
    exact hbad

end ColorChain.Compact
