import ColorChain.Proofs.Compact.Clause
import ColorChain.Proofs.Control.Stored

/-! The grammar of compact text.

A text is a row of closed clauses, a `~` and the name. `Document` says which texts these are
and what they spell, and `Refused` which error any other text has: the first, from left to
right and from the outside in, of what is wrong with it. `decode_compact`: a chain decodes
exactly the documents, whatever it held before, and refuses every other text with its error.
-/
namespace ColorChain.Compact

variable {r : Registry}

/-! ### Rows of clauses -/

theorem clauses_eq_ok {texts : List (List Char)} {es : List Entry} :
    clauses r texts = .ok es ↔ List.Forall₂ (Clause r) texts es := by
  induction texts generalizing es with
  | nil =>
    constructor
    · intro h
      cases h
      exact .nil
    · intro h
      cases h
      rfl
  | cons text rest ih =>
    constructor
    · intro h
      obtain ⟨e, he, h⟩ := Outcome.bind_eq_ok.mp h
      obtain ⟨es', hes, h⟩ := Outcome.bind_eq_ok.mp h
      cases h
      exact .cons (clause_eq_ok.mp he) (ih.mp hes)
    · intro h
      cases h with
      | cons he hes =>
        rw [clauses, he.clause_eq, ih.mpr hes]
        rfl

/-- The clause that an error comes from is the first that is bad. -/
theorem clauses_eq_error {texts : List (List Char)} {e : DecodeError} :
    clauses r texts = .error e ↔
      ∃ good bad rest es, texts = good ++ bad :: rest ∧ List.Forall₂ (Clause r) good es ∧
        BadClause r bad e := by
  induction texts with
  | nil =>
    constructor
    · intro h
      cases h
    · rintro ⟨good, bad, rest, es, h, -, -⟩
      simp at h
  | cons text rest ih =>
    constructor
    · intro h
      rcases Outcome.bind_eq_error.mp h with h | ⟨e', he, h⟩
      · exact ⟨[], text, rest, [], rfl, .nil, clause_eq_error.mp h⟩
      · rcases Outcome.bind_eq_error.mp h with h | ⟨es, -, h⟩
        · obtain ⟨good, bad, after, es, rfl, hgood, hbad⟩ := ih.mp h
          exact ⟨text :: good, bad, after, e' :: es, rfl, .cons (clause_eq_ok.mp he) hgood, hbad⟩
        · cases h
    · rintro ⟨good, bad, after, es, htexts, hgood, hbad⟩
      cases hgood with
      | nil =>
        cases htexts
        rw [clauses, hbad.clause_eq]
        rfl
      | @cons _ e' good' es' he hgood' =>
        cases htexts
        rw [clauses, he.clause_eq, ih.mpr ⟨good', bad, after, es', rfl, hgood', hbad⟩]
        rfl

/-- The clauses in front of a name are those that a mark closes. -/
theorem body_closeAll {texts : List (List Char)} (h : ∀ text ∈ texts, ';' ∉ text) :
    body r (Text.closeAll ';' texts) = clauses r texts := by
  unfold body
  by_cases hne : texts = []
  · subst hne
    rfl
  · have hjoin : Text.closeAll ';' texts = Text.join ';' texts ++ [';'] :=
      Text.closeAll_eq_join hne
    rw [hjoin, if_neg (by simp), Text.beforeLast?_append]
    simp only [Text.splitAll_join hne h]

/-- A text is a row of closed clauses, or it does not end in a mark. -/
theorem body_cases (front : List Char) :
    (∃ texts, front = Text.closeAll ';' texts ∧ ∀ text ∈ texts, ';' ∉ text) ∨
      front ≠ [] ∧ front.getLast? ≠ some ';' := by
  by_cases hne : front = []
  · exact .inl ⟨[], hne, by simp⟩
  · cases h : Text.beforeLast? ';' front with
    | none => exact .inr ⟨hne, Text.beforeLast?_eq_none.mp h⟩
    | some inner =>
      refine .inl ⟨Text.splitAll ';' inner, ?_, Text.notMem_of_mem_splitAll⟩
      rw [Text.closeAll_splitAll]
      exact Text.beforeLast?_eq_some.mp h

theorem body_of_unclosed {front : List Char} (hne : front ≠ [])
    (hlast : front.getLast? ≠ some ';') :
    body r front = .error (.malformedClause (String.ofList front)) := by
  rw [body, if_neg (by simpa using hne), Text.beforeLast?_eq_none.mpr hlast]

/-! ### Documents -/

/-- A text, the name in it and the entries that its clauses spell. The name is all that
follows the first `~`. -/
inductive Document (r : Registry) : List Char → List Char → List Entry → Prop where
  | intro {texts name es} (hmark : '~' ∉ Text.closeAll ';' texts)
      (htexts : ∀ text ∈ texts, ';' ∉ text) (hes : List.Forall₂ (Clause r) texts es) :
      Document r (Text.closeAll ';' texts ++ '~' :: name) name es

/-- A text that is no document, and its error: there is no `~`, or the last clause is not
closed, or the first clause that is bad has the error. -/
inductive Refused (r : Registry) : List Char → DecodeError → Prop where
  | unnamed {text} (h : '~' ∉ text) : Refused r text .missingName
  | unclosed {front name} (hmark : '~' ∉ front) (hne : front ≠ [])
      (hlast : front.getLast? ≠ some ';') :
      Refused r (front ++ '~' :: name) (.malformedClause (String.ofList front))
  | clause {good bad rest name es e} (hmark : '~' ∉ Text.closeAll ';' (good ++ bad :: rest))
      (htexts : ∀ text ∈ good ++ bad :: rest, ';' ∉ text)
      (hgood : List.Forall₂ (Clause r) good es) (hbad : BadClause r bad e) :
      Refused r (Text.closeAll ';' (good ++ bad :: rest) ++ '~' :: name) e

theorem read_append {front : List Char} (hmark : '~' ∉ front) (name : List Char) :
    read r (front ++ '~' :: name) = (body r front).map fun es => (String.ofList name, es) := by
  rw [read, Text.splitFirst_append hmark]
  rfl

theorem Document.read_eq {text name : List Char} {es : List Entry} (h : Document r text name es) :
    read r text = .ok (String.ofList name, es) := by
  cases h with
  | intro hmark htexts hes =>
    rw [read_append hmark, body_closeAll htexts, clauses_eq_ok.mpr hes]
    rfl

theorem Refused.read_eq {text : List Char} {e : DecodeError} (h : Refused r text e) :
    read r text = .error e := by
  cases h with
  | unnamed h => rw [read, Text.splitFirst_eq_none.mpr h]
  | unclosed hmark hne hlast =>
    rw [read_append hmark, body_of_unclosed hne hlast]
    rfl
  | clause hmark htexts hgood hbad =>
    rw [read_append hmark, body_closeAll htexts,
      clauses_eq_error.mpr ⟨_, _, _, _, rfl, hgood, hbad⟩]
    rfl

/-- Every text is a document or refused, as the reader says. -/
theorem document_or_refused (r : Registry) (text : List Char) :
    (∃ name es, Document r text name es) ∨ ∃ e, Refused r text e := by
  cases hsplit : Text.splitFirst '~' text with
  | none => exact .inr ⟨_, .unnamed (Text.splitFirst_eq_none.mp hsplit)⟩
  | some parts =>
    obtain ⟨front, name⟩ := parts
    obtain ⟨rfl, hmark⟩ := Text.splitFirst_eq_some.mp hsplit
    rcases body_cases front with ⟨texts, rfl, htexts⟩ | ⟨hne, hlast⟩
    · cases hclauses : clauses r texts with
      | ok es => exact .inl ⟨name, es, .intro hmark htexts (clauses_eq_ok.mp hclauses)⟩
      | error e =>
        obtain ⟨good, bad, rest, es, rfl, hgood, hbad⟩ := clauses_eq_error.mp hclauses
        exact .inr ⟨e, .clause hmark htexts hgood hbad⟩
    · exact .inr ⟨_, .unclosed hmark hne hlast⟩

/-! ### Decoding -/

/-- What a field spells suits its control. -/
theorem Spells.suits {control : Control} {text : List Char} {v : ControlValue}
    (h : Spells control text v) : control.Suits v := by
  cases h with
  | color hkind _ => exact .color hkind
  | number hkind _ hfinite => exact .number hkind hfinite

theorem SpellsAll.accepted {controls : List Control} {texts : List (List Char)}
    {vs : List ControlValue} (h : SpellsAll controls texts vs) :
    ∃ storeds, Control.Stores controls vs storeds := by
  induction h with
  | nil => exact ⟨[], .nil⟩
  | cons hv _ ih =>
    obtain ⟨stored, hstored⟩ := hv.suits.accept
    obtain ⟨storeds, hstoreds⟩ := ih
    exact ⟨stored :: storeds, .cons hstored hstoreds⟩

theorem Clause.accepted {text : List Char} {e : Entry} (h : Clause r text e) : e.Accepted := by
  cases h with
  | intro _ _ _ hvs => exact hvs.accepted

theorem Document.accepted {text name : List Char} {es : List Entry}
    (h : Document r text name es) : ∀ e ∈ es, e.Accepted := by
  cases h with
  | intro hmark htexts hes =>
    clear hmark htexts
    induction hes with
    | nil => simp
    | cons he _ ih => exact List.forall_mem_cons.mpr ⟨he.accepted, ih⟩

end ColorChain.Compact

namespace ColorChain

/-- **Decoding follows the grammar.** A text that does not start with a brace is decoded
exactly when it is a document; the chain then has the document's name and the values that
its fields spell, as their controls accept them; and any other text has the error that the
grammar gives it. -/
theorem decode_compact (c : Chain) (text : String) (hbrace : text.toList.head? ≠ some '\x7b') :
    ((∃ c', c.decode text = .ok c') ↔
      ∃ name es, Compact.Document c.registry text.toList name es) ∧
    (∀ name es, Compact.Document c.registry text.toList name es →
      ∃ c', c.decode text = .ok c' ∧ c.Loaded (String.ofList name) es c') ∧
    ∀ e, c.decode text = .error e ↔ Compact.Refused c.registry text.toList e := by
  have hdecode : c.decode text =
      Compact.read c.registry text.toList >>= fun p => c.load p.1 p.2 := by
    rw [Chain.decode, if_neg hbrace]
  have hloads : ∀ name es, Compact.Document c.registry text.toList name es →
      ∃ c', c.decode text = .ok c' ∧ c.Loaded (String.ofList name) es c' := by
    intro name es hdoc
    obtain ⟨c', hload, hloaded⟩ := c.load_accepted (String.ofList name) hdoc.accepted
    refine ⟨c', ?_, hloaded⟩
    rw [hdecode, hdoc.read_eq]
    exact hload
  have hrefuses : ∀ e, Compact.Refused c.registry text.toList e → c.decode text = .error e := by
    intro e hrefused
    rw [hdecode, hrefused.read_eq]
    rfl
  refine ⟨⟨?_, ?_⟩, hloads, fun e => ⟨fun h => ?_, hrefuses e⟩⟩
  · rintro ⟨c', h⟩
    rcases Compact.document_or_refused c.registry text.toList with hdoc | ⟨e, hrefused⟩
    · exact hdoc
    · cases h.symm.trans (hrefuses e hrefused)
  · rintro ⟨name, es, hdoc⟩
    obtain ⟨c', h, -⟩ := hloads name es hdoc
    exact ⟨c', h⟩
  · rcases Compact.document_or_refused c.registry text.toList with ⟨name, es, hdoc⟩ | ⟨e', hrefused⟩
    · obtain ⟨c', h', -⟩ := hloads name es hdoc
      cases h.symm.trans h'
    · cases h.symm.trans (hrefuses e' hrefused)
      exact hrefused

/-- A clause without any text is refused where it stands, behind one that is read. -/
theorem decode_compact_emptyClause :
    "posterize:5;;~x".toList.head? ≠ some '\x7b' ∧
      (Chain.new .builtin).decode "posterize:5;;~x" = .error (.malformedClause "") := by
  have hbrace : "posterize:5;;~x".toList.head? ≠ some '\x7b' := by decide +kernel
  have hclause : Compact.Clause .builtin "posterize:5".toList (Catalog.posterize, [.number 5]) :=
    Compact.clause_eq_ok.mp rfl
  have hmark : '~' ∉ Text.closeAll ';' ["posterize:5".toList, []] := by decide +kernel
  have htexts : ∀ text ∈ ["posterize:5".toList, []], ';' ∉ text := by decide +kernel
  have hrefused : Compact.Refused .builtin "posterize:5;;~x".toList (.malformedClause "") :=
    @Compact.Refused.clause .builtin ["posterize:5".toList] [] [] ['x'] _ _ hmark htexts
      (.cons hclause .nil) (.unmarked List.not_mem_nil)
  exact ⟨hbrace, ((decode_compact (.new .builtin) _ hbrace).2.2 _).mpr hrefused⟩

end ColorChain
