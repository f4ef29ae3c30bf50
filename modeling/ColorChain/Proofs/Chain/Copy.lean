import ColorChain.Proofs.Chain.Loading
import ColorChain.Proofs.Control.Equal

/-! Chains that come back from what was written of them.

A chain loaded from entries whose values came back is a copy of the one they were written from
(`Chain.load_copy`): it has the same name and filters, with equal values, and everything else as
it was. -/
namespace ColorChain

/-! ### Values -/

variable {control : Control} {v w : ControlValue} {controls : List Control}
  {values : List ControlValue}

/-- A row of values that come back, each to its own control. -/
theorem Control.returns_row {read : Control → ControlValue → Except DecodeError ControlValue}
    (hlen : values.length = controls.length)
    (h : ∀ p ∈ controls.zip values, p.1.Returns p.2 (read p.1 p.2)) :
    ∃ ws storeds, List.zipWith read controls values = ws.map .ok ∧
      Control.Stores controls ws storeds ∧ (storeds == values) = true := by
  induction controls generalizing values with
  | nil =>
    rw [List.length_nil, List.length_eq_zero_iff] at hlen
    subst hlen
    exact ⟨[], [], rfl, .nil, rfl⟩
  | cons control controls ih =>
    cases values with
    | nil => simp at hlen
    | cons v values =>
      rw [List.zip_cons_cons, List.forall_mem_cons] at h
      obtain ⟨w, stored, hread, hstored, hv⟩ := h.1.accept
      obtain ⟨ws, storeds, hreads, hstoreds, hvalues⟩ := ih (by simpa using hlen) h.2
      refine ⟨w :: ws, stored :: storeds, ?_, .cons hstored hstoreds, ?_⟩
      · rw [List.zipWith_cons_cons, hread, hreads, List.map_cons]
      · rw [List.cons_beq_cons, hv, hvalues, Bool.and_self]

/-- A row of controls stores one row of a row of values. -/
theorem Control.Stores.unique {storeds storeds' : List ControlValue}
    (h : Stores controls values storeds) (h' : Stores controls values storeds') :
    storeds = storeds' := by
  induction h generalizing storeds' with
  | nil =>
    cases h'
    rfl
  | cons hstored _ ih =>
    cases h' with
    | cons hstored' hrest =>
      cases hstored.symm.trans hstored'
      rw [ih hrest]

/-! ### Filters -/

/-- `f'` shows what `f` does when it is visible. -/
structure Filter.Copy (f f' : Filter) : Prop where
  definition : f'.definition = f.definition
  values : (f'.values == f.values) = true
  visible : f'.visible = true

theorem Filter.Copy.beq {f f' : Filter} (h : f.Copy f') (hvisible : f.visible = true) :
    (f' == f) = true := by
  show (f'.id == f.id && f'.values == f.values && f'.visible == f.visible) = true
  rw [Filter.id, Filter.id, h.definition, h.values, h.visible, hvisible]
  simp

/-- An entry that was read of a filter: its controls store the filter's values. -/
structure Entry.Restores (f : Filter) (e : Entry) : Prop where
  definition : e.1 = f.definition
  stored : ∃ storeds, Control.Stores e.1.controls e.2 storeds ∧ (storeds == f.values) = true

theorem Entry.Restores.copy {f f' : Filter} {e : Entry} (h : Entry.Restores f e)
    (hheld : e.Held f') : f.Copy f' := by
  obtain ⟨storeds, hstoreds, hvalues⟩ := h.stored
  cases hstoreds.unique hheld.stored
  exact ⟨hheld.definition.trans h.definition, hvalues, hheld.visible⟩

/-- Entries that restore filters are all accepted. -/
theorem Entry.accepted_of_restores {fs : List Filter} {es : List Entry}
    (h : List.Forall₂ Entry.Restores fs es) : ∀ e ∈ es, e.Accepted := by
  induction h with
  | nil => simp
  | cons hf _ ih =>
    obtain ⟨storeds, hstoreds, -⟩ := hf.stored
    exact List.forall_mem_cons.mpr ⟨⟨storeds, hstoreds⟩, ih⟩

theorem Entry.copies_of_restores {fs fs' : List Filter} {es : List Entry}
    (h : List.Forall₂ Entry.Restores fs es) (hheld : List.Forall₂ Entry.Held es fs') :
    List.Forall₂ Filter.Copy fs fs' := by
  induction h generalizing fs' with
  | nil =>
    cases hheld
    exact .nil
  | cons hf _ ih =>
    cases hheld with
    | cons hf' hheld => exact .cons (hf.copy hf') (ih hheld)

/-! ### Chains -/

namespace Chain

/-- `d'` is `d` with the name and the filters of `c`, all visible. -/
structure Copy (c d d' : Chain) : Prop where
  name : d'.name = c.name
  seed : d'.seed = d.seed
  registry : d'.registry = d.registry
  filters : List.Forall₂ Filter.Copy c.filters d'.filters

variable {c d d' : Chain}

/-- **Entries that restore a chain's filters are loaded as a copy of it.** -/
theorem load_copy (c d : Chain) {es : List Entry} (h : List.Forall₂ Entry.Restores c.filters es) :
    ∃ d', d.load c.name es = .ok d' ∧ Copy c d d' := by
  obtain ⟨d', hload, hloaded⟩ := d.load_accepted c.name (Entry.accepted_of_restores h)
  exact ⟨d', hload, hloaded.name, hloaded.seed, hloaded.registry,
    Entry.copies_of_restores h hloaded.filters⟩

/-- Filters of the same definitions are one program. -/
theorem ids_of_definitions
    (h : List.Forall₂ (fun f f' : Filter => f'.definition = f.definition) c.filters d'.filters) :
    d'.ids = c.ids := by
  unfold Chain.ids
  generalize c.filters = fs at h
  generalize d'.filters = fs' at h
  induction h with
  | nil => rfl
  | cons hf _ ih => rw [List.map_cons, List.map_cons, ih, Filter.id, Filter.id, hf]

/-- A copy shows the same program. -/
theorem Copy.ids (h : Copy c d d') : d'.ids = c.ids :=
  ids_of_definitions (h.filters.imp fun _ _ hf => hf.definition)

/-- A copy of a chain without hidden filters is equal to it when the seeds are. -/
theorem Copy.beq (h : Copy c d d') (hvisible : ∀ f ∈ c.filters, f.visible = true)
    (hseed : (d.seed == c.seed) = true) : (d' == c) = true := by
  have hfilters : (d'.filters == c.filters) = true := by
    have hcopies := h.filters
    generalize c.filters = fs at *
    generalize d'.filters = fs' at *
    induction hcopies with
    | nil => rfl
    | cons hf _ ih =>
      obtain ⟨hshown, hrest⟩ := List.forall_mem_cons.mp hvisible
      rw [List.cons_beq_cons, hf.beq hshown, ih hrest, Bool.and_self]
  show (d'.name == c.name && d'.seed == c.seed && d'.filters == c.filters) = true
  rw [h.name, h.seed, hseed, hfilters]
  simp

end Chain
end ColorChain
