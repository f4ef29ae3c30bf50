import ColorChain.Proofs.Json.Text
import ColorChain.Proofs.Saved.Argument

/-! Saved chains as JSON values.

The value of a saved chain has the shape that a saved chain is read from
(`SavedChain.ofJson?_value`). Its text has the records' keys in another order, and is read as this
value whenever the doubles in it are read back (`Chain.parse?_toJsonText`). -/
namespace ColorChain

/-- A saved filter as a JSON value. -/
def SavedFilter.value (f : SavedFilter) : Json :=
  .object (Json.Fields.ofEntries [("id", .string f.id), ("args", .object f.args)])

/-- A saved chain as a JSON value. -/
def SavedChain.value (c : SavedChain) : Json :=
  .object (Json.Fields.ofEntries
    [("name", .string c.name), ("filters", .array (c.filters.map SavedFilter.value))])

/-! ### Shapes -/

theorem Json.pair?_ofEntries {first second : String} (h : first ≠ second) (a b : Json) :
    pair? first second (.object (Fields.ofEntries [(first, a), (second, b)])) = some (a, b) := by
  have hnodup : ([(first, a), (second, b)].map Prod.fst).Nodup := by simpa using h
  have hfirst := Fields.get?_ofEntries hnodup (k := first) (v := a) (by simp)
  have hsecond := Fields.get?_ofEntries hnodup (k := second) (v := b) (by simp)
  rw [pair?, hfirst, hsecond]
  rfl

theorem SavedFilter.ofJson?_value (f : SavedFilter) : ofJson? f.value = some f := by
  rw [ofJson?, value, Json.pair?_ofEntries (by decide)]
  rfl

theorem SavedFilter.mapM_value (fs : List SavedFilter) : (fs.map value).mapM ofJson? = some fs := by
  induction fs with
  | nil => rfl
  | cons f rest ih =>
    rw [List.map_cons, List.mapM_cons, ih, ofJson?_value]
    rfl

/-- The value of a saved chain has its shape. -/
theorem SavedChain.ofJson?_value (c : SavedChain) : ofJson? c.value = some c := by
  have hfilters := SavedFilter.mapM_value c.filters
  rw [ofJson?, value, Json.pair?_ofEntries (by decide)]
  simp [Json.string?, Json.array?, hfilters]

/-! ### Text -/

namespace SavedFilter

/-- The saved filter as its text is read. -/
def reread (f : SavedFilter) : SavedFilter := ⟨f.id, Json.rereadFields f.args⟩

/-- What the fields of a filter must be for its text to be read. -/
structure Plain (f : SavedFilter) : Prop where
  sorted : Json.Fields.Sorted f.args
  flat : ∀ field ∈ f.args, field.2.depth = 0
  legible : ∀ field ∈ f.args, field.2.Legible

variable {f : SavedFilter}

theorem Plain.depth (h : f.Plain) : f.toJson.depth ≤ 2 := by
  have hargs : Json.fieldsDepth f.args ≤ 0 :=
    Json.fieldsDepth_le fun field hfield => (h.flat field hfield).le
  simp only [toJson, Json.depth, Json.fieldsDepth]
  omega

theorem Plain.legible_toJson (h : f.Plain) : f.toJson.Legible :=
  ⟨trivial, Json.legibleFields_of_forall h.legible, trivial⟩

theorem Plain.reread_toJson (h : f.Plain) : f.toJson.reread = f.reread.value := by
  simp only [toJson, value, Json.reread, Json.rereadFields, h.sorted.rereadFields.ofEntries_eq]
  rfl

end SavedFilter

/-- The saved chain as its text is read. -/
def SavedChain.reread (c : SavedChain) : SavedChain := ⟨c.name, c.filters.map SavedFilter.reread⟩

/-- The text of a saved chain of plain filters is read as its value, but for the numbers. -/
theorem SavedChain.parse?_render {c : SavedChain} (h : ∀ f ∈ c.filters, f.Plain) :
    Json.parse? c.toJson.render = some c.reread.value := by
  have hreread : c.toJson.reread = c.reread.value := by
    have hfilters : Json.rereadItems (c.filters.map SavedFilter.toJson) =
        c.reread.filters.map SavedFilter.value := by
      rw [Json.rereadItems_eq_map, reread, List.map_map, List.map_map]
      exact List.map_congr_left fun f hf => (h f hf).reread_toJson
    simp only [toJson, value, Json.reread, Json.rereadFields, hfilters]
    rfl
  have hlegible : c.toJson.Legible := by
    refine ⟨trivial, Json.legibleItems_of_forall ?_, trivial⟩
    intro item hitem
    obtain ⟨f, hf, rfl⟩ := List.mem_map.mp hitem
    exact (h f hf).legible_toJson
  have hdepth : c.toJson.depth ≤ 4 := by
    have hitems : Json.itemsDepth (c.filters.map SavedFilter.toJson) ≤ 2 := by
      apply Json.itemsDepth_le
      intro item hitem
      obtain ⟨f, hf, rfl⟩ := List.mem_map.mp hitem
      exact (h f hf).depth
    simp only [toJson, Json.depth, Json.fieldsDepth]
    omega
  rw [Json.parse?_render hlegible (hdepth.trans (by decide)), hreread]

/-! ### Saved values -/

/-- A saved value has nothing nested in it. -/
theorem Control.depth_saved (control : Control) (v : ControlValue) :
    (control.saved v).depth = 0 := by
  cases v with
  | color c => rfl
  | number x =>
    unfold saved Json.ofInt Json.ofDouble
    simp only
    split <;> split <;> rfl

/-- Every saved field is of a value of the filter. -/
theorem Filter.exists_of_mem_args {f : Filter} {field : String × Json}
    (h : field ∈ f.saved.args) :
    ∃ p ∈ f.definition.controls.zip f.values, field.2 = p.1.saved p.2 := by
  have hmem := Json.Fields.mem_ofEntries h
  rw [← List.map_uncurry_zip_eq_zipWith] at hmem
  obtain ⟨p, hp, rfl⟩ := List.mem_map.mp hmem
  exact ⟨p, hp, rfl⟩

/-- A filter whose saved values are legible is saved as a plain one. -/
theorem Filter.plain_saved {f : Filter}
    (h : ∀ p ∈ f.definition.controls.zip f.values, (p.1.saved p.2).Legible) : f.saved.Plain := by
  refine ⟨Json.Fields.sorted_ofEntries _, ?_, ?_⟩
  · intro field hfield
    obtain ⟨p, -, hsaved⟩ := exists_of_mem_args hfield
    rw [hsaved]
    exact p.1.depth_saved p.2
  · intro field hfield
    obtain ⟨p, hp, hsaved⟩ := exists_of_mem_args hfield
    rw [hsaved]
    exact h p hp

/-- The text of a chain with legible values is read as the saved chain, but for the numbers. -/
theorem Chain.parse?_legible {c : Chain}
    (h : ∀ f ∈ c.filters, ∀ p ∈ f.definition.controls.zip f.values, (p.1.saved p.2).Legible) :
    Json.parse? c.toJsonText = some c.saved.reread.value := by
  apply SavedChain.parse?_render
  intro f hf
  obtain ⟨g, hg, rfl⟩ := List.mem_map.mp hf
  exact Filter.plain_saved (h g hg)

/-! ### Numbers that are read back -/

/-- The double of a JSON value that is one. -/
def Json.double? : Json → Option Double
  | .number (.real x) => some x
  | _ => none

theorem Binary.toWord64_bounds (x : Double) : -2 ^ 63 ≤ x.toWord64 ∧ x.toWord64 < 2 ^ 63 := by
  unfold toWord64 truncate
  split
  · omega
  · split
    · split <;> omega
    · omega

/-- A number that is read back is legible, and as it was. -/
theorem Json.legible_of_readable {n : JsonNumber} (h : n.Readable) :
    (number n).Legible ∧ (number n).reread = number n := by
  have hreread := JsonNumber.reread_eq h
  refine ⟨h.trans (congrArg some hreread.symm), ?_⟩
  rw [reread, hreread]

/-- Integers of 64 bits are read back. -/
theorem Json.legible_ofInt {k : Int} (hlow : -2 ^ 63 ≤ k) (hhigh : k < 2 ^ 63) :
    (ofInt k).Legible ∧ (ofInt k).reread = ofInt k := by
  unfold ofInt
  split
  · exact legible_of_readable (JsonNumber.readable_negative (by omega))
  · exact legible_of_readable (JsonNumber.readable_natural (by omega))

/-- Of the saved values only doubles may not be read back. -/
theorem Control.legible_saved (control : Control) (v : ControlValue)
    (h : ∀ x ∈ (control.saved v).double?, (JsonNumber.real x).Readable) :
    (control.saved v).Legible ∧ (control.saved v).reread = control.saved v := by
  cases v with
  | color c => exact ⟨trivial, rfl⟩
  | number x =>
    unfold saved at h ⊢
    simp only at h ⊢
    split
    · obtain ⟨hlow, hhigh⟩ := Binary.toWord64_bounds (Display.rounded x control.precision)
      exact Json.legible_ofInt hlow hhigh
    · next hsome =>
      rw [if_neg hsome] at h
      unfold Json.ofDouble at h ⊢
      split
      · next hfinite =>
        rw [if_pos hfinite] at h
        exact Json.legible_of_readable (h _ rfl)
      · exact ⟨trivial, rfl⟩

/-- The doubles that are saved of the filter are read back from their texts. -/
def Filter.ReadableDoubles (f : Filter) : Prop :=
  ∀ p ∈ f.definition.controls.zip f.values, ∀ x ∈ (p.1.saved p.2).double?,
    (JsonNumber.real x).Readable

instance (f : Filter) : Decidable f.ReadableDoubles :=
  inferInstanceAs (Decidable (∀ p ∈ f.definition.controls.zip f.values, ∀ x ∈ _, _))

/-- Saved values that are read as they were are read so in the filter. -/
theorem Filter.reread_saved {f : Filter}
    (h : ∀ p ∈ f.definition.controls.zip f.values, (p.1.saved p.2).reread = p.1.saved p.2) :
    f.saved.reread = f.saved := by
  have hfields : Json.rereadFields f.saved.args = f.saved.args := by
    rw [Json.rereadFields_eq_map]
    refine (List.map_congr_left fun field hfield => ?_).trans (List.map_id _)
    obtain ⟨p, hp, hsaved⟩ := exists_of_mem_args hfield
    rw [hsaved, h p hp, ← hsaved]
    rfl
  exact congrArg (SavedFilter.mk f.saved.id) hfields

/-- **The text of a chain is read as the value of the saved chain** if the doubles in it are read
back. Its name may be any text. -/
theorem Chain.parse?_toJsonText {c : Chain} (h : ∀ f ∈ c.filters, f.ReadableDoubles) :
    Json.parse? c.toJsonText = some c.saved.value := by
  have hreread : c.saved.reread = c.saved := by
    refine congrArg (SavedChain.mk c.name) ?_
    show (c.filters.map Filter.saved).map SavedFilter.reread = c.filters.map Filter.saved
    rw [List.map_map]
    refine List.map_congr_left fun f hf => ?_
    exact Filter.reread_saved fun p hp => (p.1.legible_saved p.2 (h f hf p hp)).2
  rw [parse?_legible fun f hf p hp => (p.1.legible_saved p.2 (h f hf p hp)).1, hreread]

end ColorChain
