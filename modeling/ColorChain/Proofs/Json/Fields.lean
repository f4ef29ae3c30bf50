import ColorChain.Json.Basic
import Mathlib.Data.List.Nodup

/-! The fields of an object.

A look-up does not see the order of the fields: it gives what was put last under the key. The
fields are kept where the keys are sorted, and sorted fields are left as they are. -/
namespace ColorChain.Json.Fields

theorem get?_cons (field : String × Json) (fields : Fields) (k : String) :
    get? (field :: fields) k = if k = field.1 then some field.2 else get? fields k := by
  unfold get?
  rw [List.lookup_cons]
  by_cases h : k = field.1
  · rw [if_pos h, beq_iff_eq.mpr h]
  · rw [if_neg h, beq_eq_false_iff_ne.mpr h]

theorem get?_put (key : String) (value : Json) (fields : Fields) (k : String) :
    (put key value fields).get? k = if k = key then some value else fields.get? k := by
  induction fields with
  | nil => exact get?_cons _ _ k
  | cons field rest ih =>
    obtain ⟨key', value'⟩ := field
    unfold put
    split
    · exact get?_cons _ _ k
    · split
      · next heq =>
        subst heq
        rw [get?_cons, get?_cons]
        by_cases hk : k = key <;> simp [hk]
      · next hne =>
        rw [get?_cons, get?_cons, ih]
        by_cases hk : k = key'
        · have hkey : k ≠ key := fun h => hne (h.symm.trans hk)
          rw [if_neg hkey, if_neg hkey]
        · simp [hk]

variable {entries : List (String × Json)} {fields : Fields} {k : String} {v : Json}

/-- Entries under other keys do not change a look-up. -/
theorem get?_foldl_of_notMem (h : k ∉ entries.map Prod.fst) :
    (entries.foldl (fun fields (key, value) => fields.put key value) fields).get? k =
      fields.get? k := by
  induction entries generalizing fields with
  | nil => rfl
  | cons entry rest ih =>
    rw [List.map_cons, List.mem_cons, not_or] at h
    rw [List.foldl_cons, ih h.2, get?_put, if_neg h.1]

theorem get?_foldl_of_mem (h : (entries.map Prod.fst).Nodup) (hmem : (k, v) ∈ entries) :
    (entries.foldl (fun fields (key, value) => fields.put key value) fields).get? k = some v := by
  induction entries generalizing fields with
  | nil => cases hmem
  | cons entry rest ih =>
    rw [List.map_cons, List.nodup_cons] at h
    rw [List.foldl_cons]
    rcases List.mem_cons.mp hmem with rfl | hmem
    · rw [get?_foldl_of_notMem h.1, get?_put, if_pos rfl]
    · exact ih h.2 hmem

/-- Every entry is found if no two have one key. -/
theorem get?_ofEntries (h : (entries.map Prod.fst).Nodup) (hmem : (k, v) ∈ entries) :
    (ofEntries entries).get? k = some v :=
  get?_foldl_of_mem h hmem

/-! ### Order -/

/-- The keys are sorted, each once. -/
def Sorted (fields : Fields) : Prop := fields.Pairwise fun a b => a.1 < b.1

theorem lt_of_not_lt {a b : String} (h : ¬ a < b) (hne : a ≠ b) : b < a := by
  by_contra hba
  exact hne (String.le_antisymm (String.not_lt.mp hba) (String.not_lt.mp h))

theorem mem_put {key : String} {value : Json} {fields : Fields} {field : String × Json}
    (h : field ∈ fields.put key value) : field = (key, value) ∨ field ∈ fields := by
  induction fields with
  | nil => exact .inl (List.mem_singleton.mp h)
  | cons first rest ih =>
    unfold put at h
    split at h
    · exact List.mem_cons.mp h
    · split at h
      · exact (List.mem_cons.mp h).imp_right (List.mem_cons_of_mem _)
      · rcases List.mem_cons.mp h with rfl | h
        · exact .inr List.mem_cons_self
        · exact (ih h).imp_right (List.mem_cons_of_mem _)

theorem mem_foldl_put {entries : List (String × Json)} {fields : Fields} {field : String × Json}
    (h : field ∈ entries.foldl (fun fields (key, value) => fields.put key value) fields) :
    field ∈ fields ∨ field ∈ entries := by
  induction entries generalizing fields with
  | nil => exact .inl h
  | cons entry rest ih =>
    rcases ih h with h | h
    · exact (mem_put h).elim (fun h => .inr (h ▸ List.mem_cons_self)) .inl
    · exact .inr (List.mem_cons_of_mem _ h)

/-- Every field was one of the entries. -/
theorem mem_ofEntries {entries : List (String × Json)} {field : String × Json}
    (h : field ∈ ofEntries entries) : field ∈ entries :=
  (mem_foldl_put h).resolve_left List.not_mem_nil

theorem Sorted.put {fields : Fields} (h : Sorted fields) (key : String) (value : Json) :
    Sorted (fields.put key value) := by
  induction fields with
  | nil => exact List.pairwise_singleton _ _
  | cons first rest ih =>
    obtain ⟨hfirst, hrest⟩ := List.pairwise_cons.mp h
    unfold Fields.put
    split
    · next hlt =>
      refine List.pairwise_cons.mpr ⟨?_, h⟩
      intro field hfield
      rcases List.mem_cons.mp hfield with rfl | hfield
      · exact hlt
      · exact String.lt_trans hlt (hfirst field hfield)
    · next hge =>
      split
      · next heq =>
        subst heq
        exact List.pairwise_cons.mpr ⟨hfirst, hrest⟩
      · next hne =>
        refine List.pairwise_cons.mpr ⟨?_, ih hrest⟩
        intro field hfield
        rcases mem_put hfield with rfl | hfield
        · exact lt_of_not_lt hge hne
        · exact hfirst field hfield

theorem sorted_ofEntries (entries : List (String × Json)) : Sorted (ofEntries entries) := by
  have hfold (fields : Fields) (h : Sorted fields) :
      Sorted (entries.foldl (fun fields (key, value) => fields.put key value) fields) := by
    induction entries generalizing fields with
    | nil => exact h
    | cons entry rest ih => exact ih _ (h.put _ _)
  exact hfold [] .nil

/-- A key behind all others is put at the end. -/
theorem put_of_last {key : String} {value : Json} {fields : Fields}
    (h : ∀ field ∈ fields, field.1 < key) : fields.put key value = fields ++ [(key, value)] := by
  induction fields with
  | nil => rfl
  | cons first rest ih =>
    obtain ⟨hfirst, hrest⟩ := List.forall_mem_cons.mp h
    unfold put
    rw [if_neg (String.lt_asymm hfirst), if_neg, ih hrest, List.cons_append]
    intro heq
    exact String.lt_irrefl _ (heq ▸ hfirst)

theorem Sorted.foldl_put {fields rest : Fields} (h : Sorted (fields ++ rest)) :
    rest.foldl (fun fields (key, value) => fields.put key value) fields = fields ++ rest := by
  induction rest generalizing fields with
  | nil => simp
  | cons entry rest ih =>
    obtain ⟨key, value⟩ := entry
    have hlast : ∀ field ∈ fields, field.1 < key :=
      fun field hfield => (List.pairwise_append.mp h).2.2 field hfield _ List.mem_cons_self
    simp only [List.foldl_cons, put_of_last hlast]
    rw [ih (by simpa using h), List.append_assoc, List.singleton_append]

/-- Sorted fields are the fields with themselves as entries. -/
theorem Sorted.ofEntries_eq {fields : Fields} (h : Sorted fields) : ofEntries fields = fields :=
  @foldl_put [] fields h

end ColorChain.Json.Fields
