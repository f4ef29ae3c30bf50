import ColorChain.Registry
import Mathlib.Data.List.Nodup

/-! What a look-up in a registry gives.

A registry holds its definitions under ids of their own, each of them without a fault, so
looking an id up and holding a definition come to the same thing. A row of them is registered one by
one, and every look-up may fail, so what is known of a computation that went well comes first. -/
namespace ColorChain

/-! ### Computations that may fail -/

namespace Outcome

/-- A computation of two parts succeeds when both do, the second on what the first gave. -/
theorem bind_eq_ok {ε α β : Type} {x : Except ε α} {f : α → Except ε β} {b : β} :
    x >>= f = .ok b ↔ ∃ a, x = .ok a ∧ f a = .ok b := by
  cases x <;> simp [bind, Except.bind]

theorem bind_eq_error {ε α β : Type} {x : Except ε α} {f : α → Except ε β} {e : ε} :
    x >>= f = .error e ↔ x = .error e ∨ ∃ a, x = .ok a ∧ f a = .error e := by
  cases x <;> simp [bind, Except.bind]

theorem map_mapError_eq_ok {ε ε' α β : Type} {x : Except ε α} {wrap : ε → ε'}
    {f : α → β} {b : β} (h : (x.mapError wrap).map f = .ok b) : ∃ a, x = .ok a ∧ f a = b := by
  cases x with
  | error e => cases h
  | ok a => exact ⟨a, rfl, Except.ok.inj h⟩

end Outcome

/-! ### Look-ups -/

namespace Registry

variable {r : Registry} {id : String} {d : Definition}

theorem id_of_get? (h : r.get? id = some d) : d.id = id := by
  have := List.find?_some h
  simpa using this

theorem mem_of_get? (h : r.get? id = some d) : d ∈ r.definitions :=
  List.mem_of_find?_eq_some h

/-- A definition found under some id is found under its own. -/
theorem get?_id (h : r.get? id = some d) : r.get? d.id = some d := by
  rw [id_of_get? h]
  exact h

/-- The ids are those that a definition is found under. -/
theorem isSome_get?_iff : (r.get? id).isSome ↔ id ∈ r.ids := by
  rw [get?, List.find?_isSome, ids, List.mem_map]
  simp only [beq_iff_eq]

/-- A definition of the registry is the one found under its id. -/
theorem get?_of_mem (h : d ∈ r.definitions) : r.get? d.id = some d := by
  obtain ⟨e, he⟩ : ∃ e, r.get? d.id = some e := by
    apply Option.isSome_iff_exists.mp
    unfold get?
    rw [List.find?_isSome]
    exact ⟨d, h, by simp⟩
  have hid := id_of_get? he
  rw [he, List.inj_on_of_nodup_map r.distinct (mem_of_get? he) h hid]

/-! ### Registering -/

/-- A definition with a fault is refused, whatever its id. -/
theorem register_of_fault {fault : DefinitionFault} (h : d.fault? = some fault) :
    r.register d = .error (.invalidDefinition d.id fault) := by
  unfold register
  split
  · next fault' hfault =>
    rw [h, Option.some.injEq] at hfault
    rw [hfault]
  · next hfault =>
    rw [h] at hfault
    cases hfault

/-- A definition whose id is taken is refused. -/
theorem register_of_taken (hvalid : d.fault? = none) (htaken : d.id ∈ r.ids) :
    r.register d = .error (.duplicate d.id) := by
  unfold register
  split
  · next hfault =>
    rw [hvalid] at hfault
    cases hfault
  · rw [dif_pos htaken]

/-- A definition without a fault and under a free id is registered behind the others. -/
theorem register_of_free (hvalid : d.fault? = none) (hfree : d.id ∉ r.ids) :
    ∃ r', r.register d = .ok r' ∧ r'.definitions = r.definitions ++ [d] ∧
      r'.menuOrder = r.menuOrder := by
  unfold register
  split
  · next hfault =>
    rw [hvalid] at hfault
    cases hfault
  · rw [dif_neg hfree]
    exact ⟨_, rfl, rfl, rfl⟩

/-- A definition is refused for its first fault or for its id, and for nothing else. -/
theorem register_eq_error {e : RegistryError} :
    r.register d = .error e ↔ (∃ fault, d.fault? = some fault ∧ e = .invalidDefinition d.id fault) ∨
      d.fault? = none ∧ d.id ∈ r.ids ∧ e = .duplicate d.id := by
  cases hfault : d.fault? with
  | some fault =>
    rw [register_of_fault hfault]
    simp [eq_comm]
  | none =>
    by_cases hid : d.id ∈ r.ids
    · rw [register_of_taken hfault hid]
      simp [hid, eq_comm]
    · obtain ⟨r', hregister, -⟩ := register_of_free hfault hid
      rw [hregister]
      simp [hid]

/-- A definition that nothing speaks against is offered with success. -/
theorem definitions_offer (hvalid : d.fault? = none) (hfree : d.id ∉ r.ids) :
    (r.offer d).definitions = r.definitions ++ [d] := by
  obtain ⟨r', hregister, hdefinitions, -⟩ := register_of_free hvalid hfree
  rw [offer, hregister]
  exact hdefinitions

/-- Registries with the same definitions and the same menu are one registry. -/
theorem ext {r r' : Registry} (hdefinitions : r.definitions = r'.definitions)
    (hmenu : r.menuOrder = r'.menuOrder) : r = r' := by
  cases r
  cases r'
  cases hdefinitions
  cases hmenu
  rfl

/-- Definitions that nothing speaks against are all registered, behind the others in order. -/
theorem foldlM_register {ds : List Definition} (hvalid : ∀ d ∈ ds, d.fault? = none)
    (hfree : (r.ids ++ ds.map Definition.id).Nodup) :
    ∃ r', ds.foldlM register r = .ok r' ∧ r'.definitions = r.definitions ++ ds ∧
      r'.menuOrder = r.menuOrder := by
  induction ds generalizing r with
  | nil => exact ⟨r, rfl, (List.append_nil _).symm, rfl⟩
  | cons d rest ih =>
    obtain ⟨hd, hrest⟩ := List.forall_mem_cons.mp hvalid
    have hid : d.id ∉ r.ids := fun hid => by
      rw [List.nodup_append] at hfree
      exact hfree.2.2 d.id hid d.id (List.mem_cons_self ..) rfl
    obtain ⟨r₁, hregister, hdefinitions, hmenu⟩ := register_of_free hd hid
    have hfree₁ : (r₁.ids ++ rest.map Definition.id).Nodup := by
      rw [ids, hdefinitions, List.map_append, List.append_assoc]
      exact hfree
    obtain ⟨r', hfold, hdefinitions', hmenu'⟩ := ih hrest hfree₁
    refine ⟨r', ?_, ?_, hmenu'.trans hmenu⟩
    · rw [List.foldlM_cons, hregister]
      exact hfold
    · rw [hdefinitions', hdefinitions, List.append_assoc]
      rfl

/-- Where all definitions are registered, none is left out. -/
theorem registerAll_of_foldlM {r' : Registry} {ds : List Definition}
    (h : ds.foldlM register r = .ok r') : r.registerAll ds = r' := by
  induction ds generalizing r with
  | nil =>
    cases h
    rfl
  | cons d rest ih =>
    rw [List.foldlM_cons] at h
    cases hregister : r.register d with
    | error e =>
      rw [hregister] at h
      cases h
    | ok r₁ =>
      rw [hregister] at h
      rw [registerAll, List.foldl_cons, offer, hregister]
      exact ih h

/-! ### Menus -/

/-- The menu shows its registered entries, as often as they are in it. -/
theorem map_id_menu (r : Registry) :
    r.menu.map Definition.id = r.menuOrder.filter fun id => id ∈ r.ids := by
  unfold menu
  generalize r.menuOrder = entries
  induction entries with
  | nil => rfl
  | cons id rest ih =>
    cases hget : r.get? id with
    | none =>
      have hid : id ∉ r.ids := fun h => by simpa [hget] using isSome_get?_iff.mpr h
      rw [List.filterMap_cons_none hget, List.filter_cons_of_neg (by simpa using hid), ih]
    | some d =>
      have hid : id ∈ r.ids := isSome_get?_iff.mp (by rw [hget]; rfl)
      rw [List.filterMap_cons_some hget, List.filter_cons_of_pos (by simpa using hid),
        List.map_cons, ih, id_of_get? hget]

theorem unlisted_menuReport (r : Registry) :
    r.menuReport.unlisted = r.ids.filter fun id => id ∉ r.menuOrder := by
  simp [menuReport]

theorem unknown_menuReport (r : Registry) :
    r.menuReport.unknown = r.menuOrder.filter fun id => id ∉ r.ids := by
  simp [menuReport, contains]

/-- A report is clean when menu and registry name the same ids. -/
theorem isClean_menuReport (r : Registry) :
    r.menuReport.isClean = true ↔ ∀ id, id ∈ r.menuOrder ↔ id ∈ r.ids := by
  rw [MenuReport.isClean, Bool.and_eq_true, List.isEmpty_iff, List.isEmpty_iff,
    unlisted_menuReport, unknown_menuReport, List.filter_eq_nil_iff, List.filter_eq_nil_iff]
  simp only [decide_not, Bool.not_eq_true, Bool.not_eq_false', decide_eq_true_eq]
  constructor
  · rintro ⟨hlisted, hknown⟩ id
    exact ⟨hknown id, hlisted id⟩
  · intro hsame
    exact ⟨fun id => (hsame id).mpr, fun id => (hsame id).mp⟩

end Registry

namespace Definition

variable {d : Definition}

theorem goodId_of_fault? (h : d.fault? = none) : goodId d.id = true := by
  unfold fault? at h
  cases hid : goodId d.id
  · simp [hid] at h
  · rfl

theorem controlFault?_of_fault? (h : d.fault? = none) : controlFault? [] d.controls = none := by
  have hid := goodId_of_fault? h
  cases hc : controlFault? [] d.controls with
  | none => rfl
  | some fault => simp [fault?, hid, hc] at h

theorem length_vectorize_defaults (h : d.fault? = none) :
    (d.vectorize d.defaults).length = d.slotCount := by
  have hid := goodId_of_fault? h
  have hc := controlFault?_of_fault? h
  by_contra hne
  simp [fault?, hid, hc, hne] at h

/-- A template refers to as many slots as its definition declares, and a word counts them. -/
theorem referenced_template (h : d.fault? = none) :
    referenced d.template = d.slotCount ∧ d.slotCount < 2 ^ (64 : Nat) := by
  have hid := goodId_of_fault? h
  have hc := controlFault?_of_fault? h
  have hp := length_vectorize_defaults h
  by_cases hword : 2 ^ (64 : Nat) ≤ referenced d.template
  · simp [fault?, hid, hc, hp, hword] at h
  · by_cases hne : referenced d.template = d.slotCount
    · exact ⟨hne, hne ▸ Nat.not_le.mp hword⟩
    · simp [fault?, hid, hc, hp, hword, hne] at h

theorem le_foldl_countTo (indexes : List Nat) (n : Nat) :
    n ≤ indexes.foldl (fun n i => max n (i + 1)) n := by
  induction indexes generalizing n with
  | nil => exact Nat.le_refl n
  | cons i rest ih => exact Nat.le_trans (Nat.le_max_left ..) (ih _)

/-- The count passes every number in the list. -/
theorem lt_countTo {indexes : List Nat} {i : Nat} (h : i ∈ indexes) : i < countTo indexes := by
  obtain ⟨before, after, rfl⟩ := List.append_of_mem h
  rw [countTo, List.foldl_append, List.foldl_cons]
  exact Nat.le_trans (Nat.le_max_right ..) (le_foldl_countTo after _)

/-- The slot numbers that a valid definition's template spells are those of its slots. -/
theorem slot_lt (h : d.fault? = none) {n : Nat} (hn : n ∈ Template.slots d.template) :
    n < d.slotCount := by
  have hlt := lt_countTo hn
  rwa [← referenced, (referenced_template h).1] at hlt

theorem foldl_countTo_cases (indexes : List Nat) (k : Nat) :
    indexes.foldl (fun n i => max n (i + 1)) k = k ∨
      ∃ n ∈ indexes, indexes.foldl (fun n i => max n (i + 1)) k = n + 1 := by
  induction indexes generalizing k with
  | nil => exact .inl rfl
  | cons i rest ih =>
    rw [List.foldl_cons]
    rcases ih (max k (i + 1)) with h | ⟨n, hn, h⟩
    · rw [h]
      rcases Nat.le_total k (i + 1) with hle | hle
      · exact .inr ⟨i, List.mem_cons_self .., Nat.max_eq_right hle⟩
      · exact .inl (Nat.max_eq_left hle)
    · exact .inr ⟨n, List.mem_cons_of_mem _ hn, h⟩

/-- A list with a zero in it counts to one just if it holds nothing else. -/
theorem countTo_eq_one {indexes : List Nat} (h : 0 ∈ indexes) :
    countTo indexes = 1 ↔ ∀ n ∈ indexes, n = 0 := by
  constructor
  · intro hone n hn
    have hlt := lt_countTo hn
    omega
  · intro hzero
    have hpos := lt_countTo h
    rcases foldl_countTo_cases indexes 0 with hnone | ⟨n, hn, hcount⟩
    · rw [countTo, hnone] at hpos
      exact absurd hpos (Nat.lt_irrefl 0)
    · rw [countTo, hcount, hzero n hn]

/-- Controls without a fault have ids of their own, none of them seen before. -/
theorem nodup_of_controlFault? {seen : List String} {controls : List Control}
    (h : controlFault? seen controls = none) :
    (controls.map Control.id).Nodup ∧ ∀ c ∈ controls, c.id ∉ seen := by
  induction controls generalizing seen with
  | nil => simp
  | cons c rest ih =>
    unfold controlFault? at h
    split at h
    · cases h
    · rename_i hseen
      split at h
      · cases h
      · obtain ⟨hnodup, hfresh⟩ := ih h
        rw [List.contains_eq_mem, decide_eq_true_eq] at hseen
        refine ⟨?_, ?_⟩
        · rw [List.map_cons, List.nodup_cons]
          refine ⟨fun hmem => ?_, hnodup⟩
          obtain ⟨c', hc', hid⟩ := List.mem_map.mp hmem
          exact hfresh c' hc' (by rw [hid]; exact List.mem_cons_self ..)
        · intro c' hc'
          rcases List.mem_cons.mp hc' with rfl | hc'
          · exact hseen
          · exact fun hmem => hfresh c' hc' (List.mem_cons_of_mem _ hmem)

/-- No range of controls without a fault has its greatest value below its least. -/
theorem ordered_of_controlFault? {seen : List String} {controls : List Control}
    (h : controlFault? seen controls = none) :
    ∀ c ∈ controls, ∀ range, c.range? = some range → range.max.lt range.min = false := by
  induction controls generalizing seen with
  | nil => simp
  | cons c rest ih =>
    unfold controlFault? at h
    split at h
    · cases h
    · split at h
      · cases h
      · rename_i hrange
        refine List.forall_mem_cons.mpr ⟨fun range hc => ?_, ih h⟩
        simpa [hc] using hrange

theorem nodup_controls (h : d.fault? = none) : (d.controls.map Control.id).Nodup :=
  (nodup_of_controlFault? (controlFault?_of_fault? h)).1

theorem ordered_controls (h : d.fault? = none) :
    ∀ c ∈ d.controls, ∀ range, c.range? = some range → range.max.lt range.min = false :=
  ordered_of_controlFault? (controlFault?_of_fault? h)

end Definition
end ColorChain
