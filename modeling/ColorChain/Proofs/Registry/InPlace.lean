import ColorChain.Proofs.Registry
import ColorChain.Registry.InPlace

/-! Working on a shelf amounts to registering.

A registry is laid out on a shelf by putting its definitions into the table in their order
(`Registry.shelf`). Its definitions have ids of their own, so none hides another and all look-ups
give the same on the shelf. A step on the shelf of a registry leaves the shelf of the registry after
the step (`perform_eq`), and so does a history (`history_eq`). -/
namespace ColorChain

/-! ### Tables -/

/-- Definitions that are put into a table one after the other. -/
def DefinitionTable.fill (t : DefinitionTable) (ds : List Definition) : DefinitionTable :=
  ds.foldl (fun t d => t.insert d.id d) t

theorem DefinitionTable.get?_fill {ds : List Definition} (hds : (ds.map Definition.id).Nodup)
    (t : DefinitionTable) (id : String) :
    (t.fill ds).get? id = (ds.find? fun d => d.id == id).or (t.get? id) := by
  induction ds generalizing t with
  | nil => rfl
  | cons d rest ih =>
    rw [List.map_cons, List.nodup_cons] at hds
    obtain ⟨hfresh, hrest⟩ := hds
    have hfill : (t.fill (d :: rest)).get? id = _ := ih hrest (t.insert d.id d)
    rw [hfill, get?_insert]
    by_cases hid : id = d.id
    · -- No definition behind this one has its id.
      have hnone : rest.find? (fun e => e.id == id) = none := by
        rw [List.find?_eq_none]
        intro e he heq
        rw [beq_iff_eq, hid] at heq
        exact hfresh (List.mem_map.mpr ⟨e, he, heq⟩)
      rw [hnone, if_pos hid, List.find?_cons_of_pos (by simp [hid])]
      rfl
    · rw [if_neg hid, List.find?_cons_of_neg (by simpa using Ne.symm hid)]

namespace Registry

/-- The registry laid out on a shelf. -/
def shelf (r : Registry) : Shelf where
  table := DefinitionTable.empty.fill r.definitions
  ids := r.ids
  menuOrder := r.menuOrder

variable (r : Registry)

/-! ### Looking up -/

theorem get?_shelf (id : String) : r.shelf.get? id = r.get? id := by
  show (DefinitionTable.empty.fill r.definitions).get? id = _
  rw [DefinitionTable.get?_fill r.distinct]
  exact Option.or_none

theorem contains_shelf (id : String) : r.shelf.contains id = r.contains id := by
  rw [Shelf.contains, get?_shelf, contains, List.contains_eq_mem, Bool.eq_iff_iff,
    isSome_get?_iff, decide_eq_true_eq]

theorem menu_shelf : r.shelf.menu = r.menu := by
  have hget : r.shelf.get? = r.get? := funext r.get?_shelf
  rw [Shelf.menu, hget]
  rfl

theorem menuReport_shelf : r.shelf.menuReport = r.menuReport := by
  have hcontains : r.shelf.contains = r.contains := funext r.contains_shelf
  rw [Shelf.menuReport, hcontains]
  rfl

/-! ### Steps -/

/-- What a registration amounts to on a shelf: the shelf of the new registry, or an error and the
shelf as it was. -/
theorem register_eq (d : Definition) :
    (Shelving.register d).run r.shelf = match r.register d with
      | .ok r' => .ok () r'.shelf
      | .error e => .error e r.shelf := by
  unfold Shelving.register
  cases hfault : d.fault? with
  | some fault =>
    rw [register_of_fault hfault]
    rfl
  | none =>
    simp only [EStateM.run_bind, EStateM.run_get, contains_shelf, contains, List.contains_eq_mem]
    by_cases hid : d.id ∈ r.ids
    · rw [register_of_taken hfault hid, decide_eq_true hid]
      rfl
    · obtain ⟨r', hregister, hdefinitions, hmenu⟩ := register_of_free hfault hid
      have hshelf : r'.shelf =
          ⟨r.shelf.table.insert d.id d, r.shelf.ids ++ [d.id], r.shelf.menuOrder⟩ := by
        simp only [shelf, ids, hdefinitions, hmenu, DefinitionTable.fill, List.foldl_append,
          List.foldl_cons, List.foldl_nil, List.map_append, List.map_cons, List.map_nil]
      rw [hregister, decide_eq_false hid]
      show _ = EStateM.Result.ok () r'.shelf
      rw [hshelf]
      rfl

theorem perform_register (d : Definition) :
    (Shelving.perform (.register d)).run r.shelf = match r.register d with
      | .ok r' => .ok .registered r'.shelf
      | .error e => .error e r.shelf := by
  unfold Shelving.perform
  rw [EStateM.run_bind, register_eq]
  cases r.register d with
  | ok r' => rfl
  | error e => rfl

/-- A refused registration has written nothing. -/
theorem perform_register_eq_error {d : Definition} {e : RegistryError} {s : Shelf} :
    (Shelving.perform (.register d)).run r.shelf = .error e s ↔
      s = r.shelf ∧ r.register d = .error e := by
  rw [perform_register]
  cases r.register d with
  | ok r' => simp
  | error e' => simp [eq_comm, and_comm]

theorem perform_setMenu (ids : List String) :
    (Shelving.perform (.setMenu ids)).run r.shelf =
      .ok (.menu (r.setMenu ids).shelf.menuReport) (r.setMenu ids).shelf := rfl

/-- **A step on the shelf is the step.** -/
theorem after_shelf (e : Step) : r.shelf.after e = (r.step e).shelf := by
  cases e with
  | setMenu ids => rfl
  | register d =>
    show _ = (r.offer d).shelf
    unfold Shelf.after offer
    rw [perform_register]
    cases r.register d with
    | ok r' => rfl
    | error e => rfl

theorem history_shelf (es : List Step) : r.shelf.history es = (r.run es).shelf := by
  induction es generalizing r with
  | nil => rfl
  | cons e rest ih => rw [Shelf.history, after_shelf, ih, run]

end Registry
end ColorChain
