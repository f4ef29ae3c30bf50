import ColorChain.Proofs.Program.Shading

/-! Where the slots of a row of ids lie.

A row of registered ids has one run of slots for each id, as long as its definition says, and
the runs follow one another without a gap: the run of a filter starts at the number of slots
needed by the filters before it (`getElem?_runs`), and the runs side by side are the slots of
the layout in order (`flatMap_indexes`). -/
namespace ColorChain

namespace Registry

/-- The number of slots that a row of ids needs. An id that is not registered needs none. -/
def slotsNeeded (r : Registry) (ids : List String) : Nat :=
  (ids.map fun id => ((r.get? id).map Definition.slotCount).getD 0).sum

variable {r : Registry} {ids : List String}

/-! ### Resolving ids -/

/-- Registered ids resolve to their definitions, one by one. -/
theorem resolve_eq_ok {ds : List Definition} :
    r.resolve ids = .ok ds ↔ List.Forall₂ (fun id d => r.get? id = some d) ids ds := by
  induction ids generalizing ds with
  | nil =>
    rw [resolve, List.forall₂_nil_left_iff, Except.ok.injEq, eq_comm]
  | cons id rest ih =>
    rw [resolve, List.forall₂_cons_left_iff]
    cases hd : r.get? id with
    | none => simp
    | some d =>
      dsimp only
      rw [Outcome.bind_eq_ok]
      constructor
      · rintro ⟨ds', hrest, hds⟩
        cases hds
        exact ⟨d, ds', rfl, ih.mp hrest, rfl⟩
      · rintro ⟨d', ds', hd', hrest, rfl⟩
        cases hd'
        exact ⟨ds', ih.mpr hrest, rfl⟩

/-- A row whose ids are all registered has definitions. -/
theorem exists_resolve (h : ∀ id ∈ ids, (r.get? id).isSome) : ∃ ds, r.resolve ids = .ok ds := by
  induction ids with
  | nil => exact ⟨[], rfl⟩
  | cons id rest ih =>
    obtain ⟨hid, hrest⟩ := List.forall_mem_cons.mp h
    obtain ⟨d, hd⟩ := Option.isSome_iff_exists.mp hid
    obtain ⟨ds, hds⟩ := ih hrest
    exact ⟨d :: ds, resolve_eq_ok.mpr (.cons hd (resolve_eq_ok.mp hds))⟩

/-- The first id without a definition is the one that is reported. -/
theorem resolve_unknown {before after : List String} {id : String}
    (hbefore : ∀ x ∈ before, (r.get? x).isSome) (hid : r.get? id = none) :
    r.resolve (before ++ id :: after) = .error (.unknownFilter id) := by
  induction before with
  | nil => rw [List.nil_append, resolve, hid]
  | cons x rest ih =>
    obtain ⟨hx, hrest⟩ := List.forall_mem_cons.mp hbefore
    obtain ⟨d, hd⟩ := Option.isSome_iff_exists.mp hx
    rw [List.cons_append, resolve, hd]
    dsimp only
    rw [Outcome.bind_eq_error]
    exact .inl (ih hrest)

/-- Only an id that is not known keeps a row from resolving. -/
theorem resolve_eq_error {e : ProgramError} (h : r.resolve ids = .error e) :
    ∃ id ∈ ids, r.get? id = none ∧ e = .unknownFilter id := by
  induction ids with
  | nil => cases h
  | cons id rest ih =>
    rw [resolve] at h
    cases hd : r.get? id with
    | none =>
      rw [hd] at h
      cases h
      exact ⟨id, List.mem_cons_self, hd, rfl⟩
    | some d =>
      rw [hd] at h
      rcases Outcome.bind_eq_error.mp h with h | ⟨ds, -, h⟩
      · obtain ⟨x, hx, hnone, he⟩ := ih h
        exact ⟨x, List.mem_cons_of_mem _ hx, hnone, he⟩
      · cases h

/-- The definition at a position is that of the id there. -/
theorem getElem?_of_resolve {ds : List Definition} (h : r.resolve ids = .ok ds) (i : Nat) :
    ds[i]? = ids[i]?.bind r.get? := by
  have hds := resolve_eq_ok.mp h
  clear h
  induction hds generalizing i with
  | nil => rfl
  | cons hd _ ih =>
    cases i with
    | zero => exact hd.symm
    | succ i => exact ih i

theorem slotsNeeded_eq {ds : List Definition} (h : r.resolve ids = .ok ds) :
    r.slotsNeeded ids = (ds.map Definition.slotCount).sum := by
  have hds := resolve_eq_ok.mp h
  clear h
  unfold slotsNeeded
  induction hds with
  | nil => rfl
  | cons hd _ ih =>
    rw [List.map_cons, List.map_cons, List.sum_cons, List.sum_cons, ih, hd]
    rfl

/-- The front of a row resolves to the front of its definitions. -/
theorem resolve_take {ds : List Definition} (h : r.resolve ids = .ok ds) (n : Nat) :
    r.resolve (ids.take n) = .ok (ds.take n) :=
  resolve_eq_ok.mpr (List.forall₂_take n (resolve_eq_ok.mp h))

end Registry

/-! ### Runs -/

namespace Layout

/-- A run starts where the slots of the definitions before it end. -/
theorem getElem?_runs (base : Nat) (ds : List Definition) (i : Nat) :
    (runs base ds)[i]? = ds[i]?.map fun d =>
      ⟨d.id, base + ((ds.take i).map Definition.slotCount).sum, d.slotCount⟩ := by
  induction ds generalizing base i with
  | nil => rfl
  | cons d rest ih =>
    cases i with
    | zero => rfl
    | succ i =>
      rw [runs, List.getElem?_cons_succ, List.getElem?_cons_succ, ih, List.take_succ_cons,
        List.map_cons, List.sum_cons, Nat.add_assoc]

/-- Runs side by side are one run. -/
theorem flatMap_indexes_runs (base : Nat) (ds : List Definition) :
    (runs base ds).flatMap FilterSlots.indexes =
      List.range' base (ds.map Definition.slotCount).sum := by
  induction ds generalizing base with
  | nil => rfl
  | cons d rest ih =>
    rw [runs, List.flatMap_cons, ih, List.map_cons, List.sum_cons, FilterSlots.indexes]
    exact List.range'_append_1

theorem slotCount_ofDefinitions (ds : List Definition) :
    (ofDefinitions ds).slotCount = (ds.map Definition.slotCount).sum := by
  rw [slotCount, ofDefinitions, counts_runs]

/-- The runs of a layout are its slots in order, none of them twice. -/
theorem flatMap_indexes (ds : List Definition) :
    (ofDefinitions ds).filters.flatMap FilterSlots.indexes =
      List.range (ofDefinitions ds).slotCount := by
  rw [slotCount_ofDefinitions, List.range_eq_range']
  exact flatMap_indexes_runs 0 ds

end Layout
end ColorChain
