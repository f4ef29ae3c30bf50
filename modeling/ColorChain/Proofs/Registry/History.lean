import ColorChain.Proofs.Registry.InPlace
import Mathlib.Data.List.Induction

/-! What a history leaves on a shelf.

Of the definitions that a history offers only those that keep the slot contract count, and of these
the first under each id is registered and stays (`get?_run`, `ids_run`). The menu is the one put up
last, whatever was registered before or after it. From these three facts everything that can be
looked up on the shelf follows: `shelf_orderly`. -/
namespace ColorChain

namespace Registry

/-! ### Histories -/

/-- The definition that a step offers. -/
def Step.offered? : Step → Option Definition
  | .register d => some d
  | .setMenu _ => none

/-- The menu that a step puts up. -/
def Step.menu? : Step → Option (List String)
  | .register _ => none
  | .setMenu ids => some ids

/-- The offered definitions that keep the slot contract, in the order of the history. -/
def contracted (es : List Step) : List Definition :=
  (es.filterMap Step.offered?).filter fun d => d.fault?.isNone

/-- The menu that was put up last; there is none at first. -/
def lastMenu (es : List Step) : List String := (es.filterMap Step.menu?).getLast?.getD []

theorem run_concat (r : Registry) (es : List Step) (e : Step) :
    r.run (es ++ [e]) = (r.run es).step e := by
  induction es generalizing r with
  | nil => rfl
  | cons e' rest ih => exact ih (r.step e')

theorem contracted_append (es es' : List Step) :
    contracted (es ++ es') = contracted es ++ contracted es' := by
  rw [contracted, List.filterMap_append, List.filter_append]
  rfl

theorem contracted_setMenu (ids : List String) : contracted [.setMenu ids] = [] := rfl

theorem contracted_of_fault {d : Definition} {fault : DefinitionFault}
    (h : d.fault? = some fault) : contracted [.register d] = [] := by
  simp [contracted, Step.offered?, h]

theorem contracted_of_valid {d : Definition} (h : d.fault? = none) :
    contracted [.register d] = [d] := by
  simp [contracted, Step.offered?, h]

theorem lastMenu_register (es : List Step) (d : Definition) :
    lastMenu (es ++ [.register d]) = lastMenu es := by
  simp [lastMenu, Step.menu?]

theorem lastMenu_setMenu (es : List Step) (ids : List String) :
    lastMenu (es ++ [.setMenu ids]) = ids := by
  simp [lastMenu, Step.menu?]

/-! ### What a step does -/

/-- What an offered definition does: nothing if it has a fault or its id is taken, else it is
registered behind the others. -/
theorem offer_cases (r : Registry) (d : Definition) :
    (∃ fault, d.fault? = some fault ∧ r.offer d = r) ∨
    (d.fault? = none ∧ d.id ∈ r.ids ∧ r.offer d = r) ∨
    (d.fault? = none ∧ d.id ∉ r.ids ∧ (r.offer d).definitions = r.definitions ++ [d] ∧
      (r.offer d).menuOrder = r.menuOrder) := by
  cases hfault : d.fault? with
  | some fault =>
    refine .inl ⟨fault, rfl, ?_⟩
    rw [offer, register_of_fault hfault]
    rfl
  | none =>
    refine .inr ?_
    by_cases hid : d.id ∈ r.ids
    · refine .inl ⟨rfl, hid, ?_⟩
      rw [offer, register_of_taken hfault hid]
      rfl
    · obtain ⟨r', hregister, hdefinitions, hmenu⟩ := register_of_free hfault hid
      refine .inr ⟨rfl, hid, ?_⟩
      rw [offer, hregister]
      exact ⟨hdefinitions, hmenu⟩

/-- A step finds what it offers under an id only where nothing was found before. -/
theorem get?_step (r : Registry) (e : Step) (id : String) :
    (r.step e).get? id = (r.get? id).or ((contracted [e]).find? fun d => d.id == id) := by
  cases e with
  | setMenu ids =>
    rw [contracted_setMenu]
    exact Option.or_none.symm
  | register d =>
    show (r.offer d).get? id = _
    rcases r.offer_cases d with ⟨fault, hfault, hoffer⟩ | ⟨hvalid, htaken, hoffer⟩ |
      ⟨hvalid, -, hdefinitions, -⟩
    · rw [contracted_of_fault hfault, hoffer]
      exact Option.or_none.symm
    · rw [contracted_of_valid hvalid, hoffer]
      by_cases hid : d.id = id
      · rw [hid] at htaken
        obtain ⟨d', hd'⟩ := Option.isSome_iff_exists.mp (isSome_get?_iff.mpr htaken)
        rw [hd']
        rfl
      · rw [List.find?_cons_of_neg (by simpa using hid)]
        exact Option.or_none.symm
    · rw [contracted_of_valid hvalid, get?, hdefinitions, List.find?_append]
      rfl

/-- A step adds the ids that it offers behind the others, unless they are there. -/
theorem ids_step (r : Registry) (e : Step) :
    (r.step e).ids = r.ids ++ ((contracted [e]).map Definition.id).removeAll r.ids := by
  cases e with
  | setMenu ids =>
    rw [contracted_setMenu]
    exact (List.append_nil _).symm
  | register d =>
    show (r.offer d).ids = _
    rcases r.offer_cases d with ⟨fault, hfault, hoffer⟩ | ⟨hvalid, htaken, hoffer⟩ |
      ⟨hvalid, hfree, hdefinitions, -⟩
    · rw [contracted_of_fault hfault, hoffer]
      exact (List.append_nil _).symm
    · have hnone : [d.id].removeAll r.ids = [] := by simp [List.removeAll, htaken]
      rw [contracted_of_valid hvalid, hoffer, List.map_singleton, hnone, List.append_nil]
    · have hone : [d.id].removeAll r.ids = [d.id] := by simp [List.removeAll, hfree]
      rw [contracted_of_valid hvalid, List.map_singleton, hone, ids, hdefinitions, List.map_append]
      rfl

theorem menuOrder_offer (r : Registry) (d : Definition) :
    (r.offer d).menuOrder = r.menuOrder := by
  rcases r.offer_cases d with ⟨-, -, hoffer⟩ | ⟨-, -, hoffer⟩ | ⟨-, -, -, hmenu⟩
  · rw [hoffer]
  · rw [hoffer]
  · exact hmenu

/-! ### What a history does -/

/-- What is found under an id is the first definition that keeps the contract and has it. -/
theorem get?_run (es : List Step) (id : String) :
    (empty.run es).get? id = (contracted es).find? fun d => d.id == id := by
  induction es using List.reverseRecOn with
  | nil => rfl
  | append_singleton es e ih =>
    rw [run_concat, get?_step, ih, contracted_append, List.find?_append]

/-- The ids are those of the definitions that keep the contract, each where it occurs first. -/
theorem ids_run (es : List Step) :
    (empty.run es).ids = ((contracted es).map Definition.id).eraseDups := by
  induction es using List.reverseRecOn with
  | nil => rfl
  | append_singleton es e ih =>
    rw [run_concat, ids_step, ih, contracted_append, List.map_append, List.eraseDups_append]
    -- An id is among the first ones if it is there at all.
    have hfirst (ids : List String) : ids.removeAll ((contracted es).map Definition.id).eraseDups =
        ids.removeAll ((contracted es).map Definition.id) := by
      simp [List.removeAll, List.mem_eraseDups]
    rw [hfirst]
    congr 1
    cases e with
    | setMenu ids => rfl
    | register d =>
      cases hfault : d.fault? with
      | some fault => rw [contracted_of_fault hfault]; rfl
      | none =>
        rw [contracted_of_valid hfault, List.map_singleton]
        simp only [List.removeAll, List.filter_singleton]
        cases List.elem d.id ((contracted es).map Definition.id) <;> rfl

theorem menuOrder_run (es : List Step) : (empty.run es).menuOrder = lastMenu es := by
  induction es using List.reverseRecOn with
  | nil => rfl
  | append_singleton es e ih =>
    rw [run_concat]
    cases e with
    | setMenu ids => exact (lastMenu_setMenu es ids).symm
    | register d =>
      rw [lastMenu_register, ← ih]
      exact menuOrder_offer _ d

/-- What is found after a history is found for ever. -/
theorem get?_step_of_some {r : Registry} {id : String} {d : Definition} (h : r.get? id = some d)
    (e : Step) : (r.step e).get? id = some d := by
  rw [get?_step, h]
  rfl

end Registry

/-! ### Shelves -/

namespace Shelf

open Registry (contracted lastMenu)

/-- What can be looked up on a shelf after a history. -/
structure Orderly (es : List Registry.Step) (s : Shelf) : Prop where
  nodup : s.ids.Nodup
  /-- Every id stands where it is first offered by a definition that keeps the contract. -/
  order : s.ids = ((contracted es).map Definition.id).eraseDups
  contains : ∀ id, s.contains id = true ↔ id ∈ s.ids
  known : ∀ id, id ∈ s.ids ↔ ∃ d, s.get? id = some d
  /-- The first definition that is offered under the id and keeps the contract is found. -/
  first : ∀ id, s.get? id = (contracted es).find? fun d => d.id == id
  own : ∀ id d, s.get? id = some d → d.id = id ∧ d.fault? = none
  menu : s.menu = (lastMenu es).filterMap s.get?
  /-- Of the menu what is registered by now is shown, repeated entries repeatedly. -/
  shown : s.menu.map Definition.id = (lastMenu es).filter fun id => id ∈ s.ids
  unlisted : s.menuReport.unlisted = s.ids.filter fun id => id ∉ lastMenu es
  unknown : s.menuReport.unknown = (lastMenu es).filter fun id => id ∉ s.ids
  clean : s.menuReport.isClean = true ↔ ∀ id, id ∈ lastMenu es ↔ id ∈ s.ids

theorem orderly_shelf {r : Registry} {es : List Registry.Step} (h : r = Registry.empty.run es) :
    r.shelf.Orderly es where
  nodup := r.distinct
  order := h ▸ Registry.ids_run es
  contains id := by
    rw [r.contains_shelf, Registry.contains, List.contains_eq_mem, decide_eq_true_eq]
    rfl
  known id := by
    rw [r.get?_shelf, ← Option.isSome_iff_exists]
    exact Registry.isSome_get?_iff.symm
  first id := by rw [r.get?_shelf, h, Registry.get?_run]
  own id d hd := by
    rw [r.get?_shelf] at hd
    exact ⟨Registry.id_of_get? hd, r.valid d (Registry.mem_of_get? hd)⟩
  menu := by rw [← Registry.menuOrder_run, ← h]; rfl
  shown := by
    rw [r.menu_shelf, r.map_id_menu, ← Registry.menuOrder_run, ← h]
    rfl
  unlisted := by
    rw [r.menuReport_shelf, r.unlisted_menuReport, ← Registry.menuOrder_run, ← h]
    rfl
  unknown := by
    rw [r.menuReport_shelf, r.unknown_menuReport, ← Registry.menuOrder_run, ← h]
    rfl
  clean := by
    rw [r.menuReport_shelf, r.isClean_menuReport, ← Registry.menuOrder_run, ← h]
    rfl

end Shelf

/-- **Table, ids and menu stay in order whatever the history.** The ids are those that are found, each
once and where it was first registered; under each the first definition that was accepted is found,
now and ever after; and the menu put up last shows what of it is registered. A definition is refused
for a fault or for its id, and then nothing is written. -/
theorem shelf_orderly (es : List Registry.Step) :
    (Shelf.empty.history es).Orderly es ∧
    (∀ e id d, (Shelf.empty.history es).get? id = some d →
      ((Shelf.empty.history es).after e).get? id = some d) ∧
    (∀ d e s, (Shelving.perform (.register d)).run (Shelf.empty.history es) = .error e s ↔
      s = Shelf.empty.history es ∧
        ((∃ fault, d.fault? = some fault ∧ e = .invalidDefinition d.id fault) ∨
          d.fault? = none ∧ d.id ∈ (Shelf.empty.history es).ids ∧ e = .duplicate d.id)) ∧
    ∀ ids, (Shelving.perform (.setMenu ids)).run (Shelf.empty.history es) =
      .ok (.menu (Shelf.empty.history (es ++ [.setMenu ids])).menuReport)
        (Shelf.empty.history (es ++ [.setMenu ids])) := by
  have hhistory (es : List Registry.Step) :
      Shelf.empty.history es = (Registry.empty.run es).shelf := Registry.empty.history_shelf es
  refine ⟨?_, fun e id d hd => ?_, fun d e s => ?_, fun ids => ?_⟩
  · rw [hhistory]
    exact Shelf.orderly_shelf rfl
  · rw [hhistory, Registry.get?_shelf] at hd
    rw [hhistory, Registry.after_shelf, Registry.get?_shelf]
    exact Registry.get?_step_of_some hd e
  · rw [hhistory, Registry.perform_register_eq_error, Registry.register_eq_error]
    exact Iff.rfl
  · rw [hhistory, hhistory, Registry.run_concat]
    exact Registry.perform_setMenu _ ids

/-- A menu that is put up between two registrations, with an entry twice and one that is unknown. -/
def menuSteps : List Registry.Step :=
  [.register Catalog.posterize, .setMenu ["ghost", "posterize", "posterize"],
    .register { Catalog.posterize with id := "ghost", slotCount := 2 },
    .register Catalog.brightnessContrast]

/-- The ghost has a fault and stays unknown, and a second registration of an id is refused. -/
theorem shelf_orderly_ghost :
    (Shelf.empty.history menuSteps).ids = ["posterize", "brightness_contrast"] ∧
    (Shelf.empty.history menuSteps).menu.map Definition.id = ["posterize", "posterize"] ∧
    (Shelf.empty.history menuSteps).menuReport.unlisted = ["brightness_contrast"] ∧
    (Shelf.empty.history menuSteps).menuReport.unknown = ["ghost"] ∧
    (Shelving.perform (.register Catalog.posterize)).run (Shelf.empty.history menuSteps) =
      .error (.duplicate "posterize") (Shelf.empty.history menuSteps) := by
  obtain ⟨horderly, -, hrefused, -⟩ := shelf_orderly menuSteps
  have hids : (Shelf.empty.history menuSteps).ids = ["posterize", "brightness_contrast"] := by
    rw [horderly.order]
    decide +kernel
  refine ⟨hids, ?_, ?_, ?_, ?_⟩
  · rw [horderly.shown, hids]
    decide
  · rw [horderly.unlisted, hids]
    decide
  · rw [horderly.unknown, hids]
    decide
  · refine (hrefused _ _ _).mpr ⟨rfl, .inr ⟨by decide +kernel, ?_, rfl⟩⟩
    rw [hids]
    decide

end ColorChain
