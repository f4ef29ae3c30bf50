import ColorChain.Chain.Edit
import ColorChain.Proofs.Registry

/-! What an edit can do to a chain.

`Change` lists the chains that an edit may leave, with what it found, and `step_change` says
that an edit does nothing else. What decoding puts in comes from the registry: a definition
under its own id. -/
namespace ColorChain

/-! ### Entries come from the registry -/

/-- The entry's definition is the one under its id. -/
def Entry.Registered (r : Registry) (e : Entry) : Prop := r.get? e.1.id = some e.1

theorem lookup_eq_ok {r : Registry} {id : String} {d : Definition} :
    r.lookup id = .ok d ↔ r.get? id = some d := by
  unfold Registry.lookup
  cases r.get? id <;> simp

namespace Compact

variable {r : Registry}

theorem clause_registered {text : List Char} {e : Entry} (h : clause r text = .ok e) :
    e.Registered r := by
  unfold clause at h
  split at h
  · cases h
  · cases h
  · obtain ⟨d, hd, h⟩ := Outcome.bind_eq_ok.mp h
    dsimp only at h
    split at h
    · cases h
    · obtain ⟨values, -, h⟩ := Outcome.bind_eq_ok.mp h
      cases h
      exact Registry.get?_id (lookup_eq_ok.mp hd)

/-- What holds of every clause that can be read holds of all clauses of a text. -/
theorem clauses_forall {P : Entry → Prop} (hclause : ∀ text e, clause r text = .ok e → P e)
    {texts : List (List Char)} {es : List Entry} (h : clauses r texts = .ok es) :
    ∀ e ∈ es, P e := by
  induction texts generalizing es with
  | nil =>
    cases h
    simp
  | cons text rest ih =>
    obtain ⟨e, he, h⟩ := Outcome.bind_eq_ok.mp h
    obtain ⟨es', hes, h⟩ := Outcome.bind_eq_ok.mp h
    cases h
    exact List.forall_mem_cons.mpr ⟨hclause text e he, ih hes⟩

theorem read_forall {P : Entry → Prop} (hclause : ∀ text e, clause r text = .ok e → P e)
    {text : List Char} {name : String} {es : List Entry} (h : read r text = .ok (name, es)) :
    ∀ e ∈ es, P e := by
  unfold read at h
  split at h
  · cases h
  · obtain ⟨es', hes, h⟩ := Outcome.bind_eq_ok.mp h
    cases h
    unfold body at hes
    split at hes
    · cases hes
      simp
    · split at hes
      · cases hes
      · exact clauses_forall hclause hes

theorem read_registered {text : List Char} {name : String} {es : List Entry}
    (h : read r text = .ok (name, es)) : ∀ e ∈ es, e.Registered r :=
  read_forall (fun _ _ => clause_registered) h

end Compact

namespace SavedFilter

variable {r : Registry}

theorem entry_registered {f : SavedFilter} {e : Entry} (h : f.entry r = .ok e) :
    e.Registered r := by
  obtain ⟨d, hd, h⟩ := Outcome.bind_eq_ok.mp h
  obtain ⟨values, -, h⟩ := Outcome.bind_eq_ok.mp h
  cases h
  exact Registry.get?_id (lookup_eq_ok.mp hd)

/-- What holds of every saved filter that can be read holds of all that a row has. -/
theorem entries_forall {P : Entry → Prop} (hentry : ∀ f e, entry r f = .ok e → P e)
    {fs : List SavedFilter} {es : List Entry} (h : entries r fs = .ok es) : ∀ e ∈ es, P e := by
  induction fs generalizing es with
  | nil =>
    cases h
    simp
  | cons f rest ih =>
    obtain ⟨e, he, h⟩ := Outcome.bind_eq_ok.mp h
    obtain ⟨es', hes, h⟩ := Outcome.bind_eq_ok.mp h
    cases h
    exact List.forall_mem_cons.mpr ⟨hentry f e he, ih hes⟩

theorem entries_registered {fs : List SavedFilter} {es : List Entry}
    (h : entries r fs = .ok es) : ∀ e ∈ es, e.Registered r :=
  entries_forall (fun _ _ => entry_registered) h

end SavedFilter

namespace Chain

variable {c c' : Chain}

/-! ### What an edit needs and what it makes -/

theorem insert_eq_ok {index : Nat} {id : String} {key : FilterKey} :
    c.insert index id = .ok (key, c') ↔ ∃ d, index ≤ c.filters.length ∧
      c.registry.get? id = some d ∧ key = ⟨c.nextKey⟩ ∧ c' = { c with
        filters := c.filters.insertIdx index (.ofDefaults ⟨c.nextKey⟩ d)
        nextKey := c.nextKey + 1 } := by
  unfold Chain.insert
  by_cases hi : c.filters.length < index
  · simp [hi, Nat.not_le_of_lt hi]
  · cases c.registry.get? id <;> simp [hi, Nat.le_of_not_lt hi, eq_comm]

theorem remove_eq_ok {key : FilterKey} {f : Filter} : c.remove key = .ok (f, c') ↔
    c.get? key = some f ∧ c' = { c with filters := c.filters.eraseIdx (c.indexOf key) } := by
  unfold Chain.remove
  cases c.get? key with
  | none => simp
  | some g => simp [eq_comm]

theorem move_eq_ok {source target : Nat} : c.move source target = .ok c' ↔
    ∃ f, c.filters[source]? = some f ∧ target < c.filters.length ∧
      c' = { c with filters := (c.filters.eraseIdx source).insertIdx target f } := by
  unfold Chain.move
  cases c.filters[source]? with
  | none => simp
  | some f =>
    by_cases ht : target < c.filters.length
    · simp [ht, eq_comm]
    · simp [ht]

/-- Moving a filter puts in nothing new. -/
theorem mem_of_mem_move {fs : List Filter} {source target : Nat} {f g : Filter}
    (hg : fs[source]? = some g) (ht : target < fs.length)
    (hf : f ∈ (fs.eraseIdx source).insertIdx target g) : f ∈ fs := by
  have hlen : target ≤ (fs.eraseIdx source).length := by
    rw [List.length_eraseIdx_of_lt (List.getElem?_eq_some_iff.mp hg).1]
    omega
  rcases (List.mem_insertIdx hlen).mp hf with rfl | hf
  · exact List.mem_of_getElem? hg
  · exact List.mem_of_mem_eraseIdx hf

theorem setVisible_eq_ok {key : FilterKey} {visible : Bool} :
    c.setVisible key visible = .ok c' ↔
      ∃ f, c.get? key = some f ∧ c' = c.replace key { f with visible } := by
  unfold Chain.setVisible
  cases c.get? key with
  | none => simp
  | some f => simp [eq_comm]

theorem setValue_eq_ok {key : FilterKey} {control : Nat} {value : ControlValue} :
    c.setValue key control value = .ok c' ↔
      ∃ f f', c.get? key = some f ∧ f.setValue control value = .ok f' ∧ c' = c.replace key f' := by
  unfold Chain.setValue
  cases c.get? key with
  | none => simp
  | some f =>
    cases hv : f.setValue control value with
    | error e => simp [hv]
    | ok f' => simp [hv, eq_comm]

/-! ### What an edit can do -/

/-- The chain `c'` that an edit may make of `c`. -/
inductive Change (c : Chain) : Chain → Prop where
  /-- Another name or seed, or neither. -/
  | label (name : String) (seed : Seed) : Change c { c with name, seed }
  | insert (index : Nat) (d : Definition) (hi : index ≤ c.filters.length)
      (hd : c.registry.get? d.id = some d) :
      Change c { c with
        filters := c.filters.insertIdx index (.ofDefaults ⟨c.nextKey⟩ d)
        nextKey := c.nextKey + 1 }
  | remove (key : FilterKey) (f : Filter) (hf : c.get? key = some f) :
      Change c { c with filters := c.filters.eraseIdx (c.indexOf key) }
  | move (source target : Nat) (f : Filter) (hf : c.filters[source]? = some f)
      (ht : target < c.filters.length) :
      Change c { c with filters := (c.filters.eraseIdx source).insertIdx target f }
  | reveal (key : FilterKey) (f : Filter) (visible : Bool) (hf : c.get? key = some f) :
      Change c (c.replace key { f with visible })
  | set (key : FilterKey) (f f' : Filter) (control : Nat) (value : ControlValue)
      (hf : c.get? key = some f) (hv : f.setValue control value = .ok f') :
      Change c (c.replace key f')
  | clear : Change c c.clear
  | load (name : String) (es : List Entry) (fs : List Filter)
      (hes : ∀ e ∈ es, e.Registered c.registry) (hfs : Entry.filters c.nextKey es = .ok fs) :
      Change c { c with name, filters := fs, nextKey := c.nextKey + fs.length }

/-- An edit that fails changes nothing. -/
theorem Change.refl : Change c c := .label c.name c.seed

theorem insert_change {index : Nat} {id : String} {key : FilterKey}
    (h : c.insert index id = .ok (key, c')) : Change c c' := by
  obtain ⟨d, hi, hd, -, rfl⟩ := insert_eq_ok.mp h
  exact .insert index d hi (Registry.get?_id hd)

theorem remove_change {key : FilterKey} {f : Filter} (h : c.remove key = .ok (f, c')) :
    Change c c' := by
  obtain ⟨hf, rfl⟩ := remove_eq_ok.mp h
  exact .remove key f hf

theorem move_change {source target : Nat} (h : c.move source target = .ok c') :
    Change c c' := by
  obtain ⟨f, hf, ht, rfl⟩ := move_eq_ok.mp h
  exact .move source target f hf ht

theorem setVisible_change {key : FilterKey} {visible : Bool}
    (h : c.setVisible key visible = .ok c') : Change c c' := by
  obtain ⟨f, hf, rfl⟩ := setVisible_eq_ok.mp h
  exact .reveal key f visible hf

theorem setValue_change {key : FilterKey} {control : Nat} {value : ControlValue}
    (h : c.setValue key control value = .ok c') : Change c c' := by
  obtain ⟨f, f', hf, hv, rfl⟩ := setValue_eq_ok.mp h
  exact .set key f f' control value hf hv

theorem load_change {name : String} {es : List Entry} (hes : ∀ e ∈ es, e.Registered c.registry)
    (h : c.load name es = .ok c') : Change c c' := by
  unfold Chain.load at h
  split at h
  · cases h
  · rename_i fs hfs
    cases h
    exact .load name es fs hes hfs

theorem loadJson_change {j : Json} (h : c.loadJson j = .ok c') : Change c c' := by
  unfold Chain.loadJson at h
  split at h
  · cases h
  · obtain ⟨es, hes, h⟩ := Outcome.bind_eq_ok.mp h
    exact load_change (SavedFilter.entries_registered hes) h

theorem decode_change {text : String} (h : c.decode text = .ok c') : Change c c' := by
  unfold Chain.decode at h
  split at h
  · split at h
    · cases h
    · exact loadJson_change h
  · obtain ⟨⟨name, es⟩, hes, h⟩ := Outcome.bind_eq_ok.mp h
    exact load_change (Compact.read_registered hes) h

/-- The chain of an edit that returns nothing else. -/
theorem done_eq_ok {ε : Type} {wrap : ε → EditError} {x : Except ε Chain} {result : EditResult}
    (h : done wrap x = .ok (result, c')) : x = .ok c' := by
  cases x with
  | error e => cases h
  | ok c =>
    cases h
    rfl

theorem step_of_edit {e : Edit} {result : EditResult} (h : c.edit e = .ok (result, c')) :
    c.step e = c' := by
  rw [step, h]

/-- **An edit does nothing but one of the changes.** -/
theorem step_change (c : Chain) (e : Edit) : Change c (c.step e) := by
  unfold Chain.step
  split
  · rename_i result c' h
    cases e with
    | setName name =>
      cases h
      exact .label name c.seed
    | setSeed seed =>
      cases h
      exact .label c.name seed
    | add id =>
      obtain ⟨⟨key, c''⟩, hx, heq⟩ := Outcome.map_mapError_eq_ok h
      cases heq
      exact insert_change hx
    | insert index id =>
      obtain ⟨⟨key, c''⟩, hx, heq⟩ := Outcome.map_mapError_eq_ok h
      cases heq
      exact insert_change hx
    | remove key =>
      obtain ⟨⟨f, c''⟩, hx, heq⟩ := Outcome.map_mapError_eq_ok h
      cases heq
      exact remove_change hx
    | move source target => exact move_change (done_eq_ok h)
    | setVisible key visible => exact setVisible_change (done_eq_ok h)
    | setValue key control value => exact setValue_change (done_eq_ok h)
    | clear =>
      cases h
      exact .clear
    | decode text => exact decode_change (done_eq_ok h)
    | load json => exact loadJson_change (done_eq_ok h)
  · exact .refl

theorem Change.registry (h : Change c c') : c'.registry = c.registry := by
  cases h <;> rfl

theorem run_registry (c : Chain) (es : List Edit) : (c.run es).registry = c.registry := by
  induction es generalizing c with
  | nil => rfl
  | cons e rest ih => rw [run, ih, (step_change c e).registry]

end Chain
end ColorChain
