import ColorChain.Chain.InPlace

/-! Working on a held chain amounts to the edits.

Every operation checks all it has to check before its first write, so one that fails leaves the
chain that was held, and one that succeeds the chain of the edit (`perform_eq`). Loading has
the most ways to fail, the last of them behind filters that are built already; these are built
on the side (`build_eq`), and the chain is written to when none of them can fail any more. -/
namespace ColorChain

namespace Editor

variable {ε α : Type} (c : Chain)

/-! ### Editing -/

theorem insert_eq (index : Nat) (id : String) :
    (insert index id).run c = c.settle (c.insert index id) := by
  unfold insert Chain.insert
  by_cases hindex : c.filters.length < index
  · simp only [hindex, if_true, EStateM.run_bind, EStateM.run_get, EStateM.run_throw, Chain.settle]
  · simp only [hindex, if_false, EStateM.run_bind, EStateM.run_get]
    cases c.registry.get? id with
    | none => rfl
    | some d => rfl

theorem add_eq (id : String) : (add id).run c = c.settle (c.add id) :=
  insert_eq c c.filters.length id

theorem remove_eq (key : FilterKey) : (remove key).run c = c.settle (c.remove key) := by
  unfold remove Chain.remove
  simp only [EStateM.run_bind, EStateM.run_get]
  cases c.get? key with
  | none => rfl
  | some f => rfl

theorem move_eq (source target : Nat) :
    (move source target).run c = c.settle ((c.move source target).map ((), ·)) := by
  unfold move Chain.move
  simp only [EStateM.run_bind, EStateM.run_get]
  cases c.filters[source]? with
  | none => rfl
  | some f =>
    by_cases htarget : target < c.filters.length
    · have hle : ¬ c.filters.length ≤ target := by omega
      simp only [htarget, hle, if_true, if_false]
      rfl
    · have hle : c.filters.length ≤ target := by omega
      simp only [htarget, hle, if_true, if_false]
      rfl

theorem setVisible_eq (key : FilterKey) (visible : Bool) :
    (setVisible key visible).run c = c.settle ((c.setVisible key visible).map ((), ·)) := by
  unfold setVisible Chain.setVisible
  simp only [EStateM.run_bind, EStateM.run_get]
  cases c.get? key with
  | none => rfl
  | some f => rfl

theorem setValue_eq (key : FilterKey) (control : Nat) (value : ControlValue) :
    (setValue key control value).run c = c.settle ((c.setValue key control value).map ((), ·)) := by
  unfold setValue Chain.setValue
  simp only [EStateM.run_bind, EStateM.run_get]
  cases c.get? key with
  | none => rfl
  | some f =>
    cases hvalue : f.setValue control value with
    | error e => simp only [hvalue]; rfl
    | ok f' => simp only [hvalue]; rfl

/-! ### Loading -/

/-- Building does not touch the held chain. The induction is on the entries, with the filters
before them built. -/
theorem build_eq (key : Nat) (built : List Filter) (entries : List Entry) :
    (build key built entries).run c = match Entry.filters key entries with
      | .ok filters => .ok (built ++ filters, key + filters.length) c
      | .error e => .error (.control e) c := by
  induction entries generalizing key built with
  | nil => simp [build, Entry.filters]
  | cons entry rest ih =>
    obtain ⟨d, values⟩ := entry
    rw [build, Entry.filters]
    cases hf : Filter.ofValues ⟨key⟩ d values with
    | error e => rfl
    | ok f =>
      simp only [ih]
      cases hrest : Entry.filters (key + 1) rest with
      | error e => rfl
      | ok filters =>
        simp only [bind, Except.bind, pure, Except.pure, List.length_cons, List.append_assoc,
          List.singleton_append, Nat.add_assoc, Nat.add_comm 1]

theorem replace_eq (name : String) (entries : List Entry) :
    (replace name entries).run c = c.settle ((c.load name entries).map ((), ·)) := by
  unfold replace Chain.load
  simp only [EStateM.run_bind, EStateM.run_get, build_eq]
  cases Entry.filters c.nextKey entries with
  | error e => rfl
  | ok filters => rfl

theorem load_eq (j : Json) : (load j).run c = c.settle ((c.loadJson j).map ((), ·)) := by
  unfold load Chain.loadJson
  cases SavedChain.ofJson? j with
  | none => rfl
  | some saved =>
    simp only [EStateM.run_bind, EStateM.run_get]
    cases SavedFilter.entries c.registry saved.filters with
    | error e => rfl
    | ok entries => exact replace_eq c saved.name entries

theorem decode_eq (text : String) :
    (decode text).run c = c.settle ((c.decode text).map ((), ·)) := by
  unfold decode Chain.decode
  by_cases hbrace : text.toList.head? = some '\x7b'
  · simp only [hbrace, if_true]
    cases Json.parse? text with
    | none => rfl
    | some j => exact load_eq c j
  · simp only [hbrace, if_false, EStateM.run_bind, EStateM.run_get]
    cases Compact.read c.registry text.toList with
    | error e => rfl
    | ok read => exact replace_eq c read.1 read.2

/-! ### All edits -/

variable {c} {m : Editor ε α} {wrap : ε → EditError}

/-- An operation whose result is the edit's result. -/
theorem wrapped_eq {x : Except ε (α × Chain)} (h : m.run c = c.settle x) (result : α → EditResult) :
    (do return result (← m.adaptExcept wrap) : Editor EditError EditResult).run c =
      c.settle ((x.mapError wrap).map fun p => (result p.1, p.2)) := by
  rw [EStateM.run_bind, EStateM.run_adaptExcept, h]
  cases x with
  | error e => rfl
  | ok p => rfl

/-- An operation that returns nothing but the chain. -/
theorem done_eq {x : Except ε Chain} {m : Editor ε Unit}
    (h : m.run c = c.settle (x.map ((), ·))) :
    (do m.adaptExcept wrap; return EditResult.done : Editor EditError EditResult).run c =
      c.settle (Chain.done wrap x) := by
  rw [EStateM.run_bind, EStateM.run_adaptExcept, h]
  cases x with
  | error e => rfl
  | ok c' => rfl

/-- **An edit in place is the edit.** It leaves what `Chain.edit` gives out and returns the
same, and where that has an error it leaves the chain that was held. -/
theorem perform_eq (c : Chain) (e : Edit) : (perform e).run c = c.settle (c.edit e) := by
  cases e with
  | setName name => rfl
  | setSeed seed => rfl
  | add id => exact wrapped_eq (add_eq c id) .key
  | insert index id => exact wrapped_eq (insert_eq c index id) .key
  | remove key => exact wrapped_eq (remove_eq c key) .filter
  | move source target => exact done_eq (move_eq c source target)
  | setVisible key visible => exact done_eq (setVisible_eq c key visible)
  | setValue key control value => exact done_eq (setValue_eq c key control value)
  | clear => rfl
  | decode text => exact done_eq (decode_eq c text)
  | load json => exact done_eq (load_eq c json)

/-- An edit in place is made just where the edit is. -/
theorem performed_iff {e : Edit} {result : EditResult} {c' : Chain} :
    (perform e).run c = .ok result c' ↔ c.edit e = .ok (result, c') := by
  rw [perform_eq]
  cases c.edit e <;> simp [Chain.settle, Prod.ext_iff]

/-- An edit in place is refused just where the edit is, and the held chain is left. -/
theorem refused_iff {e : Edit} {err : EditError} {c' : Chain} :
    (perform e).run c = .error err c' ↔ c.edit e = .error err ∧ c = c' := by
  rw [perform_eq]
  cases c.edit e <;> simp [Chain.settle]

theorem after_eq (c : Chain) (e : Edit) : after c e = c.step e := by
  rw [after, perform_eq, Chain.step]
  cases c.edit e with
  | error e => rfl
  | ok p => rfl

theorem history_eq (c : Chain) (es : List Edit) : history c es = c.run es := by
  induction es generalizing c with
  | nil => rfl
  | cons e rest ih => rw [history, after_eq, ih, Chain.run]

end Editor
end ColorChain
