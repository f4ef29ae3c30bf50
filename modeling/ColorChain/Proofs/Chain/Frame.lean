import ColorChain.Proofs.Chain.Keys
import ColorChain.Proofs.Control.Domain

/-! An edit touches its target and nothing else.

A filter that is put in, taken out or moved leaves the row of the others as it is. That is one
relation between two rows (`Filter.PutIn`): putting in goes along it, taking out goes back, and
moving goes back at one place and along at another, so that the opposite move is there and undoes
it. A value or a visibility changes one filter where it stands (`Chain.Retouched`). What an edit
refuses is listed with its causes (`Chain.Refuses`), and a held chain that refuses an edit has not
been written to (`edit_touches_target`). -/
namespace ColorChain

/-! ### Rows -/

/-- The row `gs` is the row `fs` with `f` put in at `i`. -/
structure Filter.PutIn (i : Nat) (f : Filter) (fs gs : List Filter) : Prop where
  there : gs[i]? = some f
  others : gs.eraseIdx i = fs

namespace Filter.PutIn

variable {i : Nat} {f : Filter} {fs gs : List Filter}

theorem insertIdx (h : i ≤ fs.length) : PutIn i f fs (fs.insertIdx i f) where
  there := by rw [List.getElem?_insertIdx_self, if_pos h]
  others := List.eraseIdx_insertIdx_self f

theorem eraseIdx (h : gs[i]? = some f) : PutIn i f (gs.eraseIdx i) gs := ⟨h, rfl⟩

/-- There is only one row with `f` put in at `i`. -/
theorem eq_insertIdx (h : PutIn i f fs gs) : gs = fs.insertIdx i f := by
  obtain ⟨hi, hf⟩ := List.getElem?_eq_some_iff.mp h.there
  rw [← h.others, ← hf, List.insertIdx_eraseIdx_getElem hi]

theorem perm (h : PutIn i f fs gs) : gs.Perm (f :: fs) := by
  obtain ⟨hi, hf⟩ := List.getElem?_eq_some_iff.mp h.there
  have hperm := List.getElem_cons_eraseIdx_perm hi
  rw [hf, h.others] at hperm
  exact hperm.symm

theorem lt_length (h : PutIn i f fs gs) : i < gs.length :=
  (List.getElem?_eq_some_iff.mp h.there).1

end Filter.PutIn

/-! ### Refusals -/

/-- A filter refuses a value for want of a control, or as its control does. -/
theorem Filter.setValue_eq_error {f : Filter} {index : Nat} {value : ControlValue}
    {e : ControlError} : f.setValue index value = .error e ↔
      f.definition.controls.length ≤ index ∧ e = .unknownControl index ∨
        ∃ control, f.definition.controls[index]? = some control ∧ control.Refuses value e := by
  unfold setValue
  cases hcontrol : f.definition.controls[index]? with
  | none =>
    have hlength := List.getElem?_eq_none_iff.mp hcontrol
    simp [hlength, eq_comm]
  | some control =>
    have hlength := Nat.not_le_of_lt (List.getElem?_eq_some_iff.mp hcontrol).1
    simp only [← Control.accept_eq_error]
    cases haccept : control.accept value with
    | error e' => simp [Except.map, haccept, hlength]
    | ok stored => simp [Except.map, haccept, hlength]

namespace Chain

/-- Why a chain refuses an edit that is not given as a whole chain. -/
inductive Refuses (c : Chain) : Edit → ChainError → Prop where
  | index {index id} (h : c.filters.length < index) :
      Refuses c (.insert index id) (.indexOutOfRange index c.filters.length)
  | id {index id} (hindex : index ≤ c.filters.length) (h : c.registry.get? id = none) :
      Refuses c (.insert index id) (.unknownFilter id)
  | addedId {id} (h : c.registry.get? id = none) : Refuses c (.add id) (.unknownFilter id)
  | removed {key} (h : key ∉ c.keys) : Refuses c (.remove key) (.unknownKey key)
  | source {source target} (h : c.filters.length ≤ source) :
      Refuses c (.move source target) (.indexOutOfRange source c.filters.length)
  | target {source target} (hsource : source < c.filters.length)
      (h : c.filters.length ≤ target) :
      Refuses c (.move source target) (.indexOutOfRange target c.filters.length)
  | shown {key visible} (h : key ∉ c.keys) : Refuses c (.setVisible key visible) (.unknownKey key)
  | key {key control value} (h : key ∉ c.keys) :
      Refuses c (.setValue key control value) (.unknownKey key)
  | control {key control value f} (hf : c.get? key = some f)
      (h : f.definition.controls.length ≤ control) :
      Refuses c (.setValue key control value) (.control (.unknownControl control))
  /-- A value of the wrong kind, or a number that is not finite. -/
  | value {key index control value f e} (hf : c.get? key = some f)
      (hcontrol : f.definition.controls[index]? = some control) (h : control.Refuses value e) :
      Refuses c (.setValue key index value) (.control e)

variable {c c' : Chain} {key : FilterKey} {f : Filter}

theorem get?_eq_none_iff : c.get? key = none ↔ key ∉ c.keys := by
  simp [get?, keys]

theorem insert_eq_error {index : Nat} {id : String} {e : ChainError} :
    c.insert index id = .error e ↔ c.Refuses (.insert index id) e := by
  constructor
  · intro h
    unfold Chain.insert at h
    split at h
    · next hindex =>
      cases h
      exact .index hindex
    · next hindex =>
      split at h
      · next hid =>
        cases h
        exact .id (Nat.le_of_not_lt hindex) hid
      · cases h
  · intro h
    cases h with
    | index h => simp [Chain.insert, h]
    | id hindex h => simp [Chain.insert, Nat.not_lt_of_le hindex, h]

theorem add_eq_error {id : String} {e : ChainError} :
    c.add id = .error e ↔ c.Refuses (.add id) e := by
  rw [Chain.add, insert_eq_error]
  constructor
  · intro h
    cases h with
    | index h => exact absurd h (Nat.lt_irrefl _)
    | id _ h => exact .addedId h
  · intro h
    cases h with
    | addedId h => exact .id (Nat.le_refl _) h

theorem remove_eq_error {e : ChainError} : c.remove key = .error e ↔ c.Refuses (.remove key) e := by
  constructor
  · intro h
    unfold Chain.remove at h
    split at h
    · next hkey =>
      cases h
      exact .removed (get?_eq_none_iff.mp hkey)
    · cases h
  · intro h
    cases h with
    | removed h => rw [Chain.remove, get?_eq_none_iff.mpr h]

theorem move_eq_error {source target : Nat} {e : ChainError} :
    c.move source target = .error e ↔ c.Refuses (.move source target) e := by
  constructor
  · intro h
    unfold Chain.move at h
    dsimp only at h
    split at h
    · next hsource =>
      cases h
      exact .source (List.getElem?_eq_none_iff.mp hsource)
    · next f hsource =>
      split at h
      · cases h
      · next htarget =>
        cases h
        exact .target (List.getElem?_eq_some_iff.mp hsource).1 (Nat.le_of_not_lt htarget)
  · intro h
    cases h with
    | source h => simp only [Chain.move, List.getElem?_eq_none_iff.mpr h]
    | target hsource h =>
      simp only [Chain.move, List.getElem?_eq_getElem hsource, Nat.not_lt_of_le h, if_false]

theorem setVisible_eq_error {visible : Bool} {e : ChainError} :
    c.setVisible key visible = .error e ↔ c.Refuses (.setVisible key visible) e := by
  constructor
  · intro h
    unfold Chain.setVisible at h
    split at h
    · next hkey =>
      cases h
      exact .shown (get?_eq_none_iff.mp hkey)
    · cases h
  · intro h
    cases h with
    | shown h => rw [Chain.setVisible, get?_eq_none_iff.mpr h]

theorem setValue_eq_error {control : Nat} {value : ControlValue} {e : ChainError} :
    c.setValue key control value = .error e ↔ c.Refuses (.setValue key control value) e := by
  constructor
  · intro h
    unfold Chain.setValue at h
    split at h
    · next hkey =>
      cases h
      exact .key (get?_eq_none_iff.mp hkey)
    · next f hf =>
      split at h
      · next e hvalue =>
        cases h
        rcases Filter.setValue_eq_error.mp hvalue with ⟨hcontrol, rfl⟩ | ⟨k, hcontrol, hrefuses⟩
        · exact .control hf hcontrol
        · exact .value hf hcontrol hrefuses
      · cases h
  · intro h
    cases h with
    | key h => rw [Chain.setValue, get?_eq_none_iff.mpr h]
    | control hf h =>
      simp only [Chain.setValue, hf, Filter.setValue_eq_error.mpr (.inl ⟨h, rfl⟩)]
    | value hf hcontrol h =>
      simp only [Chain.setValue, hf, Filter.setValue_eq_error.mpr (.inr ⟨_, hcontrol, h⟩)]

theorem wrapped_eq_error {α : Type} {x : Except ChainError α} {wrap : α → EditResult × Chain}
    {err : ChainError} : (x.mapError EditError.chain).map wrap = .error (.chain err) ↔
      x = .error err := by
  cases x <;> simp [Except.mapError, Except.map]

theorem done_eq_error {x : Except ChainError Chain} {err : ChainError} :
    done .chain x = .error (.chain err) ↔ x = .error err := by
  cases x <;> simp [done]

theorem done_decode_ne {x : Except DecodeError Chain} {err : ChainError} :
    done .decode x ≠ .error (.chain err) := by
  cases x <;> simp [done]

/-- Only a whole chain is refused without one of the causes listed. -/
theorem cause_of_edit {e : Edit} {err : EditError} (h : c.edit e = .error err) :
    (∃ form : ChainForm, e = form.edit) ∨ ∃ cause, err = .chain cause := by
  have hwrapped {α : Type} {x : Except ChainError α} {wrap : α → EditResult × Chain}
      (h : (x.mapError EditError.chain).map wrap = .error err) : ∃ cause, err = .chain cause := by
    cases x with
    | error cause => exact ⟨cause, by cases h; rfl⟩
    | ok a => cases h
  have hdone {x : Except ChainError Chain} (h : done .chain x = .error err) :
      ∃ cause, err = .chain cause := by
    cases x with
    | error cause => exact ⟨cause, by cases h; rfl⟩
    | ok c => cases h
  cases e with
  | setName name => cases h
  | setSeed seed => cases h
  | clear => cases h
  | add id => exact .inr (hwrapped h)
  | insert index id => exact .inr (hwrapped h)
  | remove key => exact .inr (hwrapped h)
  | move source target => exact .inr (hdone h)
  | setVisible key visible => exact .inr (hdone h)
  | setValue key control value => exact .inr (hdone h)
  | decode text => exact .inl ⟨.text text, rfl⟩
  | load json => exact .inl ⟨.json json, rfl⟩

/-- What has an error is refused, and nothing else has one. -/
theorem perform_eq_error {e : Edit} {err : ChainError} :
    (Editor.perform e).run c = .error (.chain err) c ↔ c.Refuses e err := by
  have hedit : (Editor.perform e).run c = .error (.chain err) c ↔
      c.edit e = .error (.chain err) :=
    Editor.refused_iff.trans (and_iff_left rfl)
  rw [hedit, edit.eq_def]
  cases e with
  | setName name => exact iff_of_false (fun h => by cases h) (fun h => by cases h)
  | setSeed seed => exact iff_of_false (fun h => by cases h) (fun h => by cases h)
  | clear => exact iff_of_false (fun h => by cases h) (fun h => by cases h)
  | add id => exact wrapped_eq_error.trans add_eq_error
  | insert index id => exact wrapped_eq_error.trans insert_eq_error
  | remove key => exact wrapped_eq_error.trans remove_eq_error
  | move source target => exact done_eq_error.trans move_eq_error
  | setVisible key visible => exact done_eq_error.trans setVisible_eq_error
  | setValue key control value => exact done_eq_error.trans setValue_eq_error
  | decode text => exact iff_of_false done_decode_ne (fun h => by cases h)
  | load json => exact iff_of_false done_decode_ne (fun h => by cases h)

end Chain

/-! ### What an edit touches -/

/-- `g` is `f` with what control `index` stores of a value, and all else as it is. -/
structure Filter.Revalued (index : Nat) (value : ControlValue) (f g : Filter) : Prop where
  key : g.key = f.key
  definition : g.definition = f.definition
  visible : g.visible = f.visible
  length : g.values.length = f.values.length
  stored : ∃ control stored, f.definition.controls[index]? = some control ∧
    control.accept value = .ok stored ∧
      (index < f.values.length → g.values[index]? = some stored)
  others : ∀ j, j ≠ index → g.values[j]? = f.values[j]?

theorem Filter.revalued_of_setValue {f g : Filter} {index : Nat} {value : ControlValue}
    (h : f.setValue index value = .ok g) : f.Revalued index value g := by
  obtain ⟨control, stored, hcontrol, haccept, rfl⟩ := Filter.setValue_eq_ok.mp h
  exact ⟨rfl, rfl, rfl, List.length_set, ⟨control, stored, hcontrol, haccept,
    List.getElem?_set_self⟩, fun j hj => List.getElem?_set_ne hj.symm⟩

namespace Chain

/-- Name, seed and registry are as before. -/
structure Labelled (c c' : Chain) : Prop where
  name : c'.name = c.name
  seed : c'.seed = c.seed
  registry : c'.registry = c.registry

/-- A new filter is at `index`, under the next key and with its definition's defaults. -/
structure Gained (c c' : Chain) (index : Nat) (id : String) (key : FilterKey) : Prop where
  labels : c.Labelled c'
  issued : key = ⟨c.nextKey⟩
  nextKey : c'.nextKey = c.nextKey + 1
  filter : ∃ d, c.registry.get? id = some d ∧
    Filter.PutIn index ⟨key, d, d.controls.map Control.default, true⟩ c.filters c'.filters

/-- The filter under `key` is gone, and the others stand as they stood without it. -/
structure Lost (c c' : Chain) (key : FilterKey) (f : Filter) : Prop where
  labels : c.Labelled c'
  nextKey : c'.nextKey = c.nextKey
  found : f.key = key
  filter : ∃ i, Filter.PutIn i f c'.filters c.filters
  gone : key ∉ c'.keys

/-- The filter at `source` is at `target`, and the others stand as they stood without it. The
opposite move takes it back. -/
structure Moved (c c' : Chain) (source target : Nat) : Prop where
  labels : c.Labelled c'
  nextKey : c'.nextKey = c.nextKey
  filter : ∃ f rest, Filter.PutIn source f rest c.filters ∧
    Filter.PutIn target f rest c'.filters ∧ c'.position? f.key = some target
  perm : c'.filters.Perm c.filters
  undone : (Editor.perform (.move target source)).run c' = .ok .done c

/-- The one filter under `key` is another one, as `R` says, and the others are as they were. -/
structure Retouched (c c' : Chain) (key : FilterKey) (R : Filter → Filter → Prop) : Prop where
  labels : c.Labelled c'
  nextKey : c'.nextKey = c.nextKey
  filter : ∃ (i : Nat) (f g : Filter), c.filters[i]? = some f ∧ f.key = key ∧
    c'.filters[i]? = some g ∧ R f g ∧ ∀ j : Nat, j ≠ i → c'.filters[j]? = c.filters[j]? ∧
      ∀ other : Filter, c.filters[j]? = some other → other.key ≠ key

/-- What an edit that is made has touched. -/
def Touched (c c' : Chain) : Edit → EditResult → Prop
  | .setName name, .done => c' = { c with name }
  | .setSeed seed, .done => c' = { c with seed }
  | .add id, .key key => c.Gained c' c.filters.length id key
  | .insert index id, .key key => c.Gained c' index id key
  | .remove key, .filter f => c.Lost c' key f
  | .move source target, .done => c.Moved c' source target
  | .setVisible key visible, .done => c.Retouched c' key fun f g => g = { f with visible }
  | .setValue key control value, .done => c.Retouched c' key (Filter.Revalued control value)
  | .clear, .done => c' = { c with filters := [] }
  | .decode _, .done | .load _, .done => c.Reloaded c'
  | _, _ => False

variable {c c' : Chain} {key : FilterKey} {f g : Filter} {R : Filter → Filter → Prop}

theorem key_of_get? (hf : c.get? key = some f) : f.key = key := by
  simpa using List.find?_some hf

theorem gained_of_insert {index : Nat} {id : String} (h : c.insert index id = .ok (key, c')) :
    c.Gained c' index id key := by
  obtain ⟨d, hindex, hd, rfl, rfl⟩ := insert_eq_ok.mp h
  exact ⟨⟨rfl, rfl, rfl⟩, rfl, rfl, d, hd, .insertIdx hindex⟩

theorem lost_of_remove (hc : c.keys.Nodup) (h : c.remove key = .ok (f, c')) :
    c.Lost c' key f := by
  obtain ⟨hf, rfl⟩ := remove_eq_ok.mp h
  have hput := Filter.PutIn.eraseIdx (getElem?_indexOf hf)
  have hkeys : c.keys.Perm (f.key :: (c.filters.eraseIdx (c.indexOf key)).map Filter.key) :=
    hput.perm.map Filter.key
  obtain ⟨hgone, -⟩ := List.nodup_cons.mp (hkeys.nodup hc)
  rw [key_of_get? hf] at hgone
  exact ⟨⟨rfl, rfl, rfl⟩, rfl, key_of_get? hf, ⟨_, hput⟩, hgone⟩

/-- What a move leaves may be moved back, and is then what it was. -/
theorem moved_of_move (hc : c.keys.Nodup) {source target : Nat}
    (h : c.move source target = .ok c') : c.Moved c' source target := by
  obtain ⟨f, hf, htarget, rfl⟩ := move_eq_ok.mp h
  generalize hc' : ({ c with
    filters := (c.filters.eraseIdx source).insertIdx target f } : Chain) = c'
  have hfilters : c'.filters = (c.filters.eraseIdx source).insertIdx target f := by rw [← hc']
  have hout : Filter.PutIn source f (c.filters.eraseIdx source) c.filters := .eraseIdx hf
  have hlength := hout.perm.length_eq
  have hin : Filter.PutIn target f (c.filters.eraseIdx source) c'.filters := by
    rw [hfilters]
    refine .insertIdx ?_
    rw [List.length_cons] at hlength
    omega
  have hperm : c'.filters.Perm c.filters := hin.perm.trans hout.perm.symm
  have hkeys : c'.keys.Nodup := (hperm.map Filter.key).symm.nodup hc
  have hback : c'.move target source = .ok c := by
    refine move_eq_ok.mpr ⟨f, hin.there, ?_, ?_⟩
    · rw [hperm.length_eq]
      exact hout.lt_length
    · rw [hin.others, ← hout.eq_insertIdx, ← hc']
  refine ⟨?_, ?_, ⟨f, _, hout, hin, (found_of_nodup hkeys hin.there).1⟩, hperm, ?_⟩
  · rw [← hc']
    exact ⟨rfl, rfl, rfl⟩
  · rw [← hc']
  · rw [Editor.perform_eq, edit, hback]
    rfl

theorem retouched_of_replace (hc : c.keys.Nodup) (hf : c.get? key = some f) (hR : R f g) :
    c.Retouched (c.replace key g) key R := by
  have hget := getElem?_indexOf hf
  obtain ⟨hlt, -⟩ := List.getElem?_eq_some_iff.mp hget
  refine ⟨⟨rfl, rfl, rfl⟩, rfl, c.indexOf key, f, g, hget, key_of_get? hf,
    List.getElem?_set_self hlt, hR, fun j hj => ⟨List.getElem?_set_ne hj.symm, ?_⟩⟩
  -- Another filter under the key would be found at its own index, too.
  intro other hother hkey
  have hfirst := (found_of_nodup hc hget).1
  have hsecond := (found_of_nodup hc hother).1
  rw [hkey, ← key_of_get? hf] at hsecond
  exact hj (Option.some.inj (hsecond.symm.trans hfirst))

/-- A form that is taken has been read and loaded. -/
theorem reloaded_of_edit {form : ChainForm} {result : EditResult}
    (h : c.edit form.edit = .ok (result, c')) : result = .done ∧ c.Reloaded c' := by
  cases hread : form.read c.registry with
  | error e =>
    rw [ChainForm.edit_of_refused hread] at h
    cases h
  | ok read =>
    obtain ⟨c'', hedit, hloaded⟩ := ChainForm.edit_of_read hread
    cases hedit.symm.trans h
    exact ⟨rfl, hloaded.reloaded fun e he => (ChainForm.read_sound hread e he).1⟩

/-- An edit that returns nothing else returns that it is done. -/
theorem result_of_done {ε : Type} {wrap : ε → EditError} {x : Except ε Chain}
    {result : EditResult} (h : done wrap x = .ok (result, c')) : result = .done := by
  cases x with
  | error e => cases h
  | ok c =>
    cases h
    rfl

/-- An edit that is made touches its target. -/
theorem touched_of_edit (hc : c.keys.Nodup) {e : Edit} {result : EditResult}
    (h : c.edit e = .ok (result, c')) : c.Touched c' e result := by
  cases e with
  | setName name =>
    cases h
    rfl
  | setSeed seed =>
    cases h
    rfl
  | add id =>
    obtain ⟨⟨key, c''⟩, hx, heq⟩ := Outcome.map_mapError_eq_ok h
    cases heq
    exact gained_of_insert hx
  | insert index id =>
    obtain ⟨⟨key, c''⟩, hx, heq⟩ := Outcome.map_mapError_eq_ok h
    cases heq
    exact gained_of_insert hx
  | remove key =>
    obtain ⟨⟨f, c''⟩, hx, heq⟩ := Outcome.map_mapError_eq_ok h
    cases heq
    exact lost_of_remove hc hx
  | move source target =>
    cases result_of_done h
    exact moved_of_move hc (done_eq_ok h)
  | setVisible key visible =>
    cases result_of_done h
    obtain ⟨f, hf, rfl⟩ := setVisible_eq_ok.mp (done_eq_ok h)
    exact retouched_of_replace hc hf rfl
  | setValue key control value =>
    cases result_of_done h
    obtain ⟨f, g, hf, hset, rfl⟩ := setValue_eq_ok.mp (done_eq_ok h)
    exact retouched_of_replace hc hf (Filter.revalued_of_setValue hset)
  | clear =>
    cases h
    rfl
  | decode text =>
    obtain ⟨rfl, hreloaded⟩ := @reloaded_of_edit c c' (.text text) result h
    exact hreloaded
  | load json =>
    obtain ⟨rfl, hreloaded⟩ := @reloaded_of_edit c c' (.json json) result h
    exact hreloaded

end Chain

/-- **An edit touches its target and nothing else, or nothing at all.** On a held chain whose
filters have different keys, an edit that is refused leaves the chain that was held, and the list
of refusals says which edits are refused and with which errors; only a whole chain may be refused
for another reason, which is that it is not read. An edit that is made touches what it names: one
filter in the row more, less or elsewhere, with the others as they stood without it, or one value
or one flag of the filter under the key. Edits of name, seed, values and visibility leave ids and
keys as they are, and in their order. -/
theorem edit_touches_target (c : Chain) (hc : c.keys.Nodup) (e : Edit) :
    (∀ err c', (Editor.perform e).run c = .error err c' → c' = c ∧
        ((∃ form : ChainForm, e = form.edit) ∨ ∃ cause, err = .chain cause)) ∧
      (∀ cause, (Editor.perform e).run c = .error (.chain cause) c ↔ c.Refuses e cause) ∧
      ∀ result c', (Editor.perform e).run c = .ok result c' →
        c.Touched c' e result ∧ (e.structural = false → c'.ids = c.ids ∧ c'.keys = c.keys) := by
  refine ⟨fun err c' h => ?_, fun cause => Chain.perform_eq_error, fun result c' h => ?_⟩
  · obtain ⟨hedit, rfl⟩ := Editor.refused_iff.mp h
    exact ⟨rfl, Chain.cause_of_edit hedit⟩
  · have hedit := Editor.performed_iff.mp h
    refine ⟨Chain.touched_of_edit hc hedit, fun he => ?_⟩
    have hholdings := c.holdings_step he
    rw [Chain.step_of_edit hedit] at hholdings
    rw [Chain.ids_eq_holdings, Chain.ids_eq_holdings, ← Chain.holdings_keys, ← Chain.holdings_keys,
      hholdings]
    exact ⟨rfl, rfl⟩

/-- The first of three filters is moved to the end and may be moved back, and a colour for its
first control, which takes a number, is refused. -/
theorem edit_touches_target_moved :
    let c := (Chain.new .builtin).run [.add "posterize", .add "hsl_adjust", .add "posterize"]
    c.keys = [⟨0⟩, ⟨1⟩, ⟨2⟩] ∧
      (∃ c', (Editor.perform (.move 0 2)).run c = .ok .done c' ∧
        c'.keys = [⟨1⟩, ⟨2⟩, ⟨0⟩] ∧ c.Moved c' 0 2) ∧
      ∃ err c', (Editor.perform (.setValue ⟨0⟩ 0 (.color ⟨1, 0, 0⟩))).run c = .error err c' ∧
        c' = c := by
  intro c
  have hkeys : c.keys = [⟨0⟩, ⟨1⟩, ⟨2⟩] := rfl
  have hc : c.keys.Nodup := by
    rw [hkeys]
    decide
  obtain ⟨c', hmove, hmoved⟩ : ∃ c', (Editor.perform (.move 0 2)).run c = .ok .done c' ∧
      c'.keys = [⟨1⟩, ⟨2⟩, ⟨0⟩] := ⟨_, rfl, rfl⟩
  obtain ⟨-, -, htouched⟩ := edit_touches_target c hc (.move 0 2)
  obtain ⟨err, c'', hvalue⟩ : ∃ err c'',
      (Editor.perform (.setValue ⟨0⟩ 0 (.color ⟨1, 0, 0⟩))).run c = .error err c'' := ⟨_, _, rfl⟩
  obtain ⟨hrefused, -, -⟩ := edit_touches_target c hc (.setValue ⟨0⟩ 0 (.color ⟨1, 0, 0⟩))
  exact ⟨hkeys, ⟨c', hmove, hmoved, (htouched _ c' hmove).1⟩, err, c'', hvalue,
    (hrefused err c'' hvalue).1⟩

end ColorChain
