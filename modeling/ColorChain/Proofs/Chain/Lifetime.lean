import ColorChain.Proofs.Chain.Frame

/-! The life of a key.

A key is issued when its filter is put in and is in use until an edit takes the filter out: it is
removed, or the chain is cleared or loaded anew. What an edit issues are the keys that the counter
passes (`Editor.issues_eq`), and what it takes out are the keys that it drops (`Edit.drops`). From
then on a key is unknown, whatever is done next (`keys_never_reused`). -/
namespace ColorChain

/-! ### What is issued -/

/-- Whether an edit puts in filters read from a text or a JSON value. -/
def Edit.loads : Edit → Bool
  | .decode _ | .load _ => true
  | _ => false

namespace Editor

/-- The keys that an edit issues: the one that it returns, or those of the filters it loads. -/
def issues (c : Chain) (e : Edit) : List FilterKey :=
  match (perform e).run c with
  | .ok (.key key) _ => [key]
  | .ok _ c' => if e.loads then c'.keys else []
  | .error _ _ => []

/-- The keys that a history of edits issues, in order. -/
def issued (c : Chain) : List Edit → List FilterKey
  | [] => []
  | e :: rest => issues c e ++ issued (after c e) rest

/-- A form that is refused issues no key, and filters that are loaded have the keys from the
counter on. -/
theorem issues_form (c : Chain) (form : ChainForm) :
    issues c form.edit = FilterKey.between c.nextKey (after c form.edit).nextKey := by
  have hloads : form.edit.loads = true := by
    cases form <;> rfl
  cases hread : form.read c.registry with
  | error e =>
    rw [issues, after, perform_eq, ChainForm.edit_of_refused hread]
    exact (FilterKey.between_self _).symm
  | ok read =>
    obtain ⟨c', hedit, hloaded⟩ := ChainForm.edit_of_read hread
    rw [issues, after, perform_eq, hedit]
    simp only [Chain.settle, hloads, if_true]
    rw [hloaded.nextKey, FilterKey.between_add]
    exact hloaded.keys

/-- A filter that is put in has the key at the counter, which moves past it. -/
theorem issues_insert {c : Chain} {e : Edit} {index : Nat} {id : String}
    (h : c.edit e = ((c.insert index id).mapError .chain).map fun (key, c) => (.key key, c)) :
    issues c e = FilterKey.between c.nextKey (after c e).nextKey := by
  rw [issues, after, perform_eq, h, Chain.insert]
  by_cases hlt : c.filters.length < index
  · rw [if_pos hlt]
    exact (FilterKey.between_self _).symm
  · rw [if_neg hlt]
    cases c.registry.get? id with
    | none => exact (FilterKey.between_self _).symm
    | some d => exact (FilterKey.between_add _ 1).symm

/-- **An edit issues the keys that the counter passes**, whether it is made or refused. -/
theorem issues_eq (c : Chain) (e : Edit) :
    issues c e = FilterKey.between c.nextKey (after c e).nextKey := by
  have hnone : [] = FilterKey.between c.nextKey c.nextKey := (FilterKey.between_self _).symm
  cases e with
  | setName name => exact hnone
  | setSeed seed => exact hnone
  | add id => exact issues_insert rfl
  | insert index id => exact issues_insert rfl
  | remove key =>
    rw [issues, after, perform_eq, Chain.edit, Chain.remove]
    cases c.get? key with
    | none => exact hnone
    | some f => exact hnone
  | move source target =>
    rw [issues, after, perform_eq, Chain.edit, Chain.move]
    cases c.filters[source]? with
    | none => exact hnone
    | some f =>
      dsimp only
      by_cases ht : target < c.filters.length
      · rw [if_pos ht]
        exact hnone
      · rw [if_neg ht]
        exact hnone
  | setVisible key visible =>
    rw [issues, after, perform_eq, Chain.edit, Chain.setVisible]
    cases c.get? key with
    | none => exact hnone
    | some f => exact hnone
  | setValue key control value =>
    rw [issues, after, perform_eq, Chain.edit, Chain.setValue]
    cases c.get? key with
    | none => exact hnone
    | some f =>
      dsimp only
      cases f.setValue control value with
      | error e => exact hnone
      | ok f' => exact hnone
  | clear => exact hnone
  | decode text => exact issues_form c (.text text)
  | load json => exact issues_form c (.json json)

theorem issued_eq (c : Chain) (es : List Edit) :
    issued c es = FilterKey.between c.nextKey (history c es).nextKey := by
  induction es generalizing c with
  | nil => exact (FilterKey.between_self _).symm
  | cons e rest ih =>
    have hfirst : c.nextKey ≤ (after c e).nextKey := by
      rw [after_eq]
      exact (Chain.step_change c e).follows.nextKey
    have hrest : (after c e).nextKey ≤ (history (after c e) rest).nextKey := by
      rw [history_eq]
      exact (Chain.follows_run _ rest).nextKey
    rw [issued, issues_eq, ih, history, FilterKey.between_append hfirst hrest]

end Editor

/-! ### What is dropped -/

/-- The keys whose filters an edit takes out of a chain when it is made. -/
def Edit.drops (c : Chain) : Edit → List FilterKey
  | .remove key => [key]
  | .clear | .decode _ | .load _ => c.keys
  | _ => []

namespace Chain

/-- Of the filters in `c`, those under the keys `dropped` are not in `c'`, and all others are. -/
structure Without (c c' : Chain) (dropped : List FilterKey) : Prop where
  held : dropped ⊆ c.keys
  gone : ∀ key ∈ dropped, key ∉ c'.keys
  kept : ∀ key ∈ c.keys, key ∉ dropped → key ∈ c'.keys

variable {c c' : Chain}

/-- No filter is taken out. -/
theorem Without.of_subset (h : c.keys ⊆ c'.keys) : c.Without c' [] :=
  ⟨List.nil_subset _, fun _ hkey => absurd hkey List.not_mem_nil, fun _ hkey _ => h hkey⟩

/-- All filters are taken out. -/
theorem Without.of_disjoint (h : ∀ key ∈ c.keys, key ∉ c'.keys) : c.Without c' c.keys :=
  ⟨List.Subset.refl _, h, fun _ hkey hgone => absurd hkey hgone⟩

theorem Gained.without {index : Nat} {id : String} {key : FilterKey}
    (h : c.Gained c' index id key) : c.Without c' [] := by
  obtain ⟨d, -, hput⟩ := h.filter
  refine .of_subset fun other hother => ?_
  exact (hput.perm.map Filter.key).symm.subset (List.mem_cons_of_mem _ hother)

theorem Lost.without {key : FilterKey} {f : Filter} (h : c.Lost c' key f) :
    c.Without c' [key] := by
  obtain ⟨i, hput⟩ := h.filter
  have hkeys : c.keys.Perm (key :: c'.keys) := h.found ▸ hput.perm.map Filter.key
  refine ⟨fun other hother => ?_, fun other hother => ?_, fun other hother hne => ?_⟩
  · rw [List.mem_singleton.mp hother]
    exact hkeys.symm.subset List.mem_cons_self
  · rw [List.mem_singleton.mp hother]
    exact h.gone
  · refine (List.mem_cons.mp (hkeys.subset hother)).resolve_left fun heq => ?_
    exact hne (List.mem_singleton.mpr heq)

theorem Moved.without {source target : Nat} (h : c.Moved c' source target) : c.Without c' [] :=
  .of_subset (h.perm.map Filter.key).symm.subset

/-- The keys that loading gives out are not below the counter, where the keys in use are. -/
theorem Reloaded.without (h : c.Reloaded c') (hc : c.Keyed) : c.Without c' c.keys := by
  have hkeys : c'.keys = FilterKey.between c.nextKey (c.nextKey + c'.filters.length) := by
    rw [FilterKey.between_add]
    exact h.keys
  refine .of_disjoint fun key hkey hnew => ?_
  rw [hkeys] at hnew
  exact Nat.not_lt_of_le (FilterKey.mem_between.mp hnew).1 (hc.below key hkey)

theorem without_of_same {e : Edit} (he : e.structural = false) {result : EditResult}
    (h : c.edit e = .ok (result, c')) : c.Without c' [] := by
  have hkeys : c'.keys = c.keys := by
    rw [← step_of_edit h, ← holdings_keys, holdings_step c he, holdings_keys]
  exact .of_subset (hkeys ▸ List.Subset.refl _)

/-- **An edit that is made takes out what it drops**, and leaves every other filter in. -/
theorem without_of_edit (hc : c.Keyed) {e : Edit} {result : EditResult}
    (h : c.edit e = .ok (result, c')) : c.Without c' (e.drops c) := by
  have htouched := touched_of_edit hc.nodup h
  cases e with
  | setName name => exact without_of_same rfl h
  | setSeed seed => exact without_of_same rfl h
  | setVisible key visible => exact without_of_same rfl h
  | setValue key control value => exact without_of_same rfl h
  | add id =>
    cases result with
    | key key => exact Gained.without htouched
    | _ => cases htouched
  | insert index id =>
    cases result with
    | key key => exact Gained.without htouched
    | _ => cases htouched
  | remove key =>
    cases result with
    | filter f => exact Lost.without htouched
    | _ => cases htouched
  | move source target =>
    cases result with
    | done => exact Moved.without htouched
    | _ => cases htouched
  | clear =>
    cases h
    exact .of_disjoint fun _ _ => List.not_mem_nil
  | decode text => exact (@reloaded_of_edit c c' (.text text) result h).2.without hc
  | load json => exact (@reloaded_of_edit c c' (.json json) result h).2.without hc

theorem keyed_history (r : Registry) (es : List Edit) : (Editor.history (.new r) es).Keyed := by
  rw [Editor.history_eq]
  exact (follows_run _ es).keyed (keyed_new r)

theorem follows_history (c : Chain) (es : List Edit) : c.Follows (Editor.history c es) := by
  rw [Editor.history_eq]
  exact follows_run c es

theorem follows_of_edit {e : Edit} {result : EditResult} (h : c.edit e = .ok (result, c')) :
    c.Follows c' :=
  step_of_edit h ▸ (step_change c e).follows

/-- A key that an edit drops is unknown from then on. -/
theorem Without.unknown {dropped : List FilterKey} (h : c.Without c' dropped) (hc : c.Keyed)
    (hfollows : c.Follows c') {key : FilterKey} (hkey : key ∈ dropped) (later : List Edit) :
    (Editor.history c' later).Unknown key := by
  have hlt := Nat.lt_of_lt_of_le (hc.below key (h.held hkey)) hfollows.nextKey
  exact unknown_of_notMem ((follows_history c' later).notMem_keys hlt (h.gone key hkey))

end Chain

/-! ### Histories -/

/-- **Keys are unique and are not used again.** After any history of edits of a new chain, made
or refused, the filters have different keys, all below the counter, and each filter is found
under its key where it is. No key has been issued twice. The next edit, if it is made, takes out
the filters under the keys that it drops and no others, and those keys are unknown for good. And
whatever is done next, the counter does not go down, a key in use does not come to mean another
definition, and a key that was issued and has lost its filter stays unknown. -/
theorem keys_never_reused (r : Registry) (es : List Edit) :
    let c := Editor.history (.new r) es
    let issued := Editor.issued (.new r) es
    c.keys.Nodup ∧ (∀ key ∈ c.keys, key.number < c.nextKey) ∧
      (∀ i f, c.filters[i]? = some f → c.position? f.key = some i ∧ c.get? f.key = some f) ∧
      issued.Nodup ∧ c.keys ⊆ issued ∧
      (∀ e result c', (Editor.perform e).run c = .ok result c' → c.Without c' (e.drops c) ∧
        ∀ key ∈ e.drops c, ∀ later, (Editor.history c' later).Unknown key) ∧
      ∀ later, c.nextKey ≤ (Editor.history c later).nextKey ∧
        (∀ f ∈ c.filters, ∀ f' ∈ (Editor.history c later).filters, f'.key = f.key →
          f'.definition = f.definition) ∧
        ∀ key ∈ issued, key ∉ c.keys → (Editor.history c later).Unknown key := by
  intro c issued
  have hissued : issued = FilterKey.between 0 c.nextKey := Editor.issued_eq (.new r) es
  have hkeyed : c.Keyed := Chain.keyed_history r es
  refine ⟨hkeyed.nodup, hkeyed.below, fun i f hf => hkeyed.found hf, ?_, fun key hkey => ?_,
    fun e result c' h => ?_, fun later => ?_⟩
  · rw [hissued]
    exact FilterKey.nodup_between _ _
  · rw [hissued, FilterKey.mem_between]
    exact ⟨Nat.zero_le _, hkeyed.below key hkey⟩
  · have hedit := Editor.performed_iff.mp h
    have hwithout := Chain.without_of_edit hkeyed hedit
    exact ⟨hwithout, fun key hkey later =>
      hwithout.unknown hkeyed (Chain.follows_of_edit hedit) hkey later⟩
  · have hfollows := Chain.follows_history c later
    refine ⟨hfollows.nextKey, fun f hf f' hf' hkey => hkeyed.definition_eq hfollows hf hf' hkey,
      fun key hkey hgone => ?_⟩
    rw [hissued] at hkey
    exact Chain.unknown_of_notMem
      (hfollows.notMem_keys (FilterKey.mem_between.mp hkey).2 hgone)

/-- A filter is put in and then replaced by decoding, and the one that has replaced it is removed.
Their keys stay unknown when other filters are put in. -/
theorem keys_never_reused_replaced :
    let es : List Edit := [.add "posterize", .add "missing", .decode "posterize:9;~c"]
    let c := Editor.history (.new .builtin) es
    (⟨0⟩ : FilterKey) ∈ Editor.issued (.new .builtin) es ∧ (⟨0⟩ : FilterKey) ∉ c.keys ∧
      (Editor.history c [.clear, .add "posterize"]).Unknown ⟨0⟩ ∧
      ∃ f c', (Editor.perform (.remove ⟨1⟩)).run c = .ok (.filter f) c' ∧
        c.Without c' [⟨1⟩] ∧ (Editor.history c' [.add "posterize"]).Unknown ⟨1⟩ := by
  intro es c
  have hissued : (⟨0⟩ : FilterKey) ∈ Editor.issued (.new .builtin) es := by
    have : Editor.issued (.new .builtin) es = [⟨0⟩, ⟨1⟩] := rfl
    rw [this]
    exact List.mem_cons_self
  have hgone : (⟨0⟩ : FilterKey) ∉ c.keys := by
    have : c.keys = [⟨1⟩] := rfl
    rw [this]
    decide
  obtain ⟨f, c', hremove⟩ : ∃ f c', (Editor.perform (.remove ⟨1⟩)).run c = .ok (.filter f) c' :=
    ⟨_, _, rfl⟩
  obtain ⟨-, -, -, -, -, hnext, hlater⟩ := keys_never_reused .builtin es
  obtain ⟨-, -, hunknown⟩ := hlater [.clear, .add "posterize"]
  obtain ⟨hwithout, hdropped⟩ := hnext _ _ _ hremove
  exact ⟨hissued, hgone, hunknown _ hissued hgone, f, c', hremove, hwithout,
    hdropped _ List.mem_cons_self [.add "posterize"]⟩

end ColorChain
