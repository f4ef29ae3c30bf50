import ColorChain.Proofs.Chain.Whole

/-! Where the values of a chain come from.

An edit puts values into a chain in three ways: as the defaults of a definition, as the one value
that it sets, and as what it reads of a form. All other values were in the chain before
(`Chain.origin_step`). What holds of the values that come in these ways, and is kept where one
value is set, holds of all. -/
namespace ColorChain

/-- Where a filter of the chain that an edit leaves has its values from. -/
inductive Filter.Origin (c : Chain) (e : Edit) (f : Filter) : Prop
  | kept (g : Filter) (hg : g ∈ c.filters) (hdefinition : f.definition = g.definition)
      (hvalues : f.values = g.values)
  | fresh (hregistered : c.registry.get? f.id = some f.definition)
      (hvalues : f.values = f.definition.defaults)
  | set (key : FilterKey) (control : Nat) (value : ControlValue) (g : Filter)
      (he : e = .setValue key control value) (hg : g ∈ c.filters)
      (hset : g.setValue control value = .ok f)
  | read (form : ChainForm) (name : String) (es : List Entry) (entry : Entry)
      (he : e = form.edit) (hread : form.read c.registry = .ok (name, es)) (hentry : entry ∈ es)
      (hheld : entry.Held f)

namespace Chain

variable {c c' : Chain} {e : Edit} {f : Filter}

theorem origin_of_mem (h : f ∈ c.filters) : f.Origin c e := .kept f h rfl rfl

/-- Filters that are read of a form come from the form. -/
theorem origin_form (form : ChainForm) {result : EditResult}
    (h : c.edit form.edit = .ok (result, c')) : ∀ f ∈ c'.filters, f.Origin c form.edit := by
  cases hread : form.read c.registry with
  | error e =>
    rw [ChainForm.edit_of_refused hread] at h
    cases h
  | ok read =>
    obtain ⟨name, es⟩ := read
    obtain ⟨c₁, hc, hloaded⟩ := ChainForm.edit_of_read hread
    cases hc.symm.trans h
    intro f hf
    obtain ⟨entry, hentry, hheld⟩ := Entry.exists_held hloaded.filters f hf
    exact .read form name es entry rfl hread hentry hheld

/-- A filter that is put in is new, the others were there. -/
theorem origin_insert {index : Nat} {id : String} {key : FilterKey}
    (h : c.insert index id = .ok (key, c')) : ∀ f ∈ c'.filters, f.Origin c e := by
  obtain ⟨d, hi, hd, -, rfl⟩ := insert_eq_ok.mp h
  intro f hf
  rcases (List.mem_insertIdx hi).mp hf with rfl | hf
  · exact .fresh (Registry.get?_id hd) rfl
  · exact origin_of_mem hf

/-- What an edit leaves was there, or is one of the three that an edit can put in. -/
theorem origin_edit {result : EditResult} (h : c.edit e = .ok (result, c')) :
    ∀ f ∈ c'.filters, f.Origin c e := by
  cases e with
  | setName name =>
    cases h
    exact fun f hf => origin_of_mem hf
  | setSeed seed =>
    cases h
    exact fun f hf => origin_of_mem hf
  | add id =>
    obtain ⟨⟨key, c''⟩, hx, heq⟩ := Outcome.map_mapError_eq_ok h
    cases heq
    exact origin_insert hx
  | insert index id =>
    obtain ⟨⟨key, c''⟩, hx, heq⟩ := Outcome.map_mapError_eq_ok h
    cases heq
    exact origin_insert hx
  | remove key =>
    obtain ⟨⟨g, c''⟩, hx, heq⟩ := Outcome.map_mapError_eq_ok h
    cases heq
    obtain ⟨-, rfl⟩ := remove_eq_ok.mp hx
    exact fun f hf => origin_of_mem (List.mem_of_mem_eraseIdx hf)
  | move source target =>
    obtain ⟨g, hg, ht, rfl⟩ := move_eq_ok.mp (done_eq_ok h)
    exact fun f hf => origin_of_mem (mem_of_mem_move hg ht hf)
  | setVisible key visible =>
    obtain ⟨g, hg, rfl⟩ := setVisible_eq_ok.mp (done_eq_ok h)
    intro f hf
    rcases List.mem_or_eq_of_mem_set hf with hf | rfl
    · exact origin_of_mem hf
    · exact .kept g (mem_of_get? hg) rfl rfl
  | setValue key control value =>
    obtain ⟨g, g', hg, hset, rfl⟩ := setValue_eq_ok.mp (done_eq_ok h)
    intro f hf
    rcases List.mem_or_eq_of_mem_set hf with hf | rfl
    · exact origin_of_mem hf
    · exact .set key control value g rfl (mem_of_get? hg) hset
  | clear =>
    cases h
    simp [clear]
  | decode text => exact origin_form (.text text) h
  | load json => exact origin_form (.json json) h

/-- **The values of a chain come from its definitions, its edits and the forms that it read.** -/
theorem origin_step (c : Chain) (e : Edit) : ∀ f ∈ (c.step e).filters, f.Origin c e := by
  unfold step
  split
  · next h => exact origin_edit h
  · exact fun f => origin_of_mem

end Chain
end ColorChain
