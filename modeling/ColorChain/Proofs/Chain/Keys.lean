import ColorChain.Proofs.Chain.Whole
import Mathlib.Data.List.Perm.Basic
import Mathlib.Data.List.Perm.Subperm

/-! Keys name one filter for good.

An edit can take filters out, put them elsewhere and change their values, and it can put in
filters under keys from the counter on, which it then moves past them. `Follows` says this of two
chains, one edit or a whole history apart, and everything about keys follows from it: no two
filters share a key (`Keyed`), and a key that has lost its filter never gets another
(`Follows.notMem_keys`). -/
namespace ColorChain

/-! ### Keys in a row -/

/-- The keys that a counter gives out on its way from `low` to `high`. -/
def FilterKey.between (low high : Nat) : List FilterKey :=
  (List.range' low (high - low)).map FilterKey.mk

namespace FilterKey

variable {low high : Nat} {key : FilterKey}

theorem between_self (n : Nat) : between n n = [] := by
  simp [between]

theorem between_add (low n : Nat) : between low (low + n) = (List.range' low n).map mk := by
  rw [between, Nat.add_sub_cancel_left]

theorem mem_between : key ∈ between low high ↔ low ≤ key.number ∧ key.number < high := by
  obtain ⟨number⟩ := key
  simp only [between, List.mem_map, List.mem_range'_1, mk.injEq, exists_eq_right]
  omega

theorem nodup_between (low high : Nat) : (between low high).Nodup :=
  List.Nodup.map (fun _ _ h => FilterKey.mk.inj h) List.nodup_range'

theorem between_append {middle : Nat} (hlow : low ≤ middle) (hhigh : middle ≤ high) :
    between low middle ++ between middle high = between low high := by
  have hmiddle : middle = low + (middle - low) := by omega
  have hlength : high - low = middle - low + (high - middle) := by omega
  rw [between, between, between, ← List.map_append, hlength, ← List.range'_append_1, ← hmiddle]

end FilterKey

/-! ### What an edit does to keys -/

theorem Filter.setValues_key {f f' : Filter} {index : Nat} {values : List ControlValue}
    (h : f.setValues index values = .ok f') : f'.key = f.key := by
  induction values generalizing f index with
  | nil =>
    cases h
    rfl
  | cons value rest ih =>
    obtain ⟨g, hg, h⟩ := Outcome.bind_eq_ok.mp h
    obtain ⟨_, _, -, -, rfl⟩ := Filter.setValue_eq_ok.mp hg
    exact (ih h).trans rfl

theorem Entry.keys_filters {key : Nat} {es : List Entry} {fs : List Filter}
    (h : Entry.filters key es = .ok fs) :
    fs.map Filter.key = FilterKey.between key (key + fs.length) := by
  rw [FilterKey.between_add]
  induction es generalizing key fs with
  | nil =>
    cases h
    rfl
  | cons e rest ih =>
    obtain ⟨d, values⟩ := e
    obtain ⟨f, hf, h⟩ := Outcome.bind_eq_ok.mp h
    obtain ⟨fs', hfs, h⟩ := Outcome.bind_eq_ok.mp h
    cases h
    have hkey : f.key = ⟨key⟩ := Filter.setValues_key hf
    rw [List.map_cons, ih hfs, hkey, List.length_cons, List.range'_succ, List.map_cons]

namespace Chain

/-- The keys of the filters. -/
def keys (c : Chain) : List FilterKey := c.filters.map Filter.key

/-- What stays of every filter for as long as it is in the chain: its key and its definition. -/
def holdings (c : Chain) : List (FilterKey × Definition) :=
  c.filters.map fun f => (f.key, f.definition)

variable {c c' c'' : Chain}

theorem holdings_keys (c : Chain) : c.holdings.map Prod.fst = c.keys := by
  rw [holdings, keys, List.map_map]
  rfl

/-- The filter that is found under a key stands at the key's index. -/
theorem getElem?_indexOf {key : FilterKey} {f : Filter} (hf : c.get? key = some f) :
    c.filters[c.indexOf key]? = some f := by
  rwa [get?, List.find?_eq_getElem?_findIdx] at hf

/-- A filter in place of one with its key and definition. -/
theorem holdings_replace {key : FilterKey} {f g : Filter} (hf : c.get? key = some f)
    (hkey : g.key = f.key) (hdefinition : g.definition = f.definition) :
    (c.replace key g).holdings = c.holdings := by
  obtain ⟨hlt, hget⟩ := List.getElem?_eq_some_iff.mp (getElem?_indexOf hf)
  have hlength : c.indexOf key < (c.filters.map fun f => (f.key, f.definition)).length := by
    rw [List.length_map]
    exact hlt
  have hself := List.set_getElem_self hlength
  rw [List.getElem_map, hget] at hself
  rw [replace, holdings, holdings, List.map_set, hkey, hdefinition, hself]

/-- The chain `c'` may come after `c`: apart from filters under keys that `c` had yet to give out,
it holds none that `c` does not hold. -/
structure Follows (c c' : Chain) : Prop where
  nextKey : c.nextKey ≤ c'.nextKey
  holdings : ∃ fresh : List (FilterKey × Definition),
    fresh.map Prod.fst = FilterKey.between c.nextKey c'.nextKey ∧
      List.Subperm c'.holdings (c.holdings ++ fresh)

/-- No key is given out, and no filter is put in. -/
theorem Follows.of_subperm (hnext : c'.nextKey = c.nextKey)
    (h : List.Subperm c'.holdings c.holdings) : c.Follows c' := by
  refine ⟨Nat.le_of_eq hnext.symm, [], ?_, ?_⟩
  · rw [hnext, FilterKey.between_self]
    rfl
  · rw [List.append_nil]
    exact h

/-- A filter changes its values or its visibility. -/
theorem Follows.of_replace {key : FilterKey} {f g : Filter} (hf : c.get? key = some f)
    (hkey : g.key = f.key) (hdefinition : g.definition = f.definition) :
    c.Follows (c.replace key g) :=
  .of_subperm rfl (by rw [holdings_replace hf hkey hdefinition])

theorem Follows.refl (c : Chain) : c.Follows c := .of_subperm rfl (.refl _)

theorem Follows.trans (h : c.Follows c') (h' : c'.Follows c'') : c.Follows c'' := by
  obtain ⟨fresh, hfresh, hheld⟩ := h.holdings
  obtain ⟨fresh', hfresh', hheld'⟩ := h'.holdings
  refine ⟨Nat.le_trans h.nextKey h'.nextKey, fresh ++ fresh', ?_, ?_⟩
  · rw [List.map_append, hfresh, hfresh', FilterKey.between_append h.nextKey h'.nextKey]
  · rw [← List.append_assoc]
    exact hheld'.trans ((List.subperm_append_right _).mpr hheld)

theorem Change.follows (h : Change c c') : c.Follows c' := by
  cases h with
  | label => exact .of_subperm rfl (.refl _)
  | insert index d hi hd =>
    refine ⟨Nat.le_succ _, [(⟨c.nextKey⟩, d)], (FilterKey.between_add c.nextKey 1).symm, ?_⟩
    rw [holdings, List.map_insertIdx]
    have hlength : index ≤ c.holdings.length := by
      rw [holdings, List.length_map]
      exact hi
    have hperm := List.perm_insertIdx ((⟨c.nextKey⟩ : FilterKey), d) c.holdings hlength
    exact (hperm.trans (List.perm_append_singleton _ _).symm).subperm
  | remove key f hf => exact .of_subperm rfl ((List.eraseIdx_sublist _ _).map _).subperm
  | move source target f hf ht =>
    obtain ⟨hs, hf⟩ := List.getElem?_eq_some_iff.mp hf
    have hlength : target ≤ (c.filters.eraseIdx source).length := by
      rw [List.length_eraseIdx_of_lt hs]
      omega
    have hperm : List.Perm ((c.filters.eraseIdx source).insertIdx target f) c.filters :=
      (List.perm_insertIdx f _ hlength).trans (hf ▸ List.getElem_cons_eraseIdx_perm hs)
    exact .of_subperm rfl (hperm.map _).subperm
  | reveal key f visible hf => exact .of_replace hf rfl rfl
  | set key f f' control value hf hv =>
    obtain ⟨_, _, -, -, rfl⟩ := Filter.setValue_eq_ok.mp hv
    exact .of_replace hf rfl rfl
  | clear => exact .of_subperm rfl List.nil_subperm
  | load name es fs hes hfs =>
    refine ⟨Nat.le_add_right _ _, fs.map fun f => (f.key, f.definition), ?_, ?_⟩
    · rw [List.map_map]
      exact Entry.keys_filters hfs
    · exact (List.sublist_append_right _ _).subperm

/-- What comes about by edits follows on what was. -/
theorem follows_run (c : Chain) (es : List Edit) : c.Follows (c.run es) := by
  induction es generalizing c with
  | nil => exact .refl c
  | cons e rest ih => exact (step_change c e).follows.trans (ih _)

theorem Follows.keys (h : c.Follows c') :
    List.Subperm c'.keys (c.keys ++ FilterKey.between c.nextKey c'.nextKey) := by
  obtain ⟨fresh, hfresh, held, hperm, hsub⟩ := h.holdings
  refine ⟨held.map Prod.fst, ?_, ?_⟩
  · rw [← holdings_keys]
    exact hperm.map Prod.fst
  · rw [← holdings_keys, ← hfresh, ← List.map_append]
    exact hsub.map Prod.fst

/-- A key that is in use later is in use now, or has yet to be given out. -/
theorem Follows.key_cases (h : c.Follows c') {key : FilterKey} (hkey : key ∈ c'.keys) :
    key ∈ c.keys ∨ c.nextKey ≤ key.number ∧ key.number < c'.nextKey :=
  (List.mem_append.mp (h.keys.subset hkey)).imp_right FilterKey.mem_between.mp

/-! ### A filter under every key -/

/-- Where no two filters share a key, a filter is found under its key, where it is. -/
theorem found_of_nodup (hc : c.keys.Nodup) {i : Nat} {f : Filter} (hf : c.filters[i]? = some f) :
    c.position? f.key = some i ∧ c.get? f.key = some f := by
  obtain ⟨hi, hget⟩ := List.getElem?_eq_some_iff.mp hf
  have hother : ∀ j (hj : j < i), c.filters[j].key ≠ f.key := by
    intro j hj heq
    have hlength : c.keys.length = c.filters.length := List.length_map _
    have hj' : j < c.keys.length := by omega
    have hi' : i < c.keys.length := by omega
    have hkeys : c.keys[j] = c.keys[i] := by
      simp only [keys, List.getElem_map, heq, hget]
    have := (hc.getElem_inj_iff).mp hkeys
    omega
  have hposition : c.position? f.key = some i := by
    refine List.findIdx?_eq_some_iff_getElem.mpr ⟨hi, ?_, fun j hj => ?_⟩
    · simp only [hget, beq_self_eq_true]
    · simpa using hother j hj
  refine ⟨hposition, ?_⟩
  refine List.find?_eq_some_iff_getElem.mpr ⟨by simp, i, hi, hget, fun j hj => ?_⟩
  simpa using hother j hj

/-- No two filters share a key, and every key in use has been given out. -/
structure Keyed (c : Chain) : Prop where
  nodup : c.keys.Nodup
  below : ∀ key ∈ c.keys, key.number < c.nextKey

theorem keyed_new (r : Registry) : (Chain.new r).Keyed :=
  ⟨List.nodup_nil, fun _ h => absurd h List.not_mem_nil⟩

theorem Follows.keyed (h : c.Follows c') (hc : c.Keyed) : c'.Keyed := by
  have hdisjoint : List.Disjoint c.keys (FilterKey.between c.nextKey c'.nextKey) :=
    fun key hkey hfresh => by
      have hlt := hc.below key hkey
      have hle := (FilterKey.mem_between.mp hfresh).1
      omega
  have hall := hc.nodup.append (FilterKey.nodup_between _ _) hdisjoint
  obtain ⟨held, hperm, hsub⟩ := h.keys
  refine ⟨hperm.nodup (hsub.nodup hall), fun key hkey => ?_⟩
  rcases h.key_cases hkey with hold | ⟨-, hlt⟩
  · exact Nat.lt_of_lt_of_le (hc.below key hold) h.nextKey
  · exact hlt

namespace Keyed

theorem eq_of_key (hc : c.Keyed) {f g : Filter} (hf : f ∈ c.filters) (hg : g ∈ c.filters)
    (h : f.key = g.key) : f = g :=
  List.inj_on_of_nodup_map hc.nodup hf hg h

theorem found (hc : c.Keyed) {i : Nat} {f : Filter} (hf : c.filters[i]? = some f) :
    c.position? f.key = some i ∧ c.get? f.key = some f :=
  found_of_nodup hc.nodup hf

/-- A key is under the same definition for as long as it is in use. -/
theorem definition_eq (hc : c.Keyed) (h : c.Follows c') {f f' : Filter} (hf : f ∈ c.filters)
    (hf' : f' ∈ c'.filters) (hkey : f'.key = f.key) : f'.definition = f.definition := by
  obtain ⟨fresh, hfresh, hheld⟩ := h.holdings
  have hmem : (f'.key, f'.definition) ∈ c'.holdings := List.mem_map_of_mem hf'
  rcases List.mem_append.mp (hheld.subset hmem) with hold | hnew
  · obtain ⟨g, hg, heq⟩ := List.mem_map.mp hold
    obtain ⟨hgkey, hgdefinition⟩ := Prod.mk.inj heq
    rw [← hgdefinition, hc.eq_of_key hg hf (hgkey.trans hkey)]
  · -- A fresh key is not below the counter, where the keys in use are.
    have hge : f'.key ∈ FilterKey.between c.nextKey c'.nextKey := by
      rw [← hfresh]
      exact List.mem_map_of_mem (f := Prod.fst) hnew
    have hlt := hc.below f.key (List.mem_map_of_mem hf)
    have hle := (FilterKey.mem_between.mp hge).1
    rw [hkey] at hle
    omega

end Keyed

/-- Once a key that has been given out has no filter, it has none later. -/
theorem Follows.notMem_keys (h : c.Follows c') {key : FilterKey} (hlt : key.number < c.nextKey)
    (hkey : key ∉ c.keys) : key ∉ c'.keys := by
  intro hmem
  rcases h.key_cases hmem with hold | ⟨hle, -⟩
  · exact hkey hold
  · omega

/-! ### Keys without a filter -/

/-- A chain does not know a key: nothing is found under it, and no edit by it is made. -/
structure Unknown (c : Chain) (key : FilterKey) : Prop where
  get : c.get? key = none
  position : c.position? key = none
  remove : (Editor.remove key).run c = .error (.unknownKey key) c
  setVisible : ∀ visible, (Editor.setVisible key visible).run c = .error (.unknownKey key) c
  setValue : ∀ control value,
    (Editor.setValue key control value).run c = .error (.unknownKey key) c

theorem unknown_of_notMem {key : FilterKey} (h : key ∉ c.keys) : c.Unknown key := by
  have hother : ∀ f ∈ c.filters, ¬(f.key == key) = true := by
    intro f hf heq
    exact h (eq_of_beq heq ▸ List.mem_map_of_mem hf)
  have hget : c.get? key = none := List.find?_eq_none.mpr hother
  refine ⟨hget, List.findIdx?_eq_none_iff.mpr fun f hf => by simpa using hother f hf, ?_, ?_, ?_⟩
  · rw [Editor.remove_eq, Chain.remove, hget]
    rfl
  · intro visible
    rw [Editor.setVisible_eq, Chain.setVisible, hget]
    rfl
  · intro control value
    rw [Editor.setValue_eq, Chain.setValue, hget]
    rfl

end Chain

/-! ### Edits that leave keys and definitions -/

/-- Whether an edit may change which filters there are, and in which order. -/
def Edit.structural : Edit → Bool
  | .setName _ | .setSeed _ | .setVisible _ _ | .setValue _ _ _ => false
  | _ => true

namespace Chain

theorem ids_eq_holdings (c : Chain) : c.ids = c.holdings.map fun p => p.2.id := by
  rw [ids, holdings, List.map_map]
  rfl

theorem holdings_step (c : Chain) {e : Edit} (he : e.structural = false) :
    (c.step e).holdings = c.holdings := by
  cases e with
  | setName name => rfl
  | setSeed seed => rfl
  | setVisible key visible =>
    rw [step, edit, Chain.setVisible]
    cases hf : c.get? key with
    | none => rfl
    | some f => exact holdings_replace hf rfl rfl
  | setValue key control value =>
    rw [step, edit, Chain.setValue]
    cases hf : c.get? key with
    | none => rfl
    | some f =>
      dsimp only
      cases hv : f.setValue control value with
      | error e => rfl
      | ok f' =>
        obtain ⟨_, _, -, -, rfl⟩ := Filter.setValue_eq_ok.mp hv
        exact holdings_replace hf rfl rfl
  | _ => cases he

theorem ids_history (c : Chain) {es : List Edit} (hes : ∀ e ∈ es, e.structural = false) :
    (Editor.history c es).ids = c.ids := by
  rw [Editor.history_eq, ids_eq_holdings, ids_eq_holdings]
  induction es generalizing c with
  | nil => rfl
  | cons e rest ih =>
    obtain ⟨he, hrest⟩ := List.forall_mem_cons.mp hes
    rw [run, ih _ hrest, holdings_step c he]

end Chain

end ColorChain
