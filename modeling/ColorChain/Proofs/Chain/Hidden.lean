import ColorChain.Proofs.Chain.Frame
import ColorChain.Proofs.Spectrum.Painting

/-! Hidden filters do nothing to a colour.

Evaluation takes of a row of filters the definitions and values of those that are visible, in their
order (`Filter.shown`). A hidden filter that is put in leaves no mark there, wherever it is put
(`Filter.PutIn.shown`). Two chains that show the same over the same seed have one colour and one
raster (`Chain.LooksLike`), and an edit of a hidden filter leads to a chain that looks like the one
before (`Chain.OnHidden.looksLike`). Taking out what is hidden, one filter after the other, leaves
the chain of what is visible (`Chain.run_remove_hidden`). -/
namespace ColorChain

/-! ### What a row shows -/

namespace Filter

/-- What evaluation takes of a row of filters. -/
def shown (fs : List Filter) : List (Definition × List ControlValue) :=
  (fs.filter visible).map fun f => (f.definition, f.values)

/-- The keys of the filters that evaluation passes over. -/
def hiddenKeys (fs : List Filter) : List FilterKey := (fs.filter fun f => !f.visible).map key

variable {i : Nat} {f g : Filter} {fs gs : List Filter}

theorem shown_append (fs gs : List Filter) : shown (fs ++ gs) = shown fs ++ shown gs := by
  rw [shown, List.filter_append, List.map_append]
  rfl

theorem shown_cons_hidden (hf : f.visible = false) (fs : List Filter) :
    shown (f :: fs) = shown fs := by
  rw [shown, List.filter_cons_of_neg (Bool.eq_false_iff.mp hf)]
  rfl

theorem shown_visible (fs : List Filter) : shown (fs.filter visible) = shown fs := by
  rw [shown, List.filter_filter]
  simp only [Bool.and_self]
  rfl

/-- A hidden filter is not seen where it is put in. -/
theorem PutIn.shown (h : PutIn i f fs gs) (hf : f.visible = false) :
    Filter.shown gs = Filter.shown fs := by
  obtain ⟨hi, hget⟩ := List.getElem?_eq_some_iff.mp h.there
  calc Filter.shown gs = Filter.shown (gs.take i ++ f :: gs.drop (i + 1)) := by
        rw [← hget, ← List.drop_eq_getElem_cons hi, List.take_append_drop]
    _ = Filter.shown (gs.take i ++ gs.drop (i + 1)) := by
        rw [shown_append, shown_append, shown_cons_hidden hf]
    _ = Filter.shown fs := by rw [← List.eraseIdx_eq_take_drop_succ, h.others]

/-- Another filter stands where one stood among the same others. -/
theorem PutIn.set (h : gs[i]? = some f) (g : Filter) : PutIn i g (gs.eraseIdx i) (gs.set i g) where
  there := List.getElem?_set_self (List.getElem?_eq_some_iff.mp h).1
  others := List.eraseIdx_set_eq

end Filter

namespace Chain

variable {c d d' : Chain}

/-- A chain makes of a colour what the filters it shows do. -/
theorem apply_eq_shown (c : Chain) (color : Color) : c.apply color =
    (Filter.shown c.filters).foldl
      (fun color p => Vector.unitClamp (p.1.apply color (p.1.vectorize p.2))) color := by
  rw [Filter.shown, List.foldl_map]
  rfl

/-- A row of filters in two parts does what the first part does, and then the second. -/
theorem apply_append (c : Chain) (fs gs : List Filter) (color : Color) :
    { c with filters := fs ++ gs }.apply color =
      { c with filters := gs }.apply ({ c with filters := fs }.apply color) := by
  simp only [apply_eq_shown, Filter.shown_append, List.foldl_append]

theorem apply_singleton (c : Chain) (f : Filter) (color : Color) :
    { c with filters := [f] }.apply color =
      if f.visible then Vector.unitClamp (f.apply color) else color := by
  cases hf : f.visible with
  | false | true =>
    rw [apply, List.filter_singleton, hf]
    rfl

/-! ### Chains that look like one another -/

/-- The chains show the same filters over the same seed. Hidden filters, keys, names and registries
do not count. -/
structure LooksLike (c d : Chain) : Prop where
  shown : Filter.shown c.filters = Filter.shown d.filters
  seed : c.seed = d.seed

namespace LooksLike

theorem refl (c : Chain) : c.LooksLike c := ⟨rfl, rfl⟩

theorem trans (h : c.LooksLike d) (h' : d.LooksLike d') : c.LooksLike d' :=
  ⟨h.shown.trans h'.shown, h.seed.trans h'.seed⟩

theorem apply (h : c.LooksLike d) (color : Color) : c.apply color = d.apply color := by
  rw [apply_eq_shown, apply_eq_shown, h.shown]

theorem color (h : c.LooksLike d) : c.color = d.color := by
  rw [Chain.color, Chain.color, h.apply, h.seed]

/-- The loops ask the chain for the colours of pixels and for nothing else. -/
theorem paint (h : c.LooksLike d) (width height : Nat) (x y : Direction) :
    Spectrum.paint c width height x y = Spectrum.paint d width height x y := by
  have hpixel : Spectrum.pixelColor c width height x y =
      Spectrum.pixelColor d width height x y := by
    funext column row
    rw [Spectrum.pixelColor, Spectrum.pixelColor, h.apply, h.seed]
  rw [Spectrum.paint_eq, Spectrum.paint_eq, hpixel]

end LooksLike

/-! ### Edits of hidden filters -/

/-- The edit is of a filter that is hidden in the chain: of its values, of its place, or of its
being there. -/
inductive OnHidden (c : Chain) : Edit → Prop where
  | setValue {key f} (hf : c.get? key = some f) (hidden : f.visible = false) (control : Nat)
      (value : ControlValue) : OnHidden c (.setValue key control value)
  | move {source f} (hf : c.filters[source]? = some f) (hidden : f.visible = false)
      (target : Nat) : OnHidden c (.move source target)
  | remove {key f} (hf : c.get? key = some f) (hidden : f.visible = false) :
      OnHidden c (.remove key)

/-- Every edit of the history is of a filter that is hidden by then. -/
def Unseen (c : Chain) : List Edit → Prop
  | [] => True
  | e :: rest => c.OnHidden e ∧ (c.step e).Unseen rest

variable {e : Edit} {key : FilterKey} {f g : Filter}

/-- A hidden filter in place of another. -/
theorem looksLike_replace (hf : c.get? key = some f) (hidden : f.visible = false)
    (hg : g.visible = false) : (c.replace key g).LooksLike c where
  shown :=
    have hat := getElem?_indexOf hf
    ((Filter.PutIn.set hat g).shown hg).trans ((Filter.PutIn.eraseIdx hat).shown hidden).symm
  seed := rfl

theorem looksLike_remove (hf : c.get? key = some f) (hidden : f.visible = false) :
    { c with filters := c.filters.eraseIdx (c.indexOf key) }.LooksLike c where
  shown := ((Filter.PutIn.eraseIdx (getElem?_indexOf hf)).shown hidden).symm
  seed := rfl

/-- The neighbours that a move shifts are shown in the order they had. -/
theorem looksLike_move {source target : Nat} (hf : c.filters[source]? = some f)
    (hidden : f.visible = false) (htarget : target < c.filters.length) :
    { c with filters := (c.filters.eraseIdx source).insertIdx target f }.LooksLike c where
  shown := by
    have hout : Filter.PutIn source f (c.filters.eraseIdx source) c.filters := .eraseIdx hf
    have hlength := hout.perm.length_eq
    rw [List.length_cons] at hlength
    have hin := Filter.PutIn.insertIdx (i := target) (f := f)
      (show target ≤ (c.filters.eraseIdx source).length by omega)
    exact (hin.shown hidden).trans (hout.shown hidden).symm
  seed := rfl

/-- An edit of a hidden filter leads to a chain that looks the same. -/
theorem OnHidden.looksLike (he : c.OnHidden e) : (c.step e).LooksLike c := by
  unfold step
  split
  · next result c' h =>
    cases he with
    | setValue hf hidden control value =>
      obtain ⟨f, g, hf', hset, rfl⟩ := setValue_eq_ok.mp (done_eq_ok h)
      cases hf.symm.trans hf'
      exact looksLike_replace hf hidden ((Filter.revalued_of_setValue hset).visible.trans hidden)
    | move hf hidden target =>
      obtain ⟨f, hf', htarget, rfl⟩ := move_eq_ok.mp (done_eq_ok h)
      cases hf.symm.trans hf'
      exact looksLike_move hf hidden htarget
    | remove hf hidden =>
      obtain ⟨⟨f, c''⟩, hremove, heq⟩ := Outcome.map_mapError_eq_ok h
      cases heq
      obtain ⟨-, rfl⟩ := remove_eq_ok.mp hremove
      exact looksLike_remove hf hidden
  · exact .refl c

/-- So does a history of them, each of a filter that is hidden when its turn comes. -/
theorem Unseen.looksLike {es : List Edit} (hes : c.Unseen es) : (c.run es).LooksLike c := by
  induction es generalizing c with
  | nil => exact .refl c
  | cons e rest ih => exact (ih hes.2).trans hes.1.looksLike

/-! ### Taking out what is hidden -/

/-- The chain of the visible filters alone. -/
def withoutHidden (c : Chain) : Chain := { c with filters := c.filters.filter Filter.visible }

theorem looksLike_withoutHidden (c : Chain) : c.LooksLike c.withoutHidden :=
  ⟨(Filter.shown_visible c.filters).symm, rfl⟩

/-- Where keys differ, taking out the first filter under a key takes out all there are. -/
theorem eraseIdx_key {fs : List Filter} (hfs : (fs.map Filter.key).Nodup) (key : FilterKey) :
    fs.eraseIdx (fs.findIdx fun f => f.key == key) = fs.filter fun f => f.key ≠ key := by
  induction fs with
  | nil => rfl
  | cons f rest ih =>
    obtain ⟨hnot, hrest⟩ := List.nodup_cons.mp hfs
    by_cases hkey : f.key = key
    · have hall : ∀ g ∈ rest, decide (g.key ≠ key) = true := fun g hg =>
        decide_eq_true fun h => hnot (List.mem_map.mpr ⟨g, hg, h.trans hkey.symm⟩)
      simp only [List.findIdx_cons, hkey, beq_self_eq_true, cond_true, List.eraseIdx_cons_zero]
      rw [List.filter_cons_of_neg (by simpa using hkey), List.filter_eq_self.mpr hall]
    · have hne : (f.key == key) = false := beq_false_of_ne hkey
      simp only [List.findIdx_cons, hne, cond_false, List.eraseIdx_cons_succ]
      rw [List.filter_cons_of_pos (by simpa using hkey), ih hrest]

/-- A key that is not there is refused, and nothing is taken out. -/
theorem step_remove (hc : c.keys.Nodup) (key : FilterKey) : c.step (.remove key) =
    { c with filters := c.filters.filter fun f => f.key ≠ key } := by
  rw [← eraseIdx_key hc key]
  cases hget : c.get? key with
  | some f => simp only [step, edit, remove, hget, Except.mapError, Except.map, indexOf]
  | none =>
    have hlength : c.filters.findIdx (fun f => f.key == key) = c.filters.length :=
      List.findIdx_eq_length.mpr (by simpa using List.find?_eq_none.mp hget)
    simp only [step, edit, remove, hget, Except.mapError, Except.map, hlength,
      List.eraseIdx_of_length_le le_rfl]

theorem run_remove (hc : c.keys.Nodup) (keys : List FilterKey) : c.run (keys.map .remove) =
    { c with filters := c.filters.filter fun f => f.key ∉ keys } := by
  induction keys generalizing c with
  | nil => simp [run]
  | cons key rest ih =>
    have hsub : (c.filters.filter fun f => f.key ≠ key).Sublist c.filters := List.filter_sublist
    have hkeys : (c.step (.remove key)).keys.Nodup := by
      rw [step_remove hc]
      exact hc.sublist (hsub.map Filter.key)
    rw [List.map_cons, run, ih hkeys, step_remove hc]
    simp only [List.filter_filter, List.mem_cons, not_or, Bool.decide_and, Bool.and_comm]

/-- The program's own removals of all hidden filters leave the visible ones. -/
theorem run_remove_hidden (hc : c.keys.Nodup) :
    c.run ((Filter.hiddenKeys c.filters).map .remove) = c.withoutHidden := by
  rw [run_remove hc, withoutHidden]
  congr 1
  refine List.filter_congr fun f hf => ?_
  have hiff : f.key ∈ Filter.hiddenKeys c.filters ↔ f.visible = false := by
    constructor
    · intro hmem
      obtain ⟨g, hg, hkey⟩ := List.mem_map.mp hmem
      obtain ⟨hmem, hidden⟩ := List.mem_filter.mp hg
      cases List.inj_on_of_nodup_map hc hmem hf hkey
      simpa using hidden
    · intro hidden
      exact List.mem_map.mpr ⟨f, List.mem_filter.mpr ⟨hf, by simp [hidden]⟩, rfl⟩
  simp [hiff]

end Chain

/-- **Hidden filters do nothing to a colour.** A chain makes of every colour what the chain of its
visible filters makes of it, and where keys differ, as they do after every history, that is the
chain left when each hidden filter is removed. Any two chains that show the same definitions and
values in the same order over the same seed have one colour and are painted alike at every size and
along all axes, whatever is hidden in each and wherever it stands. A history that sets values of
hidden filters, moves or removes them changes neither the colour nor a raster. Two rows of filters
one after the other do what the first does, and then what the second does, and of a row of one the
result is held within the unit range, or the colour stays as it is where the filter is hidden. -/
theorem hidden_filters_inert (c : Chain) :
    (∀ color, c.apply color = c.withoutHidden.apply color) ∧
      (c.keys.Nodup →
        c.run ((Filter.hiddenKeys c.filters).map .remove) = c.withoutHidden) ∧
      (∀ d : Chain, Filter.shown c.filters = Filter.shown d.filters → c.seed = d.seed →
        c.color = d.color ∧ ∀ width height x y,
          Spectrum.paint c width height x y = Spectrum.paint d width height x y) ∧
      (∀ es, c.Unseen es → (c.run es).color = c.color ∧ ∀ width height x y,
        Spectrum.paint (c.run es) width height x y = Spectrum.paint c width height x y) ∧
      (∀ fs gs color, { c with filters := fs ++ gs }.apply color =
        { c with filters := gs }.apply ({ c with filters := fs }.apply color)) ∧
      ∀ f color, { c with filters := [f] }.apply color =
        if f.visible then Vector.unitClamp (f.apply color) else color := by
  refine ⟨c.looksLike_withoutHidden.apply, Chain.run_remove_hidden, fun d hshown hseed => ?_,
    fun es hes => ?_, c.apply_append, c.apply_singleton⟩
  · have hlooks : c.LooksLike d := ⟨hshown, hseed⟩
    exact ⟨hlooks.color, hlooks.paint⟩
  · exact ⟨hes.looksLike.color, hes.looksLike.paint⟩

/-- Of two filters the first is hidden, is moved behind the other and is then removed. The chain
shows what another chain with one filter does. -/
theorem hidden_filters_inert_moved :
    let c := (Chain.new .builtin).run
      [.add "hsl_adjust", .add "posterize", .setVisible ⟨0⟩ false]
    let d := (Chain.new .builtin).run [.add "posterize"]
    let es := [.move 0 1, .setValue ⟨0⟩ 0 (.number 1), .remove ⟨0⟩]
    c.visibility = [false, true] ∧ c.Unseen es ∧ (c.run es).color = d.color ∧
      Spectrum.paint c 3 2 ⟨.hue, true⟩ ⟨.lightness, false⟩ =
        Spectrum.paint d 3 2 ⟨.hue, true⟩ ⟨.lightness, false⟩ ∧
      c.run [.remove ⟨0⟩] = c.withoutHidden := by
  intro c d es
  obtain ⟨-, hremoved, htwo, hedited, -⟩ := hidden_filters_inert c
  have hkeys : c.keys = [⟨0⟩, ⟨1⟩] := rfl
  have hes : c.Unseen es :=
    ⟨.move rfl rfl 1, .setValue rfl rfl 0 (.number 1), .remove rfl rfl, trivial⟩
  obtain ⟨hcolor, hpaint⟩ := htwo d rfl rfl
  refine ⟨rfl, hes, (hedited es hes).1.trans hcolor, hpaint 3 2 _ _, hremoved ?_⟩
  rw [hkeys]
  decide

end ColorChain
