import ColorChain.Proofs.Chain.Sound
import ColorChain.Proofs.Program.Synthesis
import ColorChain.Proofs.Program.UniformBlock

/-! A program computes what its chain computes.

The layout of a program counts the slots of definitions, the block is filled with the slots
of filters, and the two agree position by position: the run of a filter starts where the
slots of the filters before it end (`slotsOf_run`), and its flag is the filter's own.
`shade_uniforms` says what follows: whenever the active program is one of the chain's ids,
evaluating it on the chain's uniform block is applying the chain. -/
namespace ColorChain

/-- A definition that makes equally many slots of equally many values. -/
def Definition.Steady (d : Definition) : Prop :=
  ∀ vs ws : List ControlValue, vs.length = ws.length →
    (d.vectorize vs).length = (d.vectorize ws).length

/-- A filter has the slots that its definition declares. -/
theorem Filter.Sound.length_slots {r : Registry} {f : Filter} (hf : f.Sound r)
    (hd : f.definition.Steady) : f.slots.length = f.definition.slotCount := by
  have hvalid := r.valid f.definition (Registry.mem_of_get? hf.registered)
  rw [Filter.slots, hd f.values f.definition.defaults, Definition.length_vectorize_defaults hvalid]
  rw [hf.values, Definition.defaults, List.length_map]

/-- Registered filters resolve to their definitions. -/
theorem Registry.resolve_ids {r : Registry} {fs : List Filter} (hfs : ∀ f ∈ fs, f.Sound r) :
    r.resolve (fs.map Filter.id) = .ok (fs.map Filter.definition) := by
  induction fs with
  | nil => rfl
  | cons f rest ih =>
    obtain ⟨hf, hrest⟩ := List.forall_mem_cons.mp hfs
    rw [List.map_cons, resolve, hf.registered]
    simp only [ih hrest]
    rfl

/-! ### Layouts -/

namespace Layout

theorem length_runs (base : Nat) (ds : List Definition) : (runs base ds).length = ds.length := by
  induction ds generalizing base with
  | nil => rfl
  | cons d rest ih => rw [runs, List.length_cons, ih, List.length_cons]

theorem counts_runs (base : Nat) (ds : List Definition) :
    (runs base ds).map FilterSlots.count = ds.map Definition.slotCount := by
  induction ds generalizing base with
  | nil => rfl
  | cons d rest ih => rw [runs, List.map_cons, List.map_cons, ih]

/-- Every run ends where the slots of all definitions do, or before. -/
theorem end_le_of_mem_runs {base : Nat} {ds : List Definition} {run : FilterSlots}
    (h : run ∈ runs base ds) :
    run.base + run.count ≤ base + (ds.map Definition.slotCount).sum := by
  induction ds generalizing base with
  | nil => cases h
  | cons d rest ih =>
    rw [List.map_cons, List.sum_cons]
    rcases List.mem_cons.mp h with rfl | h
    · show base + d.slotCount ≤ _
      omega
    · have := ih h
      omega

/-- The filters of a chain have the slots that their layout counts. -/
theorem slotCount_eq_length {r : Registry} (hr : ∀ d ∈ r.definitions, d.Steady)
    {fs : List Filter} (hfs : ∀ f ∈ fs, f.Sound r) :
    (ofDefinitions (fs.map Filter.definition)).slotCount = (fs.flatMap Filter.slots).length := by
  rw [slotCount, ofDefinitions, counts_runs]
  induction fs with
  | nil => rfl
  | cons f rest ih =>
    obtain ⟨hf, hrest⟩ := List.forall_mem_cons.mp hfs
    have hslots := hf.length_slots (hr _ (Registry.mem_of_get? hf.registered))
    rw [List.map_cons, List.map_cons, List.sum_cons, List.flatMap_cons, List.length_append,
      ih hrest, hslots]

theorem filterCount_ofDefinitions (ds : List Definition) :
    (ofDefinitions ds).filterCount = ds.length :=
  length_runs 0 ds

end Layout

/-! ### Evaluating -/

namespace UniformBlock

variable {b : UniformBlock} {r : Registry}

/-- The run behind the slots of the filters before holds the filter's own slots. -/
theorem slotsOf_run {before pad : List Slot} {f : Filter} {after : List Filter}
    {run : FilterSlots} (hb : b.params = before ++ (f :: after).flatMap Filter.slots ++ pad)
    (hbase : run.base = before.length) (hcount : run.count = f.slots.length) :
    b.slotsOf run = f.slots := by
  rw [slotsOf, hb, hbase, hcount, List.flatMap_cons, List.append_assoc, List.append_assoc,
    List.drop_left, List.take_left]

/-- From any position on, the program does what the remaining filters do: the visible ones
are applied in order and the hidden ones skipped. The induction is on the filters, with the
slots of those before the position in front of the parameters. -/
theorem shadeFrom_runs (hr : ∀ d ∈ r.definitions, d.Steady) (before pad : List Slot)
    (position : Nat) {after : List Filter} (hfs : ∀ f ∈ after, f.Sound r)
    (hparams : b.params = before ++ after.flatMap Filter.slots ++ pad)
    (hshows : ∀ i, i < after.length →
      b.shows (position + i) = (after[i]?.map Filter.visible).getD false) (color : Color) :
    b.shadeFrom r position color (Layout.runs before.length (after.map Filter.definition)) =
      (after.filter Filter.visible).foldl
        (fun color f => Vector.unitClamp (f.apply color)) color := by
  induction after generalizing before position color with
  | nil => rfl
  | cons f rest ih =>
    obtain ⟨hf, hrest⟩ := List.forall_mem_cons.mp hfs
    have hlen := hf.length_slots (hr _ (Registry.mem_of_get? hf.registered))
    have hshow : b.shows position = f.visible := by
      simpa using hshows 0 (by simp)
    have htail := ih (before ++ f.slots) (position + 1) hrest
      (by simp only [hparams, List.flatMap_cons, List.append_assoc])
      (by
        intro i hi
        have := hshows (i + 1) (by simpa using hi)
        rwa [Nat.add_comm i 1, ← Nat.add_assoc, Nat.add_comm 1 i, List.getElem?_cons_succ] at this)
    rw [List.length_append, hlen] at htail
    rw [List.map_cons, Layout.runs, shadeFrom, htail]
    have hslots : b.slotsOf ⟨f.definition.id, before.length, f.definition.slotCount⟩ = f.slots :=
      slotsOf_run hparams rfl hlen.symm
    have hget : r.get? f.definition.id = some f.definition := hf.registered
    simp only [shadeFilter, hshow, hget, hslots]
    cases hv : f.visible
    · rw [List.filter_cons_of_neg (by simp [hv])]
      rfl
    · rw [List.filter_cons_of_pos (by simp [hv])]
      rfl

end UniformBlock

/-! ### Chains and their programs -/

/-- The block of a chain fits the program of the chain's ids, and the program on it is the
chain. -/
theorem Chain.Sound.shade_write {c : Chain} (hc : c.Sound)
    (hr : ∀ d ∈ c.registry.definitions, d.Steady) {l : Layout}
    (hl : l = Layout.ofDefinitions (c.filters.map Filter.definition)) :
    ∃ u, (UniformBlock.new l).write c.slots c.visibility = .ok u ∧ u.Fits l ∧
      ∀ color, u.shade c.registry l color = c.apply color := by
  have hslots : c.slots.length = l.slotCount := by
    rw [hl, Layout.slotCount_eq_length hr hc, slots]
  have hfilters : l.filterCount = c.filters.length := by
    rw [hl, Layout.filterCount_ofDefinitions, List.length_map]
  have hflags : c.visibility.length = l.filterCount := by
    rw [hfilters, visibility, List.length_map]
  obtain ⟨u, hu, hfits, hparams, hvisible⟩ := (UniformBlock.fits_new l).write hslots hflags
  refine ⟨u, hu, hfits, fun color => ?_⟩
  have hshows : ∀ i, i < c.filters.length →
      u.shows (0 + i) = (c.filters[i]?.map Filter.visible).getD false := by
    intro i hi
    rw [Nat.zero_add, UniformBlock.shows_write hvisible (by rw [hfilters]; exact hi), visibility,
      List.getElem?_map]
  rw [UniformBlock.shade, hl]
  exact UniformBlock.shadeFrom_runs hr [] _ 0 hc hparams hshows color

/-- The words of every run and the flag of every position are words of the block. -/
theorem UniformBlock.Fits.within {u : UniformBlock} {ds : List Definition}
    (hu : u.Fits (.ofDefinitions ds)) :
    (∀ run ∈ (Layout.ofDefinitions ds).filters, run.base + run.count ≤ u.params.length) ∧
      ∀ i, i < (Layout.ofDefinitions ds).filters.length → i / 4 < u.visible.length := by
  refine ⟨fun run hrun => ?_, fun i hi => ?_⟩
  · have hend := Layout.end_le_of_mem_runs hrun
    have hcount : (Layout.ofDefinitions ds).slotCount = (ds.map Definition.slotCount).sum :=
      congrArg List.sum (Layout.counts_runs 0 ds)
    rw [hu.params, Layout.paramLength, hcount]
    omega
  · rw [hu.visible, Layout.visibleLength, Layout.filterCount]
    omega

/-- **A program of a chain's ids does what the chain does.** Over any registry of steady
definitions, after any edits of the chain and any history of the synthesizer: if the active
program carries the chain's ids, the chain's uniform block is made, is as long as the
program's layout, holds every word that the program reads, and evaluating the program on it
is applying the chain. -/
theorem shade_uniforms {σ P : Type} (r : Registry) (hr : ∀ d ∈ r.definitions, d.Steady)
    (edits : List Edit) (b : Backend σ P) (config : ProgramConfig) (w : σ)
    (steps : List SynthesizerStep) (a : ActiveProgram P)
    (ha : (Synthesizer.run b (.new r config, w) steps).1.active = some a)
    (hids : a.source.ids = ((Chain.new r).run edits).ids) :
    ∃ u, (Synthesizer.run b (.new r config, w) steps).1.uniforms ((Chain.new r).run edits) =
        .ok (some u) ∧
      u.bytes.length = a.source.layout.byteSize ∧
      (∀ run ∈ a.source.layout.filters, run.base + run.count ≤ u.params.length) ∧
      (∀ i, i < a.source.layout.filters.length → i / 4 < u.visible.length) ∧
      ∀ color, u.shade r a.source.layout color = ((Chain.new r).run edits).apply color := by
  have hsound := Chain.sound_run_new r edits
  have hregistry := Chain.run_new_registry r edits
  generalize (Chain.new r).run edits = c at hids hsound hregistry ⊢
  subst hregistry
  obtain ⟨hbuilt, hsame, -⟩ :=
    Synthesizer.built_run b (.new c.registry config, w) steps (Synthesizer.built_new _ _)
  have hsource := hbuilt a ha
  rw [hsame, hids] at hsource
  obtain ⟨ds, hds, hsource⟩ := Registry.synthesize_eq_ok hsource
  have hresolve : c.registry.resolve c.ids = .ok (c.filters.map Filter.definition) :=
    Registry.resolve_ids hsound
  cases hds.symm.trans hresolve
  have hlayout : a.source.layout = .ofDefinitions (c.filters.map Filter.definition) := by
    rw [hsource]
  obtain ⟨u, hu, hfits, hshade⟩ := hsound.shade_write hr hlayout
  refine ⟨u, ?_, hfits.length_bytes, ?_, ?_, hshade⟩
  · rw [Synthesizer.uniforms, ha]
    simp only [hu]
    rfl
  · rw [hlayout] at hfits ⊢
    exact hfits.within.1
  · rw [hlayout] at hfits ⊢
    exact hfits.within.2

/-! ### The catalog -/

theorem Catalog.steady : ∀ d ∈ Catalog.definitions, d.Steady := by
  intro d hd vs ws _
  rcases List.mem_append.mp hd with hd | hd
  · simp only [List.mem_cons, List.not_mem_nil, or_false] at hd
    rcases hd with rfl | rfl | rfl | rfl <;> rfl
  · obtain ⟨b, -, rfl⟩ := List.mem_map.mp hd
    rfl

/-- A backend that takes every program. -/
def Backend.accepting : Backend Unit Unit where
  compile _ w := (.ok (), w)
  release _ w := w
  dump _ _ w := w

/-- Two filters, the first of them hidden. -/
def hiddenPosterize : List Edit :=
  [.add "posterize", .add "blend_screen", .setVisible ⟨0⟩ false]

theorem shade_uniforms_hiddenPosterize :
    ∃ a u, (Synthesizer.run .accepting (.new .builtin .default, ())
        [.sync ((Chain.new .builtin).run hiddenPosterize), .rebuild]).1.active = some a ∧
      a.source.ids = ["posterize", "blend_screen"] ∧
      (Synthesizer.run .accepting (.new .builtin .default, ())
        [.sync ((Chain.new .builtin).run hiddenPosterize), .rebuild]).1.uniforms
          ((Chain.new .builtin).run hiddenPosterize) = .ok (some u) ∧
      u.bytes.length = 48 ∧
      ∀ color, u.shade .builtin a.source.layout color =
        ((Chain.new .builtin).run hiddenPosterize).apply color := by
  let ds := [Catalog.posterize, Catalog.blends[4].definition]
  let a : ActiveProgram Unit :=
    ⟨(), ⟨["posterize", "blend_screen"], .ofDefinitions ds, Source.fragmentText ds⟩⟩
  have hactive : (Synthesizer.run .accepting (.new .builtin .default, ())
      [.sync ((Chain.new .builtin).run hiddenPosterize), .rebuild]).1.active = some a := rfl
  obtain ⟨u, hu, hbytes, -, -, hshade⟩ := shade_uniforms .builtin Catalog.steady hiddenPosterize
    .accepting .default () _ a hactive rfl
  have hsize : a.source.layout.byteSize = 48 := by decide +kernel
  exact ⟨a, u, hactive, rfl, hu, hbytes.trans hsize, hshade⟩

end ColorChain
