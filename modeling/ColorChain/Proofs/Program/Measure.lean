import ColorChain.Proofs.Program.Layout

/-! What a chain is measured by when a block is made of it.

A chain need not be the one that the active program was made for. The block tells them apart by
two numbers only, the slots of all filters together and the filters (`uniforms_measured`): another
number of filters or of slots is always refused, and equal numbers never are, so a filter replaced
by another one of as many slots goes unnoticed. -/
namespace ColorChain

/-- A chain over steady definitions has the slots that its ids need. -/
theorem Chain.Sound.length_slots {c : Chain} (hc : c.Sound)
    (hr : ∀ d ∈ c.registry.definitions, d.Steady) :
    c.slots.length = c.registry.slotsNeeded c.ids := by
  have hresolve : c.registry.resolve c.ids = .ok (c.filters.map Filter.definition) :=
    Registry.resolve_ids hc
  rw [Registry.slotsNeeded_eq hresolve, ← Layout.slotCount_ofDefinitions,
    Layout.slotCount_eq_length hr hc, Chain.slots]

theorem Registry.layout_of_synthesize {r : Registry} {ids : List String} {config : ProgramConfig}
    {source : Source} (h : r.synthesize ids config = .ok source) :
    source.layout.slotCount = r.slotsNeeded ids ∧ source.layout.filterCount = ids.length := by
  obtain ⟨ds, hds, rfl⟩ := synthesize_eq_ok h
  refine ⟨?_, ?_⟩
  · rw [slotsNeeded_eq hds]
    exact Layout.slotCount_ofDefinitions ds
  · rw [(resolve_eq_ok.mp hds).length_eq]
    exact Layout.filterCount_ofDefinitions ds

/-! ### Chains and programs -/

/-- How a chain is answered when the active program is for `slots` slots and `filters` filters. -/
structure Synthesizer.Measured {P : Type} (s : Synthesizer P) (a : ActiveProgram P) (c : Chain)
    (slots filters : Nat) : Prop where
  otherSlots : c.slots.length ≠ slots →
    s.uniforms c = .error (.uniformMismatch .slots slots c.slots.length)
  otherFilters : c.slots.length = slots → c.ids.length ≠ filters →
    s.uniforms c = .error (.uniformMismatch .filters filters c.ids.length)
  /-- The block has the chain's slots in front, and its flags. -/
  equal : c.slots.length = slots → c.ids.length = filters →
    ∃ u, s.uniforms c = .ok (some u) ∧ u.Fits a.source.layout ∧
      (∃ pad, u.params = c.slots ++ pad) ∧
      ∀ i, i < filters → u.shows i = c.visibility[i]?.getD false

/-- A chain is measured by the layout of the active program. -/
theorem Synthesizer.measured_layout {P : Type} {s : Synthesizer P} {a : ActiveProgram P}
    (ha : s.active = some a) (c : Chain) :
    s.Measured a c a.source.layout.slotCount a.source.layout.filterCount := by
  have huniforms : s.uniforms c =
      ((UniformBlock.new a.source.layout).write c.slots c.visibility).map some := by
    rw [uniforms, ha]
  have hflags : c.visibility.length = c.ids.length := by
    rw [Chain.visibility, Chain.ids, List.length_map, List.length_map]
  refine ⟨fun hslots => ?_, fun hslots hids => ?_, fun hslots hids => ?_⟩
  · rw [huniforms, (UniformBlock.fits_new _).write_other_slots hslots]
    rfl
  · rw [← hflags] at hids ⊢
    rw [huniforms, (UniformBlock.fits_new _).write_other_filters hslots hids]
    rfl
  · obtain ⟨u, hu, hfits, hparams, hvisible⟩ :=
      (UniformBlock.fits_new a.source.layout).write hslots (hflags.trans hids)
    refine ⟨u, ?_, hfits, ⟨_, hparams⟩, fun i hi => UniformBlock.shows_write hvisible hi⟩
    rw [huniforms, hu]
    rfl

/-- **A chain is refused for its numbers, and for nothing else.** Whatever was recorded and rebuilt
before, with or without success: a chain with another number of slots than the active program's ids
need, or else of filters, is refused with both numbers, and of any other chain a block is made that
fits the program. Over steady definitions the slots are those that the chain's ids need, so that a
chain passes whose ids only need as much as the program's. -/
theorem uniforms_measured {σ P : Type} (r : Registry) (b : Backend σ P) (config : ProgramConfig)
    (w : σ) (steps : List SynthesizerStep) (c : Chain) :
    let s := (Synthesizer.run b (.new r config, w) steps).1
    (s.active = none → s.uniforms c = .ok none) ∧
      (∀ a, s.active = some a →
        s.Measured a c (r.slotsNeeded a.source.ids) a.source.ids.length) ∧
      ((∀ d ∈ r.definitions, d.Steady) → ∀ edits, c = (Chain.new r).run edits →
        c.slots.length = r.slotsNeeded c.ids) := by
  intro s
  obtain ⟨hbuilt, hregistry, -⟩ :=
    Synthesizer.built_run b (.new r config, w) steps (Synthesizer.built_new _ _)
  refine ⟨fun hnone => ?_, fun a ha => ?_, ?_⟩
  · rw [Synthesizer.uniforms, hnone]
  · have hsource := hbuilt a ha
    rw [hregistry] at hsource
    obtain ⟨hslots, hfilters⟩ := Registry.layout_of_synthesize hsource
    have hmeasured := Synthesizer.measured_layout ha c
    rwa [hslots, hfilters] at hmeasured
  · rintro hr edits rfl
    have hsame := Chain.run_new_registry r edits
    rw [← hsame] at hr
    have hslots := (Chain.sound_run_new r edits).length_slots hr
    rwa [hsame] at hslots

/-- The program of one filter. -/
def posterizeSteps : List SynthesizerStep :=
  [.sync ((Chain.new .builtin).run [.add "posterize"]), .rebuild]

/-- A chain that has become longer than its program is refused. -/
theorem uniforms_measured_added :
    let s := (Synthesizer.run .accepting (.new .builtin .default, ()) posterizeSteps).1
    let c := (Chain.new .builtin).run [.add "posterize", .add "blend_normal"]
    s.uniforms c = .error (.uniformMismatch .slots 1 2) := by
  intro s c
  let ds := [Catalog.posterize]
  let a : ActiveProgram Unit := ⟨(), ⟨["posterize"], .ofDefinitions ds, Source.fragmentText ds⟩⟩
  obtain ⟨-, hmeasured, hslots⟩ :=
    uniforms_measured .builtin .accepting .default () posterizeSteps c
  have hactive : s.active = some a := rfl
  have hneeded : Registry.slotsNeeded .builtin a.source.ids = 1 := by decide +kernel
  have hlength : c.slots.length = 2 := by
    rw [hslots Catalog.steady _ rfl]
    decide +kernel
  have hanswer := (hmeasured a hactive).otherSlots (by rw [hlength, hneeded]; decide)
  rwa [hlength, hneeded] at hanswer

/-- A chain whose filter has been replaced by another one of one slot is taken for the program that
was made before. -/
theorem uniforms_of_other_ids :
    ¬ ∀ (steps : List SynthesizerStep) (edits : List Edit) (a : ActiveProgram Unit)
      (u : UniformBlock),
      let s := (Synthesizer.run .accepting (.new .builtin .default, ()) steps).1
      s.active = some a → s.uniforms ((Chain.new .builtin).run edits) = .ok (some u) →
        a.source.ids = ((Chain.new .builtin).run edits).ids := by
  intro hclaim
  let ds := [Catalog.posterize]
  let a : ActiveProgram Unit := ⟨(), ⟨["posterize"], .ofDefinitions ds, Source.fragmentText ds⟩⟩
  let s := (Synthesizer.run .accepting (.new .builtin .default, ()) posterizeSteps).1
  let edits : List Edit := [.add "posterize", .remove ⟨0⟩, .add "blend_normal"]
  have hactive : s.active = some a := rfl
  have hids : ((Chain.new .builtin).run edits).ids = ["blend_normal"] := by decide +kernel
  have hmeasured := Synthesizer.measured_layout hactive ((Chain.new .builtin).run edits)
  obtain ⟨u, hu, -⟩ := hmeasured.equal (by decide +kernel) (by decide +kernel)
  have hsame := hclaim posterizeSteps edits a u hactive hu
  rw [hids] at hsame
  exact absurd hsame (by decide)

end ColorChain
