import ColorChain.Proofs.Stepwise.Filter

/-! The unit cube is closed under the built-in chains.

Holding a channel within the unit range lets a not-a-number pass, so it has to be said of the
filters that none comes up. One filter takes a colour of the cube to a colour of numbers, by
regular operations only (`filter?_regular`), and these are held within the cube before the next
filter sees them, so a row of filters of any length stays there (`run?_regular`). -/
namespace ColorChain

namespace Stepwise

open Traced

/-- One filter with values that belong to its controls. -/
theorem filter?_regular {f : Filter} (hf : f.Admitted .builtin) {color : Color}
    (hcolor : color.InUnit) :
    ∃ t, filter? f color = some t ∧ t.result = f.apply color ∧ t.Regular ∧
      Color.InUnit (Vector.unitClamp (f.apply color)) := by
  obtain ⟨e, he, hdefinition, heval⟩ := filter?_of_registered hf.registered
  have hresult := filter?_result hf.registered (heval color)
  have hvalues : List.Forall₂ Control.Admits e.definition.controls f.values := by
    rw [hdefinition]
    exact hf.values
  have hchannels : color.All Binary.InUnit :=
    Vec3.all_iff.mpr fun a ha => Binary.inUnit_iff.mp (hcolor a ha)
  have hyields := evaluations_safe e he f.values color hvalues hchannels
  refine ⟨_, heval color, hresult, hyields.regular, Color.inUnit_unitClamp.mpr ?_⟩
  rw [← hresult]
  exact Vec3.all_iff.mp hyields.result

/-- A row of filters: each one starts in the cube, where the one before it was held. -/
theorem run?_regular {fs : List Filter} (hfs : ∀ f ∈ fs, f.Admitted .builtin) {color : Color}
    (hcolor : color.InUnit) :
    ∃ t, run? fs color = some t ∧ t.Regular ∧ t.result.InUnit := by
  induction fs generalizing color with
  | nil => exact ⟨pure color, rfl, List.forall_mem_nil _, hcolor⟩
  | cons f rest ih =>
    obtain ⟨hf, hrest⟩ := List.forall_mem_cons.mp hfs
    obtain ⟨first, hfirst, hresult, hregular, hclamped⟩ := filter?_regular hf hcolor
    obtain ⟨others, hothers, hregulars, hunit⟩ := ih hrest hclamped
    rw [← hresult] at hothers
    exact ⟨_, run?_cons hfirst hothers, List.forall_mem_append.mpr ⟨hregular, hregulars⟩, hunit⟩

end Stepwise

/-- **The unit cube is closed under every built-in chain.** In a chain over the built-in registry,
of any length and with any filters hidden, whose values belong to their controls, a colour with all
channels between zero and one is taken to a colour with all channels between zero and one. The
evaluation is recorded operation by operation and the record ends in that colour, and no operation
on record divides by zero or gives anything but a number. -/
theorem apply_inUnit (c : Chain) (hregistry : c.registry = .builtin)
    (hc : ∀ f ∈ c.filters, f.Admitted c.registry) (color : Color) (hcolor : color.InUnit) :
    (c.apply color).InUnit ∧
      ∃ t, Stepwise.chain? c color = some t ∧ t.result = c.apply color ∧
        ∀ o ∈ t.operations, o.dividesByZero = false ∧ o.result.isNaN = false := by
  rw [hregistry] at hc
  have hvisible : ∀ f ∈ c.filters.filter Filter.visible, f.Admitted .builtin := fun f hf =>
    hc f (List.mem_of_mem_filter hf)
  obtain ⟨t, ht, hregular, hunit⟩ := Stepwise.run?_regular hvisible hcolor
  obtain ⟨t', ht', hresult⟩ :=
    Stepwise.run?_result (fun f hf => (hvisible f hf).registered) color
  cases ht.symm.trans ht'
  have happly : t.result = c.apply color := hresult
  refine ⟨happly ▸ hunit, t, ht, happly, fun o ho => ?_⟩
  exact ⟨(hregular o ho).divisor, (hregular o ho).isNaN⟩

/-- Burning with the least positive number takes an infinite quotient from one, dodging is guarded
where the chosen channel is one, and what is left is no grey; the last filter is hidden. -/
theorem apply_inUnit_burn :
    let edits : List Edit := [
      .add "blend_burn", .setValue ⟨0⟩ 0 (.color ⟨.ofIndex false 1, 1, 0⟩), .add "blend_dodge",
      .setValue ⟨1⟩ 0 (.color ⟨0.5, 1, 0.5⟩), .add "hsl_multiply", .setValue ⟨2⟩ 0 (.number 0),
      .add "posterize", .add "blend_xor", .setVisible ⟨4⟩ false]
    let c := (Chain.new .builtin).run edits
    let color : Color := ⟨0, 0.5, 1⟩
    c.registry = .builtin ∧ (∀ f ∈ c.filters, f.Admitted c.registry) ∧ color.InUnit ∧
      (c.apply color).InUnit ∧ c.apply color = ⟨1, 0, 0⟩ ∧
      ∃ t, Stepwise.chain? c color = some t ∧ t.operations.any (fun o => o.result.isInfinite) ∧
        ∀ o ∈ t.operations, o.dividesByZero = false ∧ o.result.isNaN = false := by
  intro edits c color
  have hedits : ∀ e ∈ edits, e.Numeric := by decide +kernel
  have hregistry : c.registry = .builtin := Chain.run_new_registry .builtin edits
  have hfilters : ∀ f ∈ c.filters, f.Admitted c.registry := by
    rw [hregistry]
    exact Chain.admitted_run (c := .new .builtin) Catalog.admits_default edits hedits
      (by simp [Chain.new])
  have hcolor : color.InUnit := by decide +kernel
  obtain ⟨hunit, t, ht, -, hregular⟩ := apply_inUnit c hregistry hfilters color hcolor
  have hinfinite : ((Stepwise.chain? c color).map fun t =>
      t.operations.any fun o => o.result.isInfinite) = some true := by decide +kernel
  rw [ht] at hinfinite
  refine ⟨hregistry, hfilters, hcolor, hunit, by decide +kernel, t, ht, ?_, hregular⟩
  exact Option.some.inj hinfinite

end ColorChain
