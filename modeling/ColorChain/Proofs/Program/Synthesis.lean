import ColorChain.Program.Synthesizer
import ColorChain.Proofs.Registry

/-! What the active program is.

Whatever the backend accepts and refuses, and whatever was recorded and rebuilt in which
order, the active program was generated by the synthesizer's own registry and configuration
from the ids it carries (`built_run`). A program can therefore be read off its ids alone. -/
namespace ColorChain

/-! ### Generating a program -/

namespace Registry

variable {r : Registry} {config : ProgramConfig} {source : Source}

theorem synthesize_eq_ok {ids : List String} (h : r.synthesize ids config = .ok source) :
    ∃ ds, r.resolve ids = .ok ds ∧
      source = ⟨ids, Layout.ofDefinitions ds, Source.fragmentText ds⟩ := by
  obtain ⟨ds, hds, h⟩ := Outcome.bind_eq_ok.mp h
  dsimp only at h
  split at h
  · cases h
  · cases h
    exact ⟨ds, hds, rfl⟩

theorem ids_of_synthesize {ids : List String} (h : r.synthesize ids config = .ok source) :
    source.ids = ids := by
  obtain ⟨ds, -, rfl⟩ := synthesize_eq_ok h
  rfl

end Registry

namespace Synthesizer

variable {σ P : Type} (b : Backend σ P)

/-! ### One step -/

/-- An attempt leaves the synthesizer alone or gives it a program of the recorded ids. -/
theorem attempt_active (s : Synthesizer P) (w : σ) :
    (attempt b s w).2.1 = s ∨
      ∃ program source, s.registry.synthesize s.ids s.config = .ok source ∧
        (attempt b s w).2.1 = { s with active := some ⟨program, source⟩ } := by
  unfold attempt
  split
  · exact .inl rfl
  · rename_i source hsource
    dsimp only
    split
    · exact .inl rfl
    · rename_i program w' _
      exact .inr ⟨program, source, hsource, rfl⟩

/-- The active program is what the registry generates from its ids. -/
def Built (s : Synthesizer P) : Prop :=
  ∀ a, s.active = some a → s.registry.synthesize a.source.ids s.config = .ok a.source

theorem built_new (r : Registry) (config : ProgramConfig) :
    (new r config : Synthesizer P).Built := by
  intro a ha
  cases ha

/-- A step changes neither registry nor configuration, and keeps the active program built. -/
theorem step_built (s : Synthesizer P × σ) (e : SynthesizerStep) (hs : s.1.Built) :
    (step b s e).1.Built ∧ (step b s e).1.registry = s.1.registry ∧
      (step b s e).1.config = s.1.config := by
  have recorded (ids : List String) : (s.1.setIds ids).2.Built ∧
      (s.1.setIds ids).2.registry = s.1.registry ∧
      (s.1.setIds ids).2.config = s.1.config := by
    rw [setIds_eq]
    exact ⟨hs, rfl, rfl⟩
  cases e with
  | setIds ids => exact recorded ids
  | sync c => exact recorded c.ids
  | rebuild =>
    unfold step rebuild
    dsimp only
    split
    · rcases attempt_active b { s.1 with dirty := false, rebuilds := s.1.rebuilds + 1 } s.2 with
        h | ⟨program, source, hsource, h⟩
      · rw [h]
        exact ⟨hs, rfl, rfl⟩
      · rw [h]
        refine ⟨fun a ha => ?_, rfl, rfl⟩
        cases ha
        rw [Registry.ids_of_synthesize hsource]
        exact hsource
    · exact ⟨hs, rfl, rfl⟩

/-- **The active program is always the one that its ids generate.** -/
theorem built_run (s : Synthesizer P × σ) (h : List SynthesizerStep) (hs : s.1.Built) :
    (run b s h).1.Built ∧ (run b s h).1.registry = s.1.registry ∧
      (run b s h).1.config = s.1.config := by
  induction h generalizing s with
  | nil => exact ⟨hs, rfl, rfl⟩
  | cons e rest ih =>
    obtain ⟨hbuilt, hregistry, hconfig⟩ := step_built b s e hs
    obtain ⟨hbuilt', hregistry', hconfig'⟩ := ih (step b s e) hbuilt
    exact ⟨hbuilt', hregistry'.trans hregistry, hconfig'.trans hconfig⟩

end Synthesizer
end ColorChain
