import ColorChain.Proofs.Program.Layout
import ColorChain.Proofs.Program.Rebuild
import ColorChain.Proofs.Program.Release

/-! The active program is that of the last success.

An attempt that succeeds puts the program of the recorded ids in place, and one that fails changes
the flag and the count and nothing else, so the active program is always the one that the last
successful attempt made (`active_of_last_success`). A clean synthesizer whose last attempt was
successful therefore runs the program of its ids. -/
namespace ColorChain

variable {σ P : Type}

/-- Synthesis fails for an id that is not known, or for too many slots. -/
theorem Registry.synthesize_eq_error {r : Registry} {ids : List String} {config : ProgramConfig}
    {e : ProgramError} (h : r.synthesize ids config = .error e) :
    (∃ id, e = .unknownFilter id) ∨ ∃ needed limit, e = .tooManySlots needed limit := by
  rcases Outcome.bind_eq_error.mp h with h | ⟨ds, -, h⟩
  · obtain ⟨id, -, -, he⟩ := resolve_eq_error h
    exact .inl ⟨id, he⟩
  · dsimp only at h
    split at h
    · cases h
      exact .inr ⟨_, _, rfl⟩
    · cases h

namespace Work

/-- Whether a step has put a new program in place, going by what it returned. -/
def succeeded : Except ProgramError Answer → Bool
  | .ok (.rebuild .rebuilt) => true
  | _ => false

end Work

namespace Workbench

/-! ### Failures -/

/-- What a rebuild that leaves `w'` and returns an error has done. -/
structure Failure (w w' : Workbench σ P) (e : ProgramError) : Prop where
  /-- The flag and the count are other ones; the program, the ids and the rest are as before. -/
  synthesizer : w'.synthesizer =
    { w.synthesizer with dirty := false, rebuilds := w.synthesizer.rebuilds + 1 }
  /-- Without a source to compile the backend is not asked for anything. -/
  unsynthesized : (∀ reason fragment, e ≠ .compile reason fragment) →
    w.synthesizer.registry.synthesize w.synthesizer.ids w.synthesizer.config = .error e ∧
      w'.journal = w.journal ∧ w'.state = w.state
  /-- A refused program is reported with its whole text. -/
  refused : ∀ reason fragment, e = .compile reason fragment → ∃ source,
    w.synthesizer.registry.synthesize w.synthesizer.ids w.synthesizer.config = .ok source ∧
      fragment = source.fragment ∧ w'.journal = w.journal ++ [.refused source reason]

theorem Failure.active {w w' : Workbench σ P} {e : ProgramError} (h : Failure w w' e) :
    w'.synthesizer.active = w.synthesizer.active := by
  rw [h.synthesizer]

variable {b : Backend σ P} {w : Workbench σ P}

theorem rebuild_failure {e : ProgramError} (h : w.answer b .rebuild = .error e) :
    Failure w (w.after b .rebuild) e := by
  obtain ⟨ending, events, hrebuilt, -, hanswer, hafter⟩ := rebuild_cases b w
  rw [hanswer] at h
  rw [hafter]
  cases hrebuilt with
  | clean hdirty => cases h
  | dirty hdirty hattempt =>
    cases hattempt with
    | unsynthesized e' hsource =>
      cases h
      refine ⟨rfl, fun _ => ⟨hsource, List.append_nil _, rfl⟩, ?_⟩
      rintro reason fragment rfl
      rcases Registry.synthesize_eq_error hsource with ⟨_, he⟩ | ⟨_, _, he⟩ <;> cases he
    | refused source reason state hsource hcompile =>
      cases h
      refine ⟨rfl, fun hnot => absurd rfl (hnot _ _), ?_⟩
      intro reason' fragment he
      cases he
      exact ⟨source, hsource, rfl, rfl⟩
    | rebuilt source program state hsource hcompile => cases h

/-! ### Successes -/

/-- What a rebuild that leaves `w'` and puts a program in place has done. -/
structure Success (w w' : Workbench σ P) (program : P) (source : Source) : Prop where
  synthesized :
    w.synthesizer.registry.synthesize w.synthesizer.ids w.synthesizer.config = .ok source
  synthesizer : w'.synthesizer = { w.synthesizer with
    dirty := false, rebuilds := w.synthesizer.rebuilds + 1, active := some ⟨program, source⟩ }
  journal : w'.journal = w.journal ++ .replacing w.synthesizer.program? source program

theorem rebuild_success (h : Work.succeeded (w.answer b .rebuild) = true) :
    ∃ program source, Success w (w.after b .rebuild) program source := by
  obtain ⟨ending, events, hrebuilt, -, hanswer, hafter⟩ := rebuild_cases b w
  rw [hanswer] at h
  rw [hafter]
  cases hrebuilt with
  | clean hdirty => cases h
  | dirty hdirty hattempt =>
    cases hattempt with
    | unsynthesized e hsource => cases h
    | refused source reason state hsource hcompile => cases h
    | rebuilt source program state hsource hcompile => exact ⟨program, source, hsource, rfl, rfl⟩

/-! ### Histories -/

/-- Recording ids puts no program in place. -/
theorem setIds_active (b : Backend σ P) (w : Workbench σ P) (ids : List String) :
    (w.after b (.setIds ids)).synthesizer.active = w.synthesizer.active := by
  rw [after_setIds, Synthesizer.setIds_eq]

/-- A step that puts no program in place leaves the active one. -/
theorem active_after {e : SynthesizerStep} (h : Work.succeeded (w.answer b e) = false) :
    (w.after b e).synthesizer.active = w.synthesizer.active := by
  cases e with
  | setIds ids => exact setIds_active b w ids
  | sync c => exact setIds_active b w c.ids
  | rebuild =>
    have hexchange := rebuild_exchange b w
    generalize w.answer b .rebuild = answer at h hexchange
    cases hexchange with
    | unchanged hw => rw [hw]
    | failed e hactive => exact hactive
    | rebuilt source program => cases h

/-- Only a rebuild puts a program in place. -/
theorem eq_rebuild_of_succeeded {e : SynthesizerStep}
    (h : Work.succeeded (w.answer b e) = true) : e = .rebuild := by
  cases e with
  | setIds ids =>
    obtain ⟨changed, hanswer, -⟩ := (setIds_recording b w ids).changed
    rw [hanswer] at h
    cases h
  | sync c =>
    obtain ⟨changed, hanswer, -⟩ := (sync_recording b w c).changed
    rw [hanswer] at h
    cases h
  | rebuild => rfl

/-- Where the active program comes from: there is none before the first success, and then it is
the one that the last success has made. -/
inductive Origin (b : Backend σ P) (w : Workbench σ P) (steps : List SynthesizerStep) : Prop where
  | none (hnone : (w.history b steps).synthesizer.active = none)
      (hanswers : ∀ a ∈ w.answers b steps, Work.succeeded a = false)
  | success (before : List SynthesizerStep) (program : P) (source : Source)
      (hactive : (w.history b steps).synthesizer.active = some ⟨program, source⟩)
      (hlast : Last Work.succeeded b w steps before)
      (hsuccess : Success (w.history b before) (w.history b (before ++ [.rebuild])) program source)

theorem origin (hw : w.synthesizer.active = none) (steps : List SynthesizerStep) :
    Origin b w steps := by
  induction steps using List.reverseRecOn with
  | nil => exact .none hw fun _ h => absurd h List.not_mem_nil
  | append_singleton steps e ih =>
    cases he : Work.succeeded ((w.history b steps).answer b e) with
    | true =>
      cases eq_rebuild_of_succeeded he
      obtain ⟨program, source, hsuccess⟩ := rebuild_success he
      have hafter : w.history b (steps ++ [.rebuild]) = (w.history b steps).after b .rebuild :=
        history_append b w steps [.rebuild]
      refine .success steps program source ?_ (last_concat he) (hafter ▸ hsuccess)
      rw [hafter, hsuccess.synthesizer]
    | false =>
      have hactive : (w.history b (steps ++ [e])).synthesizer.active =
          (w.history b steps).synthesizer.active := by
        rw [history_append]
        exact active_after he
      cases ih with
      | none hnone hanswers =>
        refine .none (hactive.trans hnone) ?_
        rw [answers_concat]
        exact List.forall_mem_append.mpr ⟨hanswers, List.forall_mem_singleton.mpr he⟩
      | success before program source hsome hlast hsuccess =>
        exact .success before program source (hactive.trans hsome) (hlast.concat he) hsuccess

/-- A history without an attempt that ends clean has done nothing. -/
theorem history_eq_of_quiet {steps : List SynthesizerStep}
    (hquiet : ∀ a ∈ w.answers b steps, Work.attempted a = false)
    (hclean : (w.history b steps).synthesizer.dirty = false) : w.history b steps = w := by
  induction steps using List.reverseRecOn with
  | nil => rfl
  | append_singleton steps e ih =>
    rw [answers_concat] at hquiet
    obtain ⟨hbefore, hlast⟩ := List.forall_mem_append.mp hquiet
    rw [history_append] at hclean ⊢
    have hsame : (w.history b steps).after b e = w.history b steps := by
      cases e with
      | setIds ids => exact (setIds_recording b _ ids).eq_of_clean hclean
      | sync c => exact (sync_recording b _ c).eq_of_clean hclean
      | rebuild =>
        have hattempt := rebuild_attempt b (w.history b steps)
        have hidle := hattempt.attempted.symm.trans (hlast _ List.mem_cons_self)
        exact (hattempt.idle hidle).2
    have hhistory : (w.history b steps).history b [e] = w.history b steps := hsame
    rw [hhistory] at hclean ⊢
    exact ih hbefore hclean

/-- A clean synthesizer whose last attempt was successful runs the program of its ids. -/
theorem Last.active {steps before : List SynthesizerStep}
    (h : Last Work.attempted b w steps before)
    (hsuccess : Work.succeeded ((w.history b before).answer b .rebuild) = true)
    (hclean : (w.history b steps).synthesizer.dirty = false) :
    ∃ a, (w.history b steps).synthesizer.active = some a ∧
      a.source.ids = (w.history b steps).synthesizer.ids := by
  obtain ⟨after, rfl, -, hquiet⟩ := h
  obtain ⟨program, source, hrebuilt⟩ := rebuild_success hsuccess
  have hsteps : before ++ .rebuild :: after = before ++ [.rebuild] ++ after := by
    rw [List.append_assoc]
    rfl
  rw [hsteps, history_append] at hclean ⊢
  rw [history_eq_of_quiet hquiet hclean, history_append]
  show ∃ a, ((w.history b before).after b .rebuild).synthesizer.active = some a ∧
    a.source.ids = ((w.history b before).after b .rebuild).synthesizer.ids
  rw [hrebuilt.synthesizer]
  exact ⟨_, rfl, Registry.ids_of_synthesize hrebuilt.synthesized⟩

end Workbench

/-- **The active program is that of the last success, and a failure changes nothing else.** After
any history the active program is what the registry and the configuration generate from its ids,
made by the last attempt that succeeded. A rebuild that returns an error keeps it, with the recorded
ids, leaves a clean synthesizer, asks the backend for nothing if there is no source to compile, and
otherwise gives back the text of the source. While the synthesizer is clean after a success, the
program's ids are the recorded ones. -/
theorem active_of_last_success (b : Backend σ P) (registry : Registry) (config : ProgramConfig)
    (state : σ) (steps : List SynthesizerStep) :
    let start := Workbench.new registry config state
    let w := start.history b steps
    (w.synthesizer.registry = registry ∧ w.synthesizer.config = config) ∧
      (∀ a, w.synthesizer.active = some a →
        registry.synthesize a.source.ids config = .ok a.source) ∧
      Workbench.Origin b start steps ∧
      (∀ e, w.answer b .rebuild = .error e → Workbench.Failure w (w.after b .rebuild) e) ∧
      ∀ before, Workbench.Last Work.attempted b start steps before →
        Work.succeeded ((start.history b before).answer b .rebuild) = true →
        w.synthesizer.dirty = false →
        ∃ a, w.synthesizer.active = some a ∧ a.source.ids = w.synthesizer.ids := by
  intro start w
  obtain ⟨hbuilt, hregistry, hconfig⟩ := Synthesizer.built_run b
    (start.synthesizer, start.state) steps (Synthesizer.built_new registry config)
  rw [← Workbench.history_eq] at hbuilt hregistry hconfig
  refine ⟨⟨hregistry, hconfig⟩, fun a ha => ?_, Workbench.origin rfl steps,
    fun e => Workbench.rebuild_failure, fun before hlast => hlast.active⟩
  have hsource := hbuilt a ha
  rwa [hregistry, hconfig] at hsource

/-- A backend that refuses programs of two filters and numbers the others. -/
def Backend.upToOne : Backend Nat Nat where
  compile source n := if source.ids.length = 2 then (.error "too long", n) else (.ok n, n + 1)
  release _ n := n
  dump _ _ n := n

/-- The steps on a new workbench. -/
def Workbench.numbered (steps : List SynthesizerStep) : Workbench Nat Nat :=
  (Workbench.new .builtin .default 7).history .upToOne steps

/-- One program is made, one refused, and then the ids of a third are recorded. -/
def refusedSteps : List SynthesizerStep :=
  [.rebuild, .setIds ["posterize", "posterize"], .rebuild, .setIds ["posterize"]]

/-- The third program is made, and still active after a rebuild for an id that is not known. -/
theorem active_of_last_success_unknown :
    (∃ a, (Workbench.numbered (refusedSteps ++ [.rebuild])).synthesizer.active = some a ∧
      a.source.ids = ["posterize"]) ∧
      let w := Workbench.numbered (refusedSteps ++ [.rebuild, .setIds ["plaid"]])
      w.answer .upToOne .rebuild = .error (.unknownFilter "plaid") ∧
        (w.after .upToOne .rebuild).synthesizer.active = w.synthesizer.active ∧
        (w.after .upToOne .rebuild).state = w.state := by
  obtain ⟨-, -, -, -, hactive⟩ :=
    active_of_last_success .upToOne .builtin .default 7 (refusedSteps ++ [.rebuild])
  obtain ⟨-, -, -, hfailure, -⟩ := active_of_last_success .upToOne .builtin .default 7
    (refusedSteps ++ [.rebuild, .setIds ["plaid"]])
  rw [← Workbench.numbered] at hactive hfailure
  have hlast : Workbench.Last Work.attempted .upToOne (.new .builtin .default 7)
      (refusedSteps ++ [.rebuild]) refusedSteps :=
    Workbench.last_concat (by decide +kernel)
  obtain ⟨a, ha, hsame⟩ := hactive refusedSteps hlast (by decide +kernel) (by decide +kernel)
  have hids : (Workbench.numbered (refusedSteps ++ [.rebuild])).synthesizer.ids =
      ["posterize"] := by decide +kernel
  have hanswer : (Workbench.numbered (refusedSteps ++ [.rebuild, .setIds ["plaid"]])).answer
      .upToOne .rebuild = .error (.unknownFilter "plaid") := by decide +kernel
  have hfailed := hfailure _ hanswer
  obtain ⟨-, -, hstate⟩ := hfailed.unsynthesized fun _ _ h => by cases h
  exact ⟨⟨a, ha, hsame.trans hids⟩, hanswer, hfailed.active, hstate⟩

end ColorChain
