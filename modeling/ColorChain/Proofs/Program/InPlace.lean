import ColorChain.Program.InPlace

/-! Work on a workbench comes to what the synthesizer gives out.

Each operation leaves the synthesizer and the state that the operation of `Synthesizer` returns,
with or without an error, and so does a history (`history_eq`). What a rebuild has written into
the journal by its end depends on how it ends: `Attempted` and `Rebuilt` list the ways. -/
namespace ColorChain

variable {σ P : Type}

/-- What an operation that gives out a synthesizer and a state amounts to on a workbench. -/
def Workbench.settle {α : Type} (journal : Journal P) :
    Except ProgramError α × Synthesizer P × σ → EStateM.Result ProgramError (Workbench σ P) α
  | (.ok a, s, state) => .ok a ⟨s, state, journal⟩
  | (.error e, s, state) => .error e ⟨s, state, journal⟩

/-- The program that is active. -/
def Synthesizer.program? (s : Synthesizer P) : Option P := s.active.map ActiveProgram.program

/-- The backend's state when a source is compiled: by then its text has been written where the
configuration says. -/
def Backend.prepared (b : Backend σ P) (config : ProgramConfig) (source : Source) (state : σ) : σ :=
  match config.dumpPath with
  | none => state
  | some path => b.dump path source.fragment state

/-- Compiles a source and installs the program. -/
def Synthesizer.make (b : Backend σ P) (s : Synthesizer P) (source : Source) (state : σ) :
    Except ProgramError RebuildOutcome × Synthesizer P × σ :=
  match b.compile source state with
  | (.error reason, state) => (.error (.compile reason source.fragment), s, state)
  | (.ok program, state) => (.ok .rebuilt, s.install b program source state)

/-- What goes into the journal when a program comes in the place of `previous`: that is released
after the new one is compiled and before it is installed. -/
def Journal.replacing (previous : Option P) (source : Source) (program : P) : Journal P :=
  .compiled source program :: (previous.toList.map .released ++ [.installed program])

namespace Work

variable (b : Backend σ P) (w : Workbench σ P)

/-! ### Recording -/

/-- Rows are the same when they are equally long and have the same entries side by side. -/
theorem zip_all_iff {ids old : List String} :
    (old.length == ids.length && (old.zip ids).all (fun p => p.1 == p.2)) = true ↔ old = ids := by
  induction old generalizing ids with
  | nil => cases ids <;> simp
  | cons id old ih =>
    cases ids with
    | nil => simp
    | cons id' ids =>
      rw [List.cons.injEq, ← @ih ids]
      simp [and_left_comm]

theorem setIds_eq (ids : List String) :
    (setIds ids).run w =
      .ok (w.synthesizer.setIds ids).1 { w with synthesizer := (w.synthesizer.setIds ids).2 } := by
  rw [setIds, Synthesizer.setIds, EStateM.run_bind, EStateM.run_get]
  dsimp only
  by_cases h : w.synthesizer.ids = ids
  · rw [if_pos (zip_all_iff.mpr h), if_pos h]
    rfl
  · rw [if_neg (mt zip_all_iff.mp h), if_neg h]
    rfl

/-! ### Rebuilding -/

theorem compile_ok {source : Source} {program : P} {state : σ}
    (h : b.compile source w.state = (.ok program, state)) :
    (compile b source).run w =
      .ok (.ok program) ⟨w.synthesizer, state, w.journal ++ [.compiled source program]⟩ := by
  rw [compile, EStateM.run_bind, EStateM.run_get]
  simp only [h]
  rfl

theorem compile_error {source : Source} {reason : String} {state : σ}
    (h : b.compile source w.state = (.error reason, state)) :
    (compile b source).run w =
      .ok (.error reason) ⟨w.synthesizer, state, w.journal ++ [.refused source reason]⟩ := by
  rw [compile, EStateM.run_bind, EStateM.run_get]
  simp only [h]
  rfl

/-- What is released goes before what is installed. -/
theorem replace_eq (program : P) (source : Source) :
    (replace b program source).run w = Workbench.settle
      (w.journal ++ (w.synthesizer.program?.toList.map .released ++ [.installed program]))
      (.ok (), Synthesizer.install b w.synthesizer program source w.state) := by
  obtain ⟨⟨registry, config, ids, dirty, active, rebuilds⟩, state, journal⟩ := w
  cases active with
  | none => rfl
  | some previous =>
    show EStateM.Result.ok () (Workbench.mk _ _ (journal ++ [.released previous.program] ++
      [.installed program])) = _
    rw [List.append_assoc]
    rfl

/-- How an attempt may end that starts in the given state, and what goes into the journal by
then. -/
inductive Attempted (s : Synthesizer P) (state : σ) :
    Except ProgramError RebuildOutcome × Synthesizer P × σ → Journal P → Prop where
  /-- There is no program of the ids, and the backend is not asked for anything. -/
  | unsynthesized (e : ProgramError)
      (hsource : s.registry.synthesize s.ids s.config = .error e) :
      Attempted s state (.error e, s, state) []
  | refused (source : Source) (reason : String) (state' : σ)
      (hsource : s.registry.synthesize s.ids s.config = .ok source)
      (hcompile : b.compile source (b.prepared s.config source state) = (.error reason, state')) :
      Attempted s state (.error (.compile reason source.fragment), s, state')
        [.refused source reason]
  | rebuilt (source : Source) (program : P) (state' : σ)
      (hsource : s.registry.synthesize s.ids s.config = .ok source)
      (hcompile : b.compile source (b.prepared s.config source state) = (.ok program, state')) :
      Attempted s state (.ok .rebuilt, s.install b program source state')
        (.replacing s.program? source program)

theorem make_eq {source : Source} {state : σ}
    (hsource : w.synthesizer.registry.synthesize w.synthesizer.ids w.synthesizer.config =
      .ok source)
    (hstate : b.prepared w.synthesizer.config source state = w.state) :
    ∃ events, Attempted b w.synthesizer state (w.synthesizer.make b source w.state) events ∧
      (make b source).run w =
        Workbench.settle (w.journal ++ events) (w.synthesizer.make b source w.state) := by
  rcases hcompile : b.compile source w.state with ⟨result, state'⟩
  rw [make, Synthesizer.make, EStateM.run_bind, hcompile]
  rw [← hstate] at hcompile
  cases result with
  | error reason =>
    rw [compile_error b w (hstate ▸ hcompile)]
    exact ⟨_, .refused source reason state' hsource hcompile, rfl⟩
  | ok program =>
    rw [compile_ok b w (hstate ▸ hcompile)]
    refine ⟨_, .rebuilt source program state' hsource hcompile, ?_⟩
    dsimp only
    rw [EStateM.run_bind, replace_eq, List.append_assoc]
    rfl

/-- **An attempt ends in one of three ways**, as the attempt of the synthesizer does. -/
theorem attempt_eq :
    ∃ events, Attempted b w.synthesizer w.state (w.synthesizer.attempt b w.state) events ∧
      (attempt b).run w =
        Workbench.settle (w.journal ++ events) (w.synthesizer.attempt b w.state) := by
  rw [attempt, Synthesizer.attempt, EStateM.run_bind, EStateM.run_get]
  dsimp only
  cases hsource : w.synthesizer.registry.synthesize w.synthesizer.ids w.synthesizer.config with
  | error e =>
    refine ⟨[], .unsynthesized e hsource, ?_⟩
    rw [List.append_nil]
    rfl
  | ok source =>
    cases hdump : w.synthesizer.config.dumpPath with
    | none => exact make_eq b w hsource (by rw [Backend.prepared, hdump])
    | some path =>
      exact make_eq b { w with state := b.dump path source.fragment w.state } hsource
        (by rw [Backend.prepared, hdump])

/-- The synthesizer once an attempt has begun. -/
def begun (s : Synthesizer P) : Synthesizer P :=
  { s with dirty := false, rebuilds := s.rebuilds + 1 }

/-- How a rebuild may end that starts with the given synthesizer and state. -/
inductive Rebuilt (s : Synthesizer P) (state : σ) :
    Except ProgramError RebuildOutcome × Synthesizer P × σ → Journal P → Prop where
  | clean (hdirty : s.dirty = false) : Rebuilt s state (.ok .unchanged, s, state) []
  | dirty (hdirty : s.dirty = true) {ending events}
      (hattempt : Attempted b (begun s) state ending events) : Rebuilt s state ending events

/-- **A rebuild does nothing, or makes an attempt**, as the rebuild of the synthesizer does. -/
theorem rebuild_eq :
    ∃ events, Rebuilt b w.synthesizer w.state (w.synthesizer.rebuild b w.state) events ∧
      (rebuild b).run w =
        Workbench.settle (w.journal ++ events) (w.synthesizer.rebuild b w.state) := by
  rw [rebuild, Synthesizer.rebuild, EStateM.run_bind, EStateM.run_get]
  dsimp only
  cases hdirty : w.synthesizer.dirty with
  | false =>
    refine ⟨[], .clean hdirty, ?_⟩
    rw [List.append_nil]
    rfl
  | true =>
    obtain ⟨events, hattempt, hrun⟩ := attempt_eq b { w with synthesizer := begun w.synthesizer }
    exact ⟨events, .dirty hdirty hattempt, hrun⟩

end Work

/-! ### Histories -/

namespace Workbench

variable (b : Backend σ P) (w : Workbench σ P)

theorem perform_setIds (ids : List String) :
    (Work.perform b (.setIds ids)).run w = .ok (.recorded (w.synthesizer.setIds ids).1)
      { w with synthesizer := (w.synthesizer.setIds ids).2 } := by
  rw [Work.perform, EStateM.run_bind, Work.setIds_eq]
  rfl

theorem after_setIds (ids : List String) :
    w.after b (.setIds ids) = { w with synthesizer := (w.synthesizer.setIds ids).2 } := by
  rw [after, perform_setIds]

theorem answer_setIds (ids : List String) :
    w.answer b (.setIds ids) = .ok (.recorded (w.synthesizer.setIds ids).1) := by
  rw [answer, perform_setIds]

/-- What a rebuild returns and leaves, with what it writes into the journal. -/
theorem rebuild_cases :
    ∃ ending events, Work.Rebuilt b w.synthesizer w.state ending events ∧
      ending = w.synthesizer.rebuild b w.state ∧
      w.answer b .rebuild = ending.1.map .rebuild ∧
      w.after b .rebuild = ⟨ending.2.1, ending.2.2, w.journal ++ events⟩ := by
  obtain ⟨events, hrebuilt, hrun⟩ := Work.rebuild_eq b w
  refine ⟨_, events, hrebuilt, rfl, ?_⟩
  rw [answer, after, Work.perform, EStateM.run_bind, hrun]
  obtain ⟨result, s, state⟩ := w.synthesizer.rebuild b w.state
  cases result with
  | error e => exact ⟨rfl, rfl⟩
  | ok outcome => exact ⟨rfl, rfl⟩

/-- **A step at work is the step.** -/
theorem after_eq (e : SynthesizerStep) :
    ((w.after b e).synthesizer, (w.after b e).state) =
      Synthesizer.step b (w.synthesizer, w.state) e := by
  cases e with
  | setIds ids =>
    rw [after_setIds]
    rfl
  | sync c =>
    show ((w.after b (.setIds c.ids)).synthesizer, (w.after b (.setIds c.ids)).state) = _
    rw [after_setIds]
    rfl
  | rebuild =>
    obtain ⟨ending, events, -, rfl, -, hafter⟩ := rebuild_cases b w
    rw [hafter]
    rfl

/-- **A history at work is the history.** -/
theorem history_eq (steps : List SynthesizerStep) :
    ((w.history b steps).synthesizer, (w.history b steps).state) =
      Synthesizer.run b (w.synthesizer, w.state) steps := by
  induction steps generalizing w with
  | nil => rfl
  | cons e rest ih => rw [history, ih, Synthesizer.run, after_eq]

theorem history_append (h k : List SynthesizerStep) :
    w.history b (h ++ k) = (w.history b h).history b k := by
  induction h generalizing w with
  | nil => rfl
  | cons e rest ih => exact ih _

end Workbench
end ColorChain
