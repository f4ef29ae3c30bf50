import ColorChain.Proofs.Program.InPlace
import Mathlib.Data.List.Nodup

/-! Every program but the last is released, once.

The programs that a journal has as made are those that it has as released, and after them the
one that is active: a step that adds to one side adds the same to the other. So whatever the
backend compiles or refuses, no program is lost, none is released twice, and the one in use is
not released (`released_but_last`). And the journal says what the backend was asked for, and in
which order: the backend's state is what doing that makes of the state at the start
(`Backend.Replays`). -/
namespace ColorChain

variable {σ P : Type}

namespace Journal

theorem made_append (j k : Journal P) : (j ++ k).made = j.made ++ k.made :=
  List.filterMap_append

theorem released_append (j k : Journal P) : (j ++ k).released = j.released ++ k.released :=
  List.filterMap_append

theorem made_replacing (previous : Option P) (source : Source) (program : P) :
    (replacing previous source program).made = [program] := by
  cases previous <;> rfl

theorem released_replacing (previous : Option P) (source : Source) (program : P) :
    (replacing previous source program).released = previous.toList := by
  cases previous <;> rfl

end Journal

/-! ### Replaying -/

namespace Backend

/-- A backend that does what a journal says comes from one state to another. A text is written, if
the configuration has it written, before it is compiled. -/
inductive Replays (b : Backend σ P) (config : ProgramConfig) : σ → Journal P → σ → Prop
  | nil (state) : Replays b config state [] state
  | compiled {state state' last source program events}
      (hcompile : b.compile source (b.prepared config source state) = (.ok program, state'))
      (hrest : Replays b config state' events last) :
      Replays b config state (.compiled source program :: events) last
  | refused {state state' last source reason events}
      (hcompile : b.compile source (b.prepared config source state) = (.error reason, state'))
      (hrest : Replays b config state' events last) :
      Replays b config state (.refused source reason :: events) last
  | released {state last program events}
      (hrest : Replays b config (b.release program state) events last) :
      Replays b config state (.released program :: events) last
  | installed {state last program events} (hrest : Replays b config state events last) :
      Replays b config state (.installed program :: events) last

variable {b : Backend σ P} {config : ProgramConfig} {start middle last : σ} {j k : Journal P}

theorem Replays.append (h : b.Replays config start j middle) (h' : b.Replays config middle k last) :
    b.Replays config start (j ++ k) last := by
  induction h with
  | nil state => exact h'
  | compiled hcompile hrest ih => exact .compiled hcompile (ih h')
  | refused hcompile hrest ih => exact .refused hcompile (ih h')
  | released hrest ih => exact .released (ih h')
  | installed hrest ih => exact .installed (ih h')

end Backend

/-- What an attempt writes into the journal is what it has the backend do. -/
theorem Work.Attempted.replays {b : Backend σ P} {s : Synthesizer P} {state : σ}
    {ending : Except ProgramError RebuildOutcome × Synthesizer P × σ} {events : Journal P}
    (h : Attempted b s state ending events) :
    b.Replays s.config state events ending.2.2 ∧ ending.2.1.config = s.config := by
  cases h with
  | unsynthesized e hsource => exact ⟨.nil _, rfl⟩
  | refused source reason state' hsource hcompile => exact ⟨.refused hcompile (.nil _), rfl⟩
  | rebuilt source program state' hsource hcompile =>
    refine ⟨.compiled hcompile ?_, rfl⟩
    rw [Synthesizer.program?, Synthesizer.install]
    cases s.active with
    | none => exact .installed (.nil _)
    | some previous => exact .released (.installed (.nil _))

namespace Workbench

/-- The journal says how the backend has come from `start` to the state that it is in. -/
structure Replayed (b : Backend σ P) (config : ProgramConfig) (start : σ) (w : Workbench σ P) :
    Prop where
  configured : w.synthesizer.config = config
  replays : b.Replays config start w.journal w.state

variable {b : Backend σ P} {config : ProgramConfig} {start : σ} {w : Workbench σ P}

theorem Replayed.after_setIds (hw : w.Replayed b config start) (ids : List String) :
    (w.after b (.setIds ids)).Replayed b config start := by
  rw [Workbench.after_setIds, Synthesizer.setIds_eq]
  exact ⟨hw.configured, hw.replays⟩

theorem Replayed.after (hw : w.Replayed b config start) (e : SynthesizerStep) :
    (w.after b e).Replayed b config start := by
  cases e with
  | setIds ids => exact hw.after_setIds ids
  | sync c => exact hw.after_setIds c.ids
  | rebuild =>
    obtain ⟨ending, events, hrebuilt, -, -, hafter⟩ := rebuild_cases b w
    rw [hafter]
    cases hrebuilt with
    | clean hdirty => exact ⟨hw.configured, hw.replays.append (.nil _)⟩
    | dirty hdirty hattempt =>
      obtain ⟨hreplays, hconfig⟩ := hattempt.replays
      have hsame : (Work.begun w.synthesizer).config = config := hw.configured
      rw [hsame] at hreplays hconfig
      exact ⟨hconfig, hw.replays.append hreplays⟩

theorem Replayed.history (hw : w.Replayed b config start) (steps : List SynthesizerStep) :
    (w.history b steps).Replayed b config start := by
  induction steps generalizing w with
  | nil => exact hw
  | cons e rest ih => exact ih (hw.after e)

/-! ### Balance -/

/-- All programs made are the released ones, in the same order, and the active one. -/
structure Balanced (w : Workbench σ P) : Prop where
  made : w.journal.made = w.journal.released ++ w.synthesizer.program?.toList
  /-- Without a program none has been made. -/
  idle : w.synthesizer.program? = none → w.journal.released = []

theorem balanced_new (registry : Registry) (config : ProgramConfig) (state : σ) :
    (new registry config state : Workbench σ P).Balanced :=
  ⟨rfl, fun _ => rfl⟩

/-- What a rebuild that leaves `w'` has done with programs, by what it returns. -/
inductive Exchange (w w' : Workbench σ P) : Except ProgramError Work.Answer → Prop where
  /-- A clean synthesizer keeps its program and asks nothing of its backend. -/
  | unchanged (hw : w' = w) : Exchange w w' (.ok (.rebuild .unchanged))
  /-- No program is made, released or installed. -/
  | failed (e : ProgramError) (hactive : w'.synthesizer.active = w.synthesizer.active)
      (hmade : w'.journal.made = w.journal.made)
      (hreleased : w'.journal.released = w.journal.released) : Exchange w w' (.error e)
  /-- A program is compiled, the one before is released, and then the new one is installed. -/
  | rebuilt (source : Source) (program : P)
      (hactive : w'.synthesizer.active = some ⟨program, source⟩)
      (hjournal : w'.journal =
        w.journal ++ .replacing w.synthesizer.program? source program) :
      Exchange w w' (.ok (.rebuild .rebuilt))

theorem rebuild_exchange (b : Backend σ P) (w : Workbench σ P) :
    Exchange w (w.after b .rebuild) (w.answer b .rebuild) := by
  obtain ⟨ending, events, hrebuilt, -, hanswer, hafter⟩ := rebuild_cases b w
  rw [hanswer, hafter]
  cases hrebuilt with
  | clean hdirty =>
    refine .unchanged ?_
    rw [List.append_nil]
  | dirty hdirty hattempt =>
    cases hattempt with
    | unsynthesized e hsource =>
      refine .failed e rfl ?_ ?_
      · rw [List.append_nil]
      · rw [List.append_nil]
    | refused source reason state hsource hcompile =>
      refine .failed _ rfl ?_ ?_
      · exact (Journal.made_append _ _).trans (List.append_nil _)
      · exact (Journal.released_append _ _).trans (List.append_nil _)
    | rebuilt source program state hsource hcompile => exact .rebuilt source program rfl rfl

theorem Exchange.balanced {w w' : Workbench σ P} {answer : Except ProgramError Work.Answer}
    (h : Exchange w w' answer) (hw : w.Balanced) : w'.Balanced := by
  cases h with
  | unchanged heq =>
    rw [heq]
    exact hw
  | failed e hactive hmade hreleased =>
    have hprogram : w'.synthesizer.program? = w.synthesizer.program? := by
      rw [Synthesizer.program?, hactive, Synthesizer.program?]
    refine ⟨?_, fun hidle => ?_⟩
    · rw [hmade, hreleased, hprogram, hw.made]
    · rw [hreleased, hw.idle (hprogram ▸ hidle)]
  | rebuilt source program hactive hjournal =>
    have hprogram : w'.synthesizer.program? = some program := by
      rw [Synthesizer.program?, hactive]
      rfl
    refine ⟨?_, fun hidle => ?_⟩
    · rw [hjournal, Journal.made_append, Journal.released_append, Journal.made_replacing,
        Journal.released_replacing, hprogram, hw.made]
      rfl
    · rw [hprogram] at hidle
      cases hidle

/-- Recording ids has nothing to do with programs. -/
theorem Balanced.after_setIds (hw : w.Balanced) (b : Backend σ P) (ids : List String) :
    (w.after b (.setIds ids)).Balanced := by
  rw [Workbench.after_setIds, Synthesizer.setIds_eq]
  exact ⟨hw.made, hw.idle⟩

theorem Balanced.after (hw : w.Balanced) (e : SynthesizerStep) : (w.after b e).Balanced := by
  cases e with
  | setIds ids => exact hw.after_setIds b ids
  | sync c => exact hw.after_setIds b c.ids
  | rebuild => exact (rebuild_exchange b w).balanced hw

theorem Balanced.history (hw : w.Balanced) (steps : List SynthesizerStep) :
    (w.history b steps).Balanced := by
  induction steps generalizing w with
  | nil => exact hw
  | cons e rest ih => exact ih (hw.after e)

/-- All but the last of what was made has been released, and the last is active. -/
theorem Balanced.last (hw : w.Balanced) :
    w.journal.released = w.journal.made.dropLast ∧
      w.synthesizer.program? = w.journal.made.getLast? := by
  rw [hw.made]
  cases h : w.synthesizer.program? with
  | none => simp [hw.idle h]
  | some program => simp

end Workbench

/-- **At most one program is live, and every other one has been released once.** After any
history, whatever the backend compiled or refused, the released programs are the programs made
except the last, in the same order, and the last is the active one. The backend has compiled and
released what the journal says, in its order, and nothing else. Recording ids touches no program,
and a rebuild releases one only if it has compiled another, before it installs that. -/
theorem released_but_last (b : Backend σ P) (registry : Registry) (config : ProgramConfig)
    (state : σ) (steps : List SynthesizerStep) :
    let w := (Workbench.new registry config state).history b steps
    w.journal.released = w.journal.made.dropLast ∧
      w.synthesizer.program? = w.journal.made.getLast? ∧
      (w.journal.made.Nodup →
        w.journal.released.Nodup ∧ ∀ program ∈ w.synthesizer.program?,
          program ∉ w.journal.released) ∧
      b.Replays config state w.journal w.state ∧
      (∀ ids, (w.after b (.setIds ids)).journal = w.journal) ∧
      (∀ c, (w.after b (.sync c)).journal = w.journal) ∧
      Workbench.Exchange w (w.after b .rebuild) (w.answer b .rebuild) := by
  intro w
  have hw : w.Balanced := (Workbench.balanced_new registry config state).history steps
  obtain ⟨hreleased, hactive⟩ := hw.last
  have hstart : (Workbench.new registry config state : Workbench σ P).Replayed b config state :=
    ⟨rfl, .nil state⟩
  refine ⟨hreleased, hactive, fun hnodup => ?_, (hstart.history steps).replays, fun ids => ?_, fun c => ?_,
    Workbench.rebuild_exchange b w⟩
  · rw [hw.made] at hnodup
    refine ⟨hnodup.of_append_left, fun program hprogram hmem => ?_⟩
    exact List.disjoint_of_nodup_append hnodup hmem (Option.mem_toList.mpr hprogram)
  · rw [Workbench.after_setIds]
  · show (w.after b (.setIds c.ids)).journal = w.journal
    rw [Workbench.after_setIds]

/-- Programs 0 and 1 are made, then no program of an id that is not known, and one is refused. -/
theorem released_but_last_refused :
    let b : Backend Nat Nat := ⟨fun source n =>
      if source.ids.length = 2 then (.error "too long", n) else (.ok n, n + 1), fun _ n => n,
      fun _ _ n => n⟩
    let w := (Workbench.new .builtin .default 0).history b [.rebuild, .setIds ["posterize"],
      .rebuild, .setIds ["missing"], .rebuild, .setIds ["posterize", "posterize"], .rebuild]
    w.journal.made.Nodup ∧ w.journal.released = [0] ∧ w.synthesizer.program? = some 1 ∧
      1 ∉ w.journal.released := by
  intro b w
  have hmade : w.journal.made = [0, 1] := by decide +kernel
  have hnodup : w.journal.made.Nodup := by
    rw [hmade]
    decide
  obtain ⟨hreleased, hactive, hlive, -⟩ := released_but_last b .builtin .default 0
    [.rebuild, .setIds ["posterize"], .rebuild, .setIds ["missing"], .rebuild,
      .setIds ["posterize", "posterize"], .rebuild]
  have hprogram : w.synthesizer.program? = some 1 := hactive.trans (by rw [hmade]; rfl)
  refine ⟨hnodup, hreleased.trans (by rw [hmade]; rfl), hprogram, ?_⟩
  exact (hlive hnodup).2 1 hprogram

end ColorChain
