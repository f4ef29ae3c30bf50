import ColorChain.Proofs.Chain.Keys
import ColorChain.Proofs.Program.InPlace
import Mathlib.Data.List.Induction

/-! Programs are rebuilt when the row of filters has changed, and only then.

What a synthesizer remembers of its history is one flag, and what the steps returned says which:
it is dirty until the first attempt, and after an attempt as soon as other ids are recorded
(`Stale`). While it is clean, its ids are those of the last attempt. So a synthesizer that is
synced and rebuilt once a frame makes one attempt for the first frame and one for each frame with
other ids than the frame before (`attempts_follow_changes`). -/
namespace ColorChain

variable {σ P : Type}

/-! ### Answers -/

namespace Work

/-- Whether a step was an attempt to rebuild, going by what it returned. -/
def attempted : Except ProgramError Answer → Bool
  | .ok (.recorded _) => false
  | .ok (.rebuild outcome) => outcome = .rebuilt
  | .error _ => true

/-- By what the steps so far returned, the recorded ids need not be those of the last attempt: there
was none, or other ids have been recorded since. -/
def Stale (answers : List (Except ProgramError Answer)) : Prop :=
  (∀ a ∈ answers, attempted a = false) ∨
    ∃ before after, answers = before ++ .ok (.recorded true) :: after ∧
      ∀ a ∈ after, attempted a = false

theorem stale_concat {answers : List (Except ProgramError Answer)}
    {a : Except ProgramError Answer} :
    Stale (answers ++ [a]) ↔
      attempted a = false ∧ (Stale answers ∨ a = .ok (.recorded true)) := by
  constructor
  · rintro (hnone | ⟨before, after, heq, hafter⟩)
    · obtain ⟨hnone, ha⟩ := List.forall_mem_append.mp hnone
      exact ⟨ha a List.mem_cons_self, .inl (.inl hnone)⟩
    · -- The recording is either the last step or one before it.
      rcases List.eq_nil_or_concat after with rfl | ⟨after, last, rfl⟩
      · obtain ⟨-, hlast⟩ := List.append_inj' heq rfl
        cases hlast
        exact ⟨rfl, .inr rfl⟩
      · rw [List.concat_eq_append, ← List.cons_append, ← List.append_assoc] at heq
        obtain ⟨hanswers, hlast⟩ := List.append_inj' heq rfl
        cases hlast
        rw [List.concat_eq_append, List.forall_mem_append] at hafter
        exact ⟨hafter.2 a List.mem_cons_self, .inl (.inr ⟨before, after, hanswers, hafter.1⟩)⟩
  · rintro ⟨ha, (hnone | ⟨before, after, rfl, hafter⟩) | rfl⟩
    · exact .inl (List.forall_mem_append.mpr ⟨hnone, List.forall_mem_singleton.mpr ha⟩)
    · refine .inr ⟨before, after ++ [a], ?_, ?_⟩
      · rw [List.append_assoc, List.cons_append]
      · exact List.forall_mem_append.mpr ⟨hafter, List.forall_mem_singleton.mpr ha⟩
    · exact .inr ⟨answers, [], rfl, fun _ h => absurd h List.not_mem_nil⟩

end Work

/-! ### Steps -/

theorem Journal.sources_append (j k : Journal P) : (j ++ k).sources = j.sources ++ k.sources :=
  List.filterMap_append

theorem Work.Attempted.length_sources {b : Backend σ P} {s : Synthesizer P} {state : σ}
    {ending : Except ProgramError RebuildOutcome × Synthesizer P × σ} {events : Journal P}
    (h : Attempted b s state ending events) : events.sources.length ≤ 1 := by
  cases h with
  | unsynthesized e hsource => exact Nat.zero_le 1
  | refused source reason state hsource hcompile => exact Nat.le_refl 1
  | rebuilt source program state hsource hcompile =>
    cases s.program? with
    | none => exact Nat.le_refl 1
    | some previous => exact Nat.le_refl 1

namespace Workbench

/-- What a rebuild that leaves `w'` does to the synthesizer, by what it returns. -/
structure Attempt (w w' : Workbench σ P) (answer : Except ProgramError Work.Answer) : Prop where
  returned : ∃ result : Except ProgramError RebuildOutcome, answer = result.map .rebuild
  /-- A dirty synthesizer makes an attempt, and a clean one does not. -/
  attempted : Work.attempted answer = w.synthesizer.dirty
  rebuilds : w'.synthesizer.rebuilds = w.synthesizer.rebuilds + w.synthesizer.dirty.toNat
  /-- An attempt hands at most one source to the compiler. -/
  sources : ∃ sources, w'.journal.sources = w.journal.sources ++ sources ∧
    sources.length ≤ w.synthesizer.dirty.toNat
  clean : w'.synthesizer.dirty = false
  ids : w'.synthesizer.ids = w.synthesizer.ids
  idle : w.synthesizer.dirty = false → answer = .ok (.rebuild .unchanged) ∧ w' = w

/-- Two rows differ in length or at some position. -/
def Differ (old ids : List String) : Prop :=
  old.length ≠ ids.length ∨ ∃ i : Nat, ∃ a b, old[i]? = some a ∧ ids[i]? = some b ∧ a ≠ b

theorem differ_iff {old ids : List String} : Differ old ids ↔ old ≠ ids := by
  constructor
  · rintro (hlength | ⟨i, a, b, ha, hb, hne⟩) rfl
    · exact hlength rfl
    · exact hne (Option.some.inj (ha.symm.trans hb))
  · intro hne
    by_contra hsame
    rw [Differ, not_or, not_not] at hsame
    refine hne (List.ext_getElem hsame.1 fun i hold hids => ?_)
    by_contra hdiffer
    exact hsame.2 ⟨i, old[i], ids[i], List.getElem?_eq_getElem hold,
      List.getElem?_eq_getElem hids, hdiffer⟩

/-- What recording ids does, by what it returns. -/
structure Recording (w w' : Workbench σ P) (ids : List String)
    (answer : Except ProgramError Work.Answer) : Prop where
  /-- It returns whether the ids are other ones. -/
  changed : ∃ changed, answer = .ok (.recorded changed) ∧
    (changed = true ↔ Differ w.synthesizer.ids ids)
  dirty : w'.synthesizer.dirty = true ↔
    w.synthesizer.dirty = true ∨ answer = .ok (.recorded true)
  ids : w'.synthesizer.ids = ids
  rebuilds : w'.synthesizer.rebuilds = w.synthesizer.rebuilds
  same : answer = .ok (.recorded false) → w' = w

variable (b : Backend σ P) (w : Workbench σ P)

theorem rebuild_attempt : Attempt w (w.after b .rebuild) (w.answer b .rebuild) := by
  obtain ⟨ending, events, hrebuilt, -, hanswer, hafter⟩ := rebuild_cases b w
  rw [hanswer, hafter]
  cases hrebuilt with
  | clean hdirty =>
    refine ⟨⟨_, rfl⟩, hdirty.symm, ?_, ⟨[], Journal.sources_append _ _, Nat.zero_le _⟩, hdirty, rfl,
      fun _ => ⟨rfl, ?_⟩⟩
    · rw [hdirty]
      rfl
    · rw [List.append_nil]
  | dirty hdirty hattempt =>
    have hrebuilds : w.synthesizer.rebuilds + 1 =
        w.synthesizer.rebuilds + w.synthesizer.dirty.toNat := by
      rw [hdirty]
      rfl
    have hsources : ∃ sources, (w.journal ++ events).sources = w.journal.sources ++ sources ∧
        sources.length ≤ w.synthesizer.dirty.toNat := by
      refine ⟨events.sources, Journal.sources_append _ _, ?_⟩
      rw [hdirty]
      exact hattempt.length_sources
    have hidle {p : Prop} : w.synthesizer.dirty = false → p := by
      intro hclean
      rw [hdirty] at hclean
      cases hclean
    cases hattempt with
    | unsynthesized e hsource =>
      exact ⟨⟨_, rfl⟩, hdirty.symm, hrebuilds, hsources, rfl, rfl, hidle⟩
    | refused source reason state hsource hcompile =>
      exact ⟨⟨_, rfl⟩, hdirty.symm, hrebuilds, hsources, rfl, rfl, hidle⟩
    | rebuilt source program state hsource hcompile =>
      exact ⟨⟨_, rfl⟩, hdirty.symm, hrebuilds, hsources, rfl, rfl, hidle⟩

theorem setIds_recording (ids : List String) :
    Recording w (w.after b (.setIds ids)) ids (w.answer b (.setIds ids)) := by
  rw [after_setIds, answer_setIds, Synthesizer.setIds]
  by_cases h : w.synthesizer.ids = ids
  · rw [if_pos h]
    refine ⟨⟨false, rfl, ?_⟩, ?_, h, rfl, fun _ => rfl⟩
    · simp [differ_iff, h]
    · simp
  · rw [if_neg h]
    refine ⟨⟨true, rfl, ?_⟩, ?_, rfl, rfl, ?_⟩
    · simp [differ_iff, h]
    · simp
    · intro hsame
      cases hsame

theorem sync_recording (c : Chain) :
    Recording w (w.after b (.sync c)) c.ids (w.answer b (.sync c)) :=
  setIds_recording b w c.ids

/-! ### Histories -/

theorem answers_append (h k : List SynthesizerStep) :
    w.answers b (h ++ k) = w.answers b h ++ (w.history b h).answers b k := by
  induction h generalizing w with
  | nil => rfl
  | cons e rest ih =>
    rw [List.cons_append, answers, answers, ih]
    rfl

theorem answers_concat (h : List SynthesizerStep) (e : SynthesizerStep) :
    w.answers b (h ++ [e]) = w.answers b h ++ [(w.history b h).answer b e] :=
  answers_append b w h [e]

variable {b w} {w' : Workbench σ P} {answer : Except ProgramError Work.Answer}
  {answers : List (Except ProgramError Work.Answer)}

theorem Recording.attempted {ids : List String} (h : Recording w w' ids answer) :
    Work.attempted answer = false := by
  obtain ⟨changed, hanswer, -⟩ := h.changed
  rw [hanswer]
  rfl

/-- A synthesizer that is clean after recording ids was clean and has recorded the same ones. -/
theorem Recording.eq_of_clean {ids : List String} (h : Recording w w' ids answer)
    (hclean : w'.synthesizer.dirty = false) : w' = w := by
  obtain ⟨changed, hanswer, -⟩ := h.changed
  cases changed with
  | false => exact h.same hanswer
  | true =>
    rw [h.dirty.mpr (.inr hanswer)] at hclean
    cases hclean

/-- Recording ids makes the synthesizer dirty if they are other ones, and never clean. -/
theorem Recording.stale {ids : List String} (h : Recording w w' ids answer)
    (hw : w.synthesizer.dirty = true ↔ Work.Stale answers) :
    w'.synthesizer.dirty = true ↔ Work.Stale (answers ++ [answer]) := by
  rw [Work.stale_concat, h.dirty, hw]
  exact (and_iff_right h.attempted).symm

/-- A rebuild leaves a clean synthesizer, whether it makes an attempt or none is due. -/
theorem Attempt.stale (h : Attempt w w' answer)
    (hw : w.synthesizer.dirty = true ↔ Work.Stale answers) :
    w'.synthesizer.dirty = true ↔ Work.Stale (answers ++ [answer]) := by
  rw [Work.stale_concat, h.clean, h.attempted, ← hw]
  constructor
  · intro hdirty
    cases hdirty
  · rintro ⟨hclean, hdirty | hrecorded⟩
    · rw [hdirty] at hclean
      cases hclean
    · obtain ⟨result, hreturned⟩ := h.returned
      rw [hreturned] at hrecorded
      cases result <;> cases hrecorded

/-- **A synthesizer is dirty when its steps have returned that it must be.** -/
theorem dirty_iff_stale (hw : w.synthesizer.dirty = true) (steps : List SynthesizerStep) :
    (w.history b steps).synthesizer.dirty = true ↔ Work.Stale (w.answers b steps) := by
  induction steps using List.reverseRecOn with
  | nil => exact iff_of_true hw (.inl fun _ h => absurd h List.not_mem_nil)
  | append_singleton steps e ih =>
    rw [history_append, answers_concat]
    cases e with
    | setIds ids => exact (setIds_recording b _ ids).stale ih
    | sync c => exact (sync_recording b _ c).stale ih
    | rebuild => exact (rebuild_attempt b _).stale ih

theorem Recording.counts {ids : List String} (h : Recording w w' ids answer) :
    w'.synthesizer.rebuilds = w.synthesizer.rebuilds + (Work.attempted answer).toNat := by
  rw [h.rebuilds, h.attempted]
  rfl

theorem after_rebuilds (b : Backend σ P) (w : Workbench σ P) (e : SynthesizerStep) :
    (w.after b e).synthesizer.rebuilds =
      w.synthesizer.rebuilds + (Work.attempted (w.answer b e)).toNat := by
  cases e with
  | setIds ids => exact (setIds_recording b w ids).counts
  | sync c => exact (sync_recording b w c).counts
  | rebuild =>
    have h := rebuild_attempt b w
    rw [h.rebuilds, h.attempted]

/-- The count is of the attempts, failed ones included. -/
theorem history_rebuilds (b : Backend σ P) (w : Workbench σ P) (steps : List SynthesizerStep) :
    (w.history b steps).synthesizer.rebuilds =
      w.synthesizer.rebuilds + (w.answers b steps).countP Work.attempted := by
  induction steps generalizing w with
  | nil => rfl
  | cons e rest ih =>
    rw [history, ih, after_rebuilds, Workbench.answers, List.countP_cons, Nat.add_assoc]
    cases Work.attempted (w.answer b e) <;> simp [Nat.add_comm]

/-! ### The last attempt -/

/-- The last rebuild of a history that returned what `p` looks for, if there is one, comes after the
steps `before`. -/
def Last (p : Except ProgramError Work.Answer → Bool) (b : Backend σ P) (w : Workbench σ P)
    (steps before : List SynthesizerStep) : Prop :=
  ∃ after, steps = before ++ .rebuild :: after ∧
    p ((w.history b before).answer b .rebuild) = true ∧
    ∀ a ∈ (w.history b (before ++ [.rebuild])).answers b after, p a = false

variable {p : Except ProgramError Work.Answer → Bool} {steps before : List SynthesizerStep}

theorem last_concat (h : p ((w.history b before).answer b .rebuild) = true) :
    Last p b w (before ++ [.rebuild]) before :=
  ⟨[], rfl, h, fun _ h => absurd h List.not_mem_nil⟩

/-- A step that returns something else comes after the last one. -/
theorem Last.concat (h : Last p b w steps before) {e : SynthesizerStep}
    (he : p ((w.history b steps).answer b e) = false) : Last p b w (steps ++ [e]) before := by
  obtain ⟨after, rfl, hlast, hafter⟩ := h
  refine ⟨after ++ [e], ?_, hlast, ?_⟩
  · rw [List.append_assoc, List.cons_append]
  · rw [answers_concat]
    refine List.forall_mem_append.mpr ⟨hafter, List.forall_mem_singleton.mpr ?_⟩
    rw [← history_append, List.append_assoc]
    exact he

/-- **A clean synthesizer has the ids of the last attempt.** -/
theorem exists_last_attempted (hw : w.synthesizer.dirty = true)
    (hclean : (w.history b steps).synthesizer.dirty = false) :
    ∃ before, Last Work.attempted b w steps before ∧
      (w.history b before).synthesizer.ids = (w.history b steps).synthesizer.ids := by
  induction steps using List.reverseRecOn with
  | nil =>
    rw [history, hw] at hclean
    cases hclean
  | append_singleton steps e ih =>
    rw [history_append] at hclean ⊢
    have hkept : (w.history b steps).synthesizer.dirty = false →
        ((w.history b steps).after b e).synthesizer.ids = (w.history b steps).synthesizer.ids →
        Work.attempted ((w.history b steps).answer b e) = false →
        ∃ before, Last Work.attempted b w (steps ++ [e]) before ∧
          (w.history b before).synthesizer.ids =
            ((w.history b steps).after b e).synthesizer.ids := by
      intro hbefore hids he
      obtain ⟨before, hlast, hsame⟩ := ih hbefore
      exact ⟨before, hlast.concat he, hsame.trans hids.symm⟩
    cases e with
    | setIds ids =>
      have h := setIds_recording b (w.history b steps) ids
      have heq := h.eq_of_clean hclean
      exact hkept (heq ▸ hclean) (by rw [heq]) h.attempted
    | sync c =>
      have h := sync_recording b (w.history b steps) c
      have heq := h.eq_of_clean hclean
      exact hkept (heq ▸ hclean) (by rw [heq]) h.attempted
    | rebuild =>
      have h := rebuild_attempt b (w.history b steps)
      cases hdirty : (w.history b steps).synthesizer.dirty with
      | true => exact ⟨steps, last_concat (h.attempted.trans hdirty), h.ids.symm⟩
      | false => exact hkept hdirty h.ids (h.attempted.trans hdirty)

/-! ### Frames -/

/-- What is done for frames that show the given chains. -/
def frames (chains : List Chain) : List SynthesizerStep :=
  chains.flatMap fun c => [.sync c, .rebuild]

/-- A frame leaves a clean synthesizer with the ids of its chain, after an attempt if they are not
those of the last one. -/
theorem frame_eq (b : Backend σ P) (w : Workbench σ P) (c : Chain) :
    let w' := (w.after b (.sync c)).after b .rebuild
    w'.synthesizer.dirty = false ∧ w'.synthesizer.ids = c.ids ∧
      w'.synthesizer.rebuilds = w.synthesizer.rebuilds +
        (w.synthesizer.dirty || w.synthesizer.ids != c.ids).toNat := by
  intro w'
  have hsync := sync_recording b w c
  have hrebuild := rebuild_attempt b (w.after b (.sync c))
  refine ⟨hrebuild.clean, hrebuild.ids.trans hsync.ids, ?_⟩
  rw [hrebuild.rebuilds, hsync.rebuilds]
  obtain ⟨changed, hanswer, hchanged⟩ := hsync.changed
  have hdirty : (w.after b (.sync c)).synthesizer.dirty =
      (w.synthesizer.dirty || w.synthesizer.ids != c.ids) := by
    rw [Bool.eq_iff_iff, hsync.dirty, Bool.or_eq_true, bne_iff_ne, ← differ_iff, ← hchanged, hanswer]
    simp
  rw [hdirty]

/-- The number of chains with other ids than the chain before. -/
def changes (previous : Chain) (chains : List Chain) : Nat :=
  ((previous :: chains).zip chains).countP fun p => p.1.ids != p.2.ids

theorem changes_cons (previous c : Chain) (rest : List Chain) :
    changes previous (c :: rest) = (previous.ids != c.ids).toNat + changes c rest := by
  rw [changes, changes, List.zip_cons_cons, List.countP_cons, Nat.add_comm]
  cases previous.ids != c.ids with
  | false => rfl
  | true => rfl

theorem frames_rebuilds (hclean : w.synthesizer.dirty = false) {previous : Chain}
    (hids : w.synthesizer.ids = previous.ids) (chains : List Chain) :
    (w.history b (frames chains)).synthesizer.rebuilds =
      w.synthesizer.rebuilds + changes previous chains := by
  induction chains generalizing w previous with
  | nil => rfl
  | cons c rest ih =>
    obtain ⟨hclean', hids', hrebuilds⟩ := frame_eq b w c
    have hrest := ih hclean' hids'
    rw [hrebuilds, hclean, hids, Bool.false_or, Nat.add_assoc, ← changes_cons] at hrest
    exact hrest

/-- A frame with the ids of the frame before it leaves everything as it is. -/
theorem frame_idle (hclean : w.synthesizer.dirty = false) {c : Chain}
    (hids : w.synthesizer.ids = c.ids) :
    w.answers b (frames [c]) = [.ok (.recorded false), .ok (.rebuild .unchanged)] ∧
      w.history b (frames [c]) = w := by
  have hsync := sync_recording b w c
  have hanswer : w.answer b (.sync c) = .ok (.recorded false) := by
    obtain ⟨changed, hanswer, hchanged⟩ := hsync.changed
    cases changed with
    | false => exact hanswer
    | true => exact absurd hids (differ_iff.mp (hchanged.mp rfl))
  have hsame := hsync.same hanswer
  obtain ⟨hrebuild, hafter⟩ := (rebuild_attempt b w).idle hclean
  refine ⟨?_, ?_⟩
  · show [w.answer b (.sync c), (w.after b (.sync c)).answer b .rebuild] = _
    rw [hsame, hanswer, hrebuild]
  · show (w.after b (.sync c)).after b .rebuild = w
    rw [hsame, hafter]

end Workbench

/-- **Programs are rebuilt when the ids have changed, and only then.** After any history a
synthesizer is dirty when no attempt has been made or other ids have been recorded since the last
one, which is what recording returns; a dirty one makes an attempt at the next rebuild, successful
or not, and a clean one has the ids of the last attempt. So frames take one attempt, and one more for
each that has other ids than the frame before, and edits of a chain that leave its ids take none. -/
theorem attempts_follow_changes (b : Backend σ P) (registry : Registry) (config : ProgramConfig)
    (state : σ) (steps : List SynthesizerStep) :
    let start := Workbench.new registry config state
    let w := start.history b steps
    (w.synthesizer.dirty = true ↔ Work.Stale (start.answers b steps)) ∧
      (∀ ids, Workbench.Recording w (w.after b (.setIds ids)) ids (w.answer b (.setIds ids))) ∧
      (∀ c, Workbench.Recording w (w.after b (.sync c)) c.ids (w.answer b (.sync c))) ∧
      Workbench.Attempt w (w.after b .rebuild) (w.answer b .rebuild) ∧
      w.synthesizer.rebuilds = (start.answers b steps).countP Work.attempted ∧
      (w.synthesizer.dirty = false → ∃ before,
        Workbench.Last Work.attempted b start steps before ∧
          (start.history b before).synthesizer.ids = w.synthesizer.ids) ∧
      (∀ first rest, (start.history b (Workbench.frames (first :: rest))).synthesizer.rebuilds =
        1 + Workbench.changes first rest) ∧
      ∀ c es, (∀ e ∈ es, Edit.structural e = false) →
        let shown := w.history b (Workbench.frames [c])
        let next := Workbench.frames [Editor.history c es]
        shown.answers b next = [.ok (.recorded false), .ok (.rebuild .unchanged)] ∧
          shown.history b next = shown := by
  intro start w
  have hstart : start.synthesizer.dirty = true := rfl
  refine ⟨Workbench.dirty_iff_stale hstart steps, fun ids => Workbench.setIds_recording b w ids,
    fun c => Workbench.sync_recording b w c, Workbench.rebuild_attempt b w, ?_,
    Workbench.exists_last_attempted hstart, fun first rest => ?_, fun c es hes => ?_⟩
  · exact (Workbench.history_rebuilds b start steps).trans (Nat.zero_add _)
  · obtain ⟨hclean, hids, hrebuilds⟩ := Workbench.frame_eq b start first
    exact (Workbench.frames_rebuilds hclean hids rest).trans (by rw [hrebuilds]; rfl)
  · obtain ⟨hclean, hids, -⟩ := Workbench.frame_eq b w c
    exact Workbench.frame_idle hclean (hids.trans (Chain.ids_history c hes).symm)

/-- A backend that refuses every program: the failed attempt leaves a clean synthesizer, and a
filter that is hidden and given another value makes for no other. -/
theorem attempts_follow_changes_refused :
    let b : Backend Unit Unit := ⟨fun _ _ => (.error "refused", ()), fun _ _ => (), fun _ _ _ => ()⟩
    let c := (Chain.new .builtin).run [.add "posterize"]
    let es : List Edit := [.setVisible ⟨0⟩ false, .setValue ⟨0⟩ 0 (.number 3), .setName "dim"]
    let start := Workbench.new .builtin .default ()
    let w := start.history b (Workbench.frames [c])
    w.synthesizer.dirty = false ∧ w.synthesizer.rebuilds = 1 ∧
      (∃ before, Workbench.Last Work.attempted b start (Workbench.frames [c]) before ∧
        (start.history b before).synthesizer.ids = w.synthesizer.ids) ∧
      (∀ e ∈ es, Edit.structural e = false) ∧
      w.history b (Workbench.frames [Editor.history c es]) = w := by
  intro b c es start w
  obtain ⟨-, -, -, -, -, hlast, hframes, -⟩ :=
    attempts_follow_changes b .builtin .default () (Workbench.frames [c])
  obtain ⟨-, -, -, -, -, -, -, hquiet⟩ := attempts_follow_changes b .builtin .default () []
  have hclean : w.synthesizer.dirty = false := by decide +kernel
  have hes : ∀ e ∈ es, Edit.structural e = false := by
    simp [es, Edit.structural]
  exact ⟨hclean, hframes c [], hlast hclean, hes, (hquiet c es hes).2⟩

end ColorChain
