import ColorChain.Chain.Basic
import ColorChain.Program.Source
import ColorChain.Program.UniformBlock

/-! The synthesizer: one live program for a row of filters.

The synthesizer is *dirty* when the recorded ids are not those of the last attempt. A
rebuild on a dirty synthesizer is one attempt, successful or not, and leaves it clean; on a
clean one it does nothing. An attempt that succeeds releases the program that was active
before the new one takes its place, and an attempt that fails leaves it where it is. Values
and visibility reach a program through its uniform block and need no rebuild.

What compiles programs and owns them is a `Backend` over a state `σ` of its own. -/
namespace ColorChain

structure Backend (σ P : Type) where
  /-- Compiles a program, or tells why not. -/
  compile : Source → σ → Except String P × σ
  /-- Takes back a program that is being replaced. -/
  release : P → σ → σ
  /-- Writes a fragment text to a path. -/
  dump : String → String → σ → σ

/-- A compiled program and what it was compiled from. -/
structure ActiveProgram (P : Type) where
  program : P
  source : Source

structure Synthesizer (P : Type) where
  registry : Registry
  config : ProgramConfig
  /-- The recorded ids. -/
  ids : List String
  dirty : Bool
  active : Option (ActiveProgram P)
  /-- The number of attempts so far. -/
  rebuilds : Nat

inductive RebuildOutcome where
  /-- The recorded ids were those of the last attempt. -/
  | unchanged
  /-- A new program is active. -/
  | rebuilt
  deriving DecidableEq, Repr

namespace Synthesizer

variable {σ P : Type}

/-- Dirty and without ids, so that the first rebuild makes the program of no filters. -/
def new (registry : Registry) (config : ProgramConfig) : Synthesizer P where
  registry
  config
  ids := []
  dirty := true
  active := none
  rebuilds := 0

/-- Records the ids of a row of filters, and tells whether they are other ones. -/
def setIds (s : Synthesizer P) (ids : List String) : Bool × Synthesizer P :=
  if s.ids = ids then (false, s) else (true, { s with ids, dirty := true })

/-- Recording ids changes the ids and the flag, and nothing else. -/
theorem setIds_eq (s : Synthesizer P) (ids : List String) :
    (s.setIds ids).2 = { s with ids, dirty := s.dirty || s.ids != ids } := by
  unfold setIds
  by_cases h : s.ids = ids
  · rw [if_pos h, ← h, bne_self_eq_false, Bool.or_false]
  · rw [if_neg h, bne_iff_ne.mpr h, Bool.or_true]

/-- Records the ids of a chain. -/
def sync (s : Synthesizer P) (c : Chain) : Bool × Synthesizer P := s.setIds c.ids

/-- Puts a compiled program in the place of the active one, which is released first. -/
def install (b : Backend σ P) (s : Synthesizer P) (program : P) (source : Source) (w : σ) :
    Synthesizer P × σ :=
  let w := match s.active with
    | none => w
    | some previous => b.release previous.program w
  ({ s with active := some ⟨program, source⟩ }, w)

/-- Compiles a program of the recorded ids and installs it. -/
def attempt (b : Backend σ P) (s : Synthesizer P) (w : σ) :
    Except ProgramError RebuildOutcome × Synthesizer P × σ :=
  match s.registry.synthesize s.ids s.config with
  | .error e => (.error e, s, w)
  | .ok source =>
    let w := match s.config.dumpPath with
      | none => w
      | some path => b.dump path source.fragment w
    match b.compile source w with
    | (.error reason, w) => (.error (.compile reason source.fragment), s, w)
    | (.ok program, w) => (.ok .rebuilt, install b s program source w)

/-- Makes an attempt if the synthesizer is dirty. -/
def rebuild (b : Backend σ P) (s : Synthesizer P) (w : σ) :
    Except ProgramError RebuildOutcome × Synthesizer P × σ :=
  if s.dirty then attempt b { s with dirty := false, rebuilds := s.rebuilds + 1 } w
  else (.ok .unchanged, s, w)

/-- The uniform block of a chain for the active program; `none` without a program. -/
def uniforms (s : Synthesizer P) (c : Chain) : Except ProgramError (Option UniformBlock) :=
  match s.active with
  | none => .ok none
  | some active => ((UniformBlock.new active.source.layout).write c.slots c.visibility).map some

end Synthesizer

/-! ### Histories -/

/-- A step in the life of a synthesizer. -/
inductive SynthesizerStep where
  | setIds (ids : List String)
  | sync (c : Chain)
  | rebuild

namespace Synthesizer

variable {σ P : Type} (b : Backend σ P)

/-- The synthesizer and its backend's state after a step. -/
def step (s : Synthesizer P × σ) : SynthesizerStep → Synthesizer P × σ
  | .setIds ids => ((s.1.setIds ids).2, s.2)
  | .sync c => ((s.1.sync c).2, s.2)
  | .rebuild => (rebuild b s.1 s.2).2

/-- The synthesizer and its backend's state after a history. -/
def run (s : Synthesizer P × σ) : List SynthesizerStep → Synthesizer P × σ
  | [] => s
  | e :: rest => run (step b s e) rest

end Synthesizer
end ColorChain
