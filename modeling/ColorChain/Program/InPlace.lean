import ColorChain.Program.Journal

/-! A synthesizer at work.

On a workbench a synthesizer that is held works with its backend, write by write, and an error
leaves both as the writes so far have made them. Every compilation, release and installation goes
into the workbench's journal where it happens, so the journal tells in which order a rebuild does
what it does. -/
namespace ColorChain

/-- A synthesizer, its backend's state, and what has become of programs so far. -/
structure Workbench (σ P : Type) where
  synthesizer : Synthesizer P
  state : σ
  journal : Journal P

/-- Work on a workbench. An error keeps the workbench as it is when the error arises. -/
abbrev Work (σ P α : Type) := EStateM ProgramError (Workbench σ P) α

namespace Work

variable {σ P : Type}

def log (event : ProgramEvent P) : Work σ P Unit :=
  modify fun w => { w with journal := w.journal ++ [event] }

/-! ### Structure -/

/-- Records ids and tells whether they are other ones: of another number, or other at some
position. -/
def setIds (ids : List String) : Work σ P Bool := do
  let old := (← get).synthesizer.ids
  if old.length == ids.length && (old.zip ids).all (fun p => p.1 == p.2) then
    return false
  modify fun w => { w with synthesizer.ids := ids }
  modify fun w => { w with synthesizer.dirty := true }
  return true

/-- Records the ids of a chain. -/
def sync (c : Chain) : Work σ P Bool := setIds c.ids

/-! ### Programs -/

variable (b : Backend σ P)

def compile (source : Source) : Work σ P (Except String P) := do
  let w ← get
  let (result, state) := b.compile source w.state
  set { w with state }
  match result with
  | .ok program => log (.compiled source program)
  | .error reason => log (.refused source reason)
  return result

def dump (path fragment : String) : Work σ P Unit :=
  modify fun w => { w with state := b.dump path fragment w.state }

/-- Takes the active program out of its place. -/
def takeActive : Work σ P (Option (ActiveProgram P)) := do
  let w ← get
  set { w with synthesizer.active := none }
  return w.synthesizer.active

def release (program : P) : Work σ P Unit := do
  modify fun w => { w with state := b.release program w.state }
  log (.released program)

def install (program : P) (source : Source) : Work σ P Unit := do
  modify fun w => { w with synthesizer.active := some ⟨program, source⟩ }
  log (.installed program)

/-- Puts a compiled program in the place of the active one, which is released first. -/
def replace (program : P) (source : Source) : Work σ P Unit := do
  match ← takeActive with
  | none => pure ()
  | some previous => release b previous.program
  install program source

/-- Compiles a source and puts the program in place. -/
def make (source : Source) : Work σ P RebuildOutcome := do
  match ← compile b source with
  | .ok program =>
    replace b program source
    return .rebuilt
  | .error reason => throw (.compile reason source.fragment)

/-- Makes a program of the recorded ids. -/
def attempt : Work σ P RebuildOutcome := do
  let s := (← get).synthesizer
  let source ← MonadExcept.ofExcept (s.registry.synthesize s.ids s.config)
  match s.config.dumpPath with
  | none => pure ()
  | some path => dump b path source.fragment
  make b source

/-- Makes an attempt if the ids are not those of the last one. -/
def rebuild : Work σ P RebuildOutcome := do
  if !(← get).synthesizer.dirty then
    return .unchanged
  modify fun w => { w with synthesizer.dirty := false }
  modify fun w => { w with synthesizer.rebuilds := w.synthesizer.rebuilds + 1 }
  attempt b

/-! ### Steps -/

/-- What a step returns. -/
inductive Answer where
  /-- Whether the ids were other ones. -/
  | recorded (changed : Bool)
  | rebuild (outcome : RebuildOutcome)
  deriving DecidableEq, Repr

/-- Takes a step. -/
def perform : SynthesizerStep → Work σ P Answer
  | .setIds ids => return .recorded (← setIds ids)
  | .sync c => return .recorded (← sync c)
  | .rebuild => return .rebuild (← rebuild b)

end Work

namespace Workbench

variable {σ P : Type} (b : Backend σ P)

/-- A new synthesizer on a workbench, with nothing in the journal. -/
def new (registry : Registry) (config : ProgramConfig) (state : σ) : Workbench σ P :=
  ⟨.new registry config, state, []⟩

/-- The workbench after a step, with or without an error. -/
def after (w : Workbench σ P) (e : SynthesizerStep) : Workbench σ P :=
  match (Work.perform b e).run w with
  | .ok _ w => w
  | .error _ w => w

/-- What a step returns. -/
def answer (w : Workbench σ P) (e : SynthesizerStep) : Except ProgramError Work.Answer :=
  match (Work.perform b e).run w with
  | .ok a _ => .ok a
  | .error e _ => .error e

/-- The workbench after a history of steps. -/
def history (w : Workbench σ P) : List SynthesizerStep → Workbench σ P
  | [] => w
  | e :: rest => history (w.after b e) rest

/-- What the steps of a history return, in order. -/
def answers (w : Workbench σ P) : List SynthesizerStep → List (Except ProgramError Work.Answer)
  | [] => []
  | e :: rest => w.answer b e :: answers (w.after b e) rest

end Workbench
end ColorChain
