import ColorChain.Program.Synthesizer

/-! Journals: what becomes of programs, in order.

A journal has the compilations that a backend was asked for, the programs that it was given
back, and the programs that a synthesizer took into use. The programs that were made and those
that were released are views of the journal, which is how to say of a whole history that no
program is lost or released twice. -/
namespace ColorChain

inductive ProgramEvent (P : Type) where
  | compiled (source : Source) (program : P)
  | refused (source : Source) (reason : String)
  | released (program : P)
  /-- A program becomes the active one. -/
  | installed (program : P)
  deriving DecidableEq

namespace ProgramEvent

variable {P : Type}

/-- The program that an event made. -/
def made? : ProgramEvent P → Option P
  | .compiled _ program => some program
  | .refused _ _ | .released _ | .installed _ => none

/-- The program that an event released. -/
def released? : ProgramEvent P → Option P
  | .released program => some program
  | .compiled _ _ | .refused _ _ | .installed _ => none

/-- What an event was a compilation of. -/
def source? : ProgramEvent P → Option Source
  | .compiled source _ | .refused source _ => some source
  | .released _ | .installed _ => none

end ProgramEvent

/-- The events so far, the earliest first. -/
abbrev Journal (P : Type) := List (ProgramEvent P)

namespace Journal

variable {P : Type}

/-- The programs made so far. -/
def made (j : Journal P) : List P := j.filterMap ProgramEvent.made?

/-- The programs released so far. -/
def released (j : Journal P) : List P := j.filterMap ProgramEvent.released?

/-- The sources handed to the compiler so far. -/
def sources (j : Journal P) : List Source := j.filterMap ProgramEvent.source?

end Journal
end ColorChain
