import ColorChain.Program.Source
import ColorChain.Program.UniformBlock
import ColorChain.Spectrum

/-! Render pipelines.

A pipeline draws into targets of one format with a uniform buffer that is as long as its
program's block. A program writes a floating-point colour, so a target must take one. -/
namespace ColorChain

/-- The formats a target can have. -/
inductive TargetFormat where
  | rgba8unorm
  | bgra8unormSrgb
  | rgba16float
  | rgba8uint
  | rgb9e5ufloat
  | depth32float
  deriving DecidableEq, Repr

namespace TargetFormat

/-- The format of a name. -/
def ofName? (name : String) : Option TargetFormat :=
  if name = "rgba8unorm" then some .rgba8unorm
  else if name = "bgra8unorm-srgb" then some .bgra8unormSrgb
  else if name = "rgba16float" then some .rgba16float
  else if name = "rgba8uint" then some .rgba8uint
  else if name = "rgb9e5ufloat" then some .rgb9e5ufloat
  else if name = "depth32float" then some .depth32float
  else none

/-- Whether a target of this format can be drawn to and takes a floating-point colour. -/
def takesColor : TargetFormat → Bool
  | .rgba8unorm | .bgra8unormSrgb | .rgba16float => true
  | .rgba8uint | .rgb9e5ufloat | .depth32float => false

end TargetFormat

structure Pipeline where
  format : TargetFormat
  /-- The length of the uniform buffer. -/
  byteSize : Nat
  deriving DecidableEq, Repr

namespace Pipeline

/-- The pipeline of a program, if the target takes its colour. -/
def ofSource? (format : TargetFormat) (source : Source) : Option Pipeline :=
  if format.takesColor then some ⟨format, source.layout.byteSize⟩ else none

/-- Whether a block fits the uniform buffer: only the lengths are compared. -/
def upload (p : Pipeline) (b : UniformBlock) : Except ProgramError Unit :=
  if b.bytes.length = p.byteSize then .ok ()
  else .error (.uniformMismatch .bytes p.byteSize b.bytes.length)

end Pipeline

namespace Spectrum.Vertex

/-- One attribute of a vertex in a buffer. -/
structure Attribute where
  location : Nat
  offset : Nat
  format : String
  deriving DecidableEq, Repr

/-- The place in clip space and the seed. -/
def attributes : List Attribute := [⟨0, 0, "Float32x2"⟩, ⟨1, 8, "Float32x3"⟩]

/-- The bytes of one vertex. -/
def byteSize : Nat := 20

def bytes (v : Vertex Single) : List UInt8 :=
  v.x.bytes ++ v.y.bytes ++ v.hsl.x.bytes ++ v.hsl.y.bytes ++ v.hsl.z.bytes

end Spectrum.Vertex
end ColorChain
