import ColorChain.Program.Layout
import ColorChain.Program.Shader
import ColorChain.Text

/-! The fragment program of a row of filters.

Each filter's template is placed at the base of its slots and wrapped in a guard that reads
the filter's visibility flag; the running colour is held within the unit range after it.
Filter `i` reads component `i % 4` of visibility word `i / 4`. -/
namespace ColorChain

/-- A generated program: the ids it is for, its layout and its fragment text. -/
structure Source where
  ids : List String
  layout : Layout
  fragment : String
  deriving DecidableEq, Repr

structure ProgramConfig where
  /-- Where each fragment text is written before it is compiled, if anywhere. -/
  dumpPath : Option String
  /-- The label of the objects made for a program. -/
  label : String
  /-- The most parameter slots a program may have. -/
  maxSlots : Nat
  deriving DecidableEq, Repr

namespace ProgramConfig

def defaultMaxSlots : Nat := 256

def default : ProgramConfig := ⟨none, "huechain filters", defaultMaxSlots⟩

end ProgramConfig

namespace Source

/-- The declarations of a program with the given layout. -/
def header (l : Layout) : String := Shader.unlines [
  "#version 450",
  "layout(location = 0) in vec3 v_hsl;",
  "layout(location = 0) out vec4 outColor;",
  "",
  "layout(std140, set = 0, binding = 0) uniform FilterParams \x7b",
  "    vec4 _params[" ++ toString l.paramLength ++ "];",
  "    vec4 _visible[" ++ toString l.visibleLength ++ "];",
  "\x7d filter_params;",
  "",
  "#define _p filter_params._params"]

/-- The component of a visibility word that holds a filter's flag. -/
def component (position : Nat) : String :=
  match position % 4 with
  | 0 => "x"
  | 1 => "y"
  | 2 => "z"
  | _ => "w"

/-- The visibility flag of the filter at a position. -/
def flag (position : Nat) : String :=
  "filter_params._visible[" ++ toString (position / 4) ++ "]." ++ component position

/-- The statements of the filter at a position, its slots counted from `base`. -/
def block (position base : Nat) (d : Definition) : String :=
  let body := (Text.lines (Template.place d.template base).toList).map String.ofList
  Shader.unlines <|
    ["    // " ++ toString position ++ ": " ++ d.id,
      "    if (" ++ flag position ++ " > 0.5) \x7b"] ++
    body.map ("        " ++ ·) ++
    ["        color = clamp(color, 0.0, 1.0);", "    \x7d"]

/-- The statements of a row of filters, the first at `position` with slots from `base`. -/
def blocks (position base : Nat) : List Definition → String
  | [] => ""
  | d :: rest => block position base d ++ blocks (position + 1) (base + d.slotCount) rest

/-- The fragment text of a row of definitions. -/
def fragmentText (ds : List Definition) : String :=
  header (Layout.ofDefinitions ds) ++ "\n" ++ Shader.conversions ++ "\n" ++
    Shader.unlines ["void main() \x7b", "    vec3 color = hsl2rgb(v_hsl);"] ++
    blocks 0 0 ds ++
    Shader.unlines ["    outColor = vec4(color, 1.0);", "\x7d"]

end Source

/-- The program of a row of ids, unless an id is unknown or the slots are too many. -/
def Registry.synthesize (r : Registry) (ids : List String) (config : ProgramConfig) :
    Except ProgramError Source := do
  let ds ← r.resolve ids
  let layout := Layout.ofDefinitions ds
  if config.maxSlots < layout.slotCount then
    .error (.tooManySlots layout.slotCount config.maxSlots)
  else return ⟨ids, layout, Source.fragmentText ds⟩

end ColorChain
