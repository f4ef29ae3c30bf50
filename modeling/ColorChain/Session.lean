import ColorChain.Chain.Saved
import ColorChain.Decimal.Shortest
import ColorChain.Toml.Reader

/-! Session configurations: the chain that a session starts with.

A configuration gives the seed, the chain's name, a preset in either text form of a chain,
and an order of the menu. A configuration that passes `Session.validate` builds a chain. -/
namespace ColorChain

structure Session where
  version : Nat
  seed : Seed
  name : Option String
  preset : Option String
  /-- The order of the menu, if it is not the built-in one. -/
  menuOverride : Option (List String)

/-- What a configuration may not say. -/
inductive SessionFault where
  | version (found : Nat)
  | hueNotFinite
  | notInUnit (field : String) (value : Single)
  | unknownEntry (id : String)
  | repeatedEntry (id : String)
  deriving DecidableEq

def SessionFault.reason : SessionFault → String
  | .version found => s!"unsupported config version {found}; expected 1"
  | .hueNotFinite => "seed hue must be finite"
  | .notInUnit field value =>
    s!"seed {field} must be within 0..=1, got {String.ofList value.shortestText}"
  | .unknownEntry id => s!"menu entry '{id}' is not a known filter"
  | .repeatedEntry id => s!"menu entry '{id}' is listed twice"

/-- Why a file has no text. -/
inductive FileFault where
  | notFound
  | notText
  deriving DecidableEq, Repr

inductive SessionError where
  /-- The text is no TOML document, or the document is no configuration. -/
  | parse
  | file (fault : FileFault)
  | invalid (fault : SessionFault)
  | preset (e : DecodeError)
  | registry (e : RegistryError)
  deriving DecidableEq

def SessionError.message : SessionError → String
  | .parse => "failed to parse configuration"
  | .file _ => "failed to read configuration"
  | .invalid fault => s!"invalid configuration: {fault.reason}"
  | .preset e => s!"preset does not decode: {e.message}"
  | .registry e => e.message

/-! ### Reading -/

namespace Toml

def string? : Toml → Option String
  | .string s => some s
  | _ => none

def strings? : Toml → Option (List String)
  | .array items => items.mapM string?
  | _ => none

/-- A number in single precision: an integer or a float. -/
def single? : Toml → Option Single
  | .integer n => some (.ofInt n)
  | .float x => some x.convert
  | _ => none

/-- Reads a value if there is one. -/
def optional {α : Type} (read : Toml → Option α) : Option Toml → Option (Option α)
  | none => some none
  | some v => (read v).map some

/-- The values of a record's fields: under their names in a table, or in order in an array,
which may be longer. A date or time is a table without any of the fields. -/
def fields? (names : List String) : Toml → Option (List (Option Toml))
  | .table entries => some (names.map fun name => entries.lookup name)
  | .array items => some ((List.range names.length).map fun i => items[i]?)
  | .datetime => some (names.map fun _ => none)
  | _ => none

def isArray : Toml → Bool
  | .array _ => true
  | _ => false

end Toml

namespace Session
open Toml (optional)

/-- A seed; a component that is not given has its default. -/
def readSeed (v : Toml) : Option Seed := do
  let [hue, saturation, lightness] ← v.fields? ["hue", "saturation", "lightness"] | none
  return {
    hue := (← optional Toml.single? hue).getD Seed.default.hue
    saturation := (← optional Toml.single? saturation).getD Seed.default.saturation
    lightness := (← optional Toml.single? lightness).getD Seed.default.lightness }

/-- The name and the preset of a chain. Neither need be given in a table, both must be in an
array. -/
def readChain (v : Toml) : Option (Option String × Option String) := do
  let [name, preset] ← v.fields? ["name", "preset"] | none
  if v.isArray && (name.isNone || preset.isNone) then none
  else return (← optional Toml.string? name, ← optional Toml.string? preset)

def readMenu (v : Toml) : Option (List String) := do
  let [order] ← v.fields? ["order"] | none
  (← order).strings?

def readVersion : Toml → Option Nat
  | .integer n => if 0 ≤ n && n < 2 ^ (32 : Nat) then some n.toNat else none
  | _ => none

/-- The configuration that a document is. Other entries do not matter. -/
def ofToml? (v : Toml) : Option Session := do
  let [version, seed, chain, menu] ← v.fields? ["version", "seed", "chain", "menu"] | none
  let version ← readVersion (← version)
  let seed ← optional readSeed seed
  let chain ← optional readChain chain
  let menuOverride ← optional readMenu menu
  let (name, preset) := chain.getD (none, none)
  return { version, seed := seed.getD .default, name, preset, menuOverride }

/-! ### Validating -/

/-- Whether a number is within 0 and 1. -/
def inUnit (x : Single) : Bool := Binary.le 0 x && x.le 1

/-- The first entry of a menu that is not built in or repeats one before it. -/
def menuFault? (seen : List String) : List String → Option SessionFault
  | [] => none
  | id :: rest =>
    if !Registry.builtin.contains id then some (.unknownEntry id)
    else if seen.contains id then some (.repeatedEntry id)
    else menuFault? (id :: seen) rest

/-- What is wrong with the parts of a configuration other than its preset. -/
def fault? (s : Session) : Option SessionFault :=
  if s.version ≠ 1 then some (.version s.version)
  else if !s.seed.hue.isFinite then some .hueNotFinite
  else if !inUnit s.seed.saturation then some (.notInUnit "saturation" s.seed.saturation)
  else if !inUnit s.seed.lightness then some (.notInUnit "lightness" s.seed.lightness)
  else s.menuOverride.bind (menuFault? [])

/-- Whether a chain can be built as the configuration says. -/
def validate (s : Session) : Except SessionError Unit :=
  match s.fault? with
  | some fault => .error (.invalid fault)
  | none =>
    match s.preset with
    | none => .ok ()
    | some text =>
      match (Chain.new .builtin).decode text with
      | .error e => .error (.preset e)
      | .ok _ => .ok ()

/-- Reads and validates a configuration. -/
def parse (text : String) : Except SessionError Session :=
  match (Toml.parse? text).bind ofToml? with
  | none => .error .parse
  | some s => s.validate.map fun _ => s

/-- Reads and validates a configuration from the bytes of a file, if there is one. -/
def load (file : Option ByteArray) : Except SessionError Session :=
  match file with
  | none => .error (.file .notFound)
  | some bytes =>
    match String.fromUTF8? bytes with
    | none => .error (.file .notText)
    | some text => parse text

/-! ### Building -/

/-- The order of the menu. -/
def menu (s : Session) : List String := s.menuOverride.getD Catalog.menuOrder

/-- The registry of the catalog with the configured menu. -/
def registry (s : Session) : Except RegistryError Registry :=
  match s.menuOverride with
  | none => .ok .builtin
  | some _ => do
    let r ← Catalog.definitions.foldlM Registry.register Registry.empty
    return r.setMenu s.menu

/-- The chain with the seed, the name and the preset. A name in the preset wins. -/
def buildChain (s : Session) : Except SessionError Chain :=
  match s.registry with
  | .error e => .error (.registry e)
  | .ok registry =>
    let c := (Chain.new registry).setSeed s.seed
    let c := match s.name with
      | none => c
      | some name => c.setName name
    match s.preset with
    | none => .ok c
    | some text => (c.decode text).mapError .preset

end Session
end ColorChain
