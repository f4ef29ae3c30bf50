import ColorChain.Chain.Edit

/-! Edits of a chain that is held.

A program that holds a chain changes it write by write, and an error leaves the chain as the
writes so far have made it. The operations here are written so: every `set` and `modify` is one
write to the held chain, and nothing puts an earlier chain back. That an edit which fails has
written nothing is then a fact about the order of checks and writes. -/
namespace ColorChain

/-- Work on a chain that is held. An error keeps the chain as it is when the error arises. -/
abbrev Editor (ε α : Type) := EStateM ε Chain α

/-- What an operation that gives out a new chain amounts to for one that is held: the new chain
takes its place, or an error leaves it. -/
def Chain.settle {ε α : Type} (c : Chain) : Except ε (α × Chain) → EStateM.Result ε Chain α
  | .ok (a, c') => .ok a c'
  | .error e => .error e c

namespace Editor

/-! ### Editing -/

/-- Gives out the next key. -/
def allocateKey {ε : Type} : Editor ε FilterKey := do
  let c ← get
  set { c with nextKey := c.nextKey + 1 }
  return ⟨c.nextKey⟩

def insert (index : Nat) (id : String) : Editor ChainError FilterKey := do
  let c ← get
  if c.filters.length < index then
    throw (.indexOutOfRange index c.filters.length)
  match c.registry.get? id with
  | none => throw (.unknownFilter id)
  | some d =>
    let key ← allocateKey
    modify fun c => { c with filters := c.filters.insertIdx index (.ofDefaults key d) }
    return key

def add (id : String) : Editor ChainError FilterKey := do
  insert (← get).filters.length id

def remove (key : FilterKey) : Editor ChainError Filter := do
  let c ← get
  match c.get? key with
  | none => throw (.unknownKey key)
  | some f =>
    modify fun c => { c with filters := c.filters.eraseIdx (c.indexOf key) }
    return f

def move (source target : Nat) : Editor ChainError Unit := do
  let c ← get
  match c.filters[source]? with
  | none => throw (.indexOutOfRange source c.filters.length)
  | some f =>
    if c.filters.length ≤ target then
      throw (.indexOutOfRange target c.filters.length)
    modify fun c => { c with filters := c.filters.eraseIdx source }
    modify fun c => { c with filters := c.filters.insertIdx target f }

def setVisible (key : FilterKey) (visible : Bool) : Editor ChainError Unit := do
  let c ← get
  match c.get? key with
  | none => throw (.unknownKey key)
  | some f => modify fun c => c.replace key { f with visible }

def setValue (key : FilterKey) (control : Nat) (value : ControlValue) :
    Editor ChainError Unit := do
  let c ← get
  match c.get? key with
  | none => throw (.unknownKey key)
  | some f =>
    match f.setValue control value with
    | .error e => throw (.control e)
    | .ok f => modify fun c => c.replace key f

/-! ### Loading -/

/-- Filters for the entries behind those already built, with keys counted from `key`, and the
key after the last. -/
def build (key : Nat) (built : List Filter) :
    List Entry → Editor DecodeError (List Filter × Nat)
  | [] => return (built, key)
  | (d, values) :: rest => do
    match Filter.ofValues ⟨key⟩ d values with
    | .error e => throw (.control e)
    | .ok f => build (key + 1) (built ++ [f]) rest

/-- Puts a name and filters for the entries in the place of the chain's own. -/
def replace (name : String) (entries : List Entry) : Editor DecodeError Unit := do
  let (filters, key) ← build (← get).nextKey [] entries
  modify fun c => { c with name }
  modify fun c => { c with filters }
  modify fun c => { c with nextKey := key }

def load (j : Json) : Editor DecodeError Unit := do
  match SavedChain.ofJson? j with
  | none => throw .jsonShape
  | some saved =>
    let entries ← MonadExcept.ofExcept (SavedFilter.entries (← get).registry saved.filters)
    replace saved.name entries

def decode (text : String) : Editor DecodeError Unit := do
  if text.toList.head? = some '\x7b' then
    match Json.parse? text with
    | none => throw .jsonSyntax
    | some j => load j
  else
    let (name, entries) ← MonadExcept.ofExcept (Compact.read (← get).registry text.toList)
    replace name entries

/-! ### All edits -/

/-- Makes an edit. -/
def perform : Edit → Editor EditError EditResult
  | .setName name => do modify fun c => c.setName name; return .done
  | .setSeed seed => do modify fun c => c.setSeed seed; return .done
  | .add id => do return .key (← (add id).adaptExcept .chain)
  | .insert index id => do
    return .key (← (insert index id).adaptExcept .chain)
  | .remove key => do return .filter (← (remove key).adaptExcept .chain)
  | .move source target => do (move source target).adaptExcept .chain; return .done
  | .setVisible key visible => do (setVisible key visible).adaptExcept .chain; return .done
  | .setValue key control value => do
    (setValue key control value).adaptExcept .chain
    return .done
  | .clear => do modify Chain.clear; return .done
  | .decode text => do (decode text).adaptExcept .decode; return .done
  | .load json => do (load json).adaptExcept .decode; return .done

/-! ### Histories -/

/-- The chain that is held after an edit, made or refused. -/
def after (c : Chain) (e : Edit) : Chain :=
  match (perform e).run c with
  | .ok _ c => c
  | .error _ c => c

/-- The chain that is held after a history of edits. -/
def history (c : Chain) : List Edit → Chain
  | [] => c
  | e :: rest => history (after c e) rest

end Editor
end ColorChain
