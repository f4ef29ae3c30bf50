import ColorChain.Chain.Saved

/-! Edits of a chain, one after the other.

`Chain.edit` makes one edit and says what it returns. `Chain.step` is the chain afterwards,
which is the chain before when the edit fails, and `Chain.run` goes through a history. -/
namespace ColorChain

inductive Edit where
  | setName (name : String)
  | setSeed (seed : Seed)
  | add (id : String)
  | insert (index : Nat) (id : String)
  | remove (key : FilterKey)
  | move (source target : Nat)
  | setVisible (key : FilterKey) (visible : Bool)
  | setValue (key : FilterKey) (control : Nat) (value : ControlValue)
  | clear
  | decode (text : String)
  | load (json : Json)

/-- What an edit returns besides the chain. -/
inductive EditResult where
  | done
  /-- The key of the filter that was put in. -/
  | key (key : FilterKey)
  /-- The filter that was taken out. -/
  | filter (f : Filter)

inductive EditError where
  | chain (e : ChainError)
  | decode (e : DecodeError)
  deriving DecidableEq, Repr

namespace Chain

/-- The outcome of an edit on a chain that returns nothing else. -/
def done {ε : Type} (wrap : ε → EditError) :
    Except ε Chain → Except EditError (EditResult × Chain)
  | .ok c => .ok (.done, c)
  | .error e => .error (wrap e)

/-- Makes an edit. -/
def edit (c : Chain) : Edit → Except EditError (EditResult × Chain)
  | .setName name => .ok (.done, c.setName name)
  | .setSeed seed => .ok (.done, c.setSeed seed)
  | .add id => ((c.add id).mapError .chain).map fun (key, c) => (.key key, c)
  | .insert index id => ((c.insert index id).mapError .chain).map fun (key, c) => (.key key, c)
  | .remove key => ((c.remove key).mapError .chain).map fun (f, c) => (.filter f, c)
  | .move source target => done .chain (c.move source target)
  | .setVisible key visible => done .chain (c.setVisible key visible)
  | .setValue key control value => done .chain (c.setValue key control value)
  | .clear => .ok (.done, c.clear)
  | .decode text => done .decode (c.decode text)
  | .load json => done .decode (c.loadJson json)

/-- The chain after an edit. -/
def step (c : Chain) (e : Edit) : Chain :=
  match c.edit e with
  | .ok (_, c) => c
  | .error _ => c

/-- The chain after a history of edits. -/
def run (c : Chain) : List Edit → Chain
  | [] => c
  | e :: rest => (c.step e).run rest

end Chain
end ColorChain
