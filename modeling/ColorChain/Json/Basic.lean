import ColorChain.Binary.Arithmetic

/-! JSON values.

A number is a natural below `2 ^ 64`, a negative integer of 64 bits, or a double. The
fields of an object are kept sorted by key, each key once. -/
namespace ColorChain

inductive JsonNumber where
  | natural (n : Nat)
  /-- The negative integer `-(n + 1)`. -/
  | negative (n : Nat)
  | real (x : Double)
  deriving DecidableEq

inductive Json where
  | null
  | bool (b : Bool)
  | number (n : JsonNumber)
  | string (s : String)
  | array (items : List Json)
  | object (fields : List (String × Json))

namespace Json

/-- The fields of an object. -/
abbrev Fields := List (String × Json)

/-- The value under a key. -/
def Fields.get? (fields : Fields) (key : String) : Option Json := fields.lookup key

/-- Puts a value under a key, in the place that keeps the keys sorted. A value that was
there is replaced. -/
def Fields.put (key : String) (value : Json) : Fields → Fields
  | [] => [(key, value)]
  | (k, v) :: rest =>
    if key < k then (key, value) :: (k, v) :: rest
    else if key = k then (key, value) :: rest
    else (k, v) :: put key value rest

/-- The fields with the given entries; of entries under one key the last counts. -/
def Fields.ofEntries (entries : List (String × Json)) : Fields :=
  entries.foldl (fun fields (key, value) => fields.put key value) []

/-- The number of an integer. -/
def ofInt (n : Int) : Json :=
  if n < 0 then .number (.negative (-n - 1).toNat) else .number (.natural n.toNat)

/-- The number of a double; one that is not finite has no number. -/
def ofDouble (x : Double) : Json := if x.isFinite then .number (.real x) else .null

end Json

/-- The value of a number in double precision. -/
def JsonNumber.toDouble : JsonNumber → Double
  | .natural n => .ofInt n
  | .negative n => .ofInt (-(n + 1 : Nat))
  | .real x => x

end ColorChain
