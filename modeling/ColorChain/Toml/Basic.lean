import ColorChain.Binary.Arithmetic

/-! TOML documents as values.

A document is a tree of tables. While it is read, every table remembers how it came to be:
by a header of its own, as the middle of a longer header, or by a dotted key. Whether more
may be put into it depends on that, because no table is defined twice. -/
namespace ColorChain

inductive Toml where
  | string (s : String)
  | integer (n : Int)
  | float (x : Double)
  | boolean (b : Bool)
  /-- A date, a time or both. Nothing in this library asks which. -/
  | datetime
  | array (items : List Toml)
  | table (entries : List (String × Toml))

namespace Toml

/-- How a table came to be. -/
inductive Origin where
  /-- By a header that names it. -/
  | header
  /-- As part of the path of a header. -/
  | path
  /-- By a dotted key. -/
  | dotted
  deriving DecidableEq, Repr

/-- What stands under a key of a document that is being read. -/
inductive Node where
  | value (v : Toml)
  | table (origin : Origin) (entries : List (String × Node))
  /-- The tables of an array of tables, in order. -/
  | tables (items : List (List (String × Node)))

abbrev Entries := List (String × Node)

namespace Entries

/-- The entries with another node under a key. -/
def set (key : String) (node : Node) : Entries → Entries
  | [] => [(key, node)]
  | (k, n) :: rest => if k = key then (k, node) :: rest else (k, n) :: set key node rest

/-- Puts a value under a dotted key of a table; `none` if that would define something
twice. A dotted key opens the tables on its way and goes on only in tables that dotted
keys opened. -/
def insert : List String → Toml → Entries → Option Entries
  | [], _, _ => none
  | [key], v, entries =>
    match entries.lookup key with
    | none => some (set key (.value v) entries)
    | some _ => none
  | key :: next :: rest, v, entries =>
    match entries.lookup key with
    | none => (insert (next :: rest) v []).map fun inner => set key (.table .dotted inner) entries
    | some (.value _) => none
    | some (.table origin inner) =>
      if origin = .header || (rest.isEmpty && origin ≠ .dotted) then none
      else (insert (next :: rest) v inner).map fun inner => set key (.table origin inner) entries
    | some (.tables items) =>
      match rest, items.getLast? with
      | [], _ | _, none => none
      | _, some last => (insert (next :: rest) v last).map fun last =>
          set key (.tables (items.dropLast ++ [last])) entries

/-- Changes what stands at the path of a header. On its way the path goes through tables
of every origin, opens those that are missing, and in an array of tables goes on in the
last one. -/
def update (leaf : Option Node → Option Node) : List String → Entries → Option Entries
  | [], _ => none
  | [key], entries => (leaf (entries.lookup key)).map fun node => set key node entries
  | key :: rest, entries =>
    match entries.lookup key with
    | none => (update leaf rest []).map fun inner => set key (.table .path inner) entries
    | some (.value _) => none
    | some (.table origin inner) =>
      (update leaf rest inner).map fun inner => set key (.table origin inner) entries
    | some (.tables items) =>
      match items.getLast? with
      | none => none
      | some last => (update leaf rest last).map fun last =>
          set key (.tables (items.dropLast ++ [last])) entries

/-- A key, dotted or not, and its value. -/
abbrev Pair := List String × Toml

/-- Puts all pairs into a table. -/
def insertAll (pairs : List Pair) (entries : Entries) : Option Entries :=
  pairs.foldlM (fun entries (key, v) => insert key v entries) entries

/-- The table that a header opens: a new one, or one that so far was only part of a
path. -/
def openTable (pairs : List Pair) : Option Node → Option Node
  | none => (insertAll pairs []).map (.table .header)
  | some (.table .path inner) => (insertAll pairs inner).map (.table .header)
  | some _ => none

/-- The array of tables with one more table. -/
def openElement (pairs : List Pair) : Option Node → Option Node
  | none => (insertAll pairs []).map fun entries => .tables [entries]
  | some (.tables items) => (insertAll pairs []).map fun entries => .tables (items ++ [entries])
  | some _ => none

end Entries

/-! ### From nodes to values -/

mutual

def Node.toValue : Node → Toml
  | .value v => v
  | .table _ entries => .table (entryValues entries)
  | .tables items => .array (elementValues items)

def entryValues : List (String × Node) → List (String × Toml)
  | [] => []
  | (key, node) :: rest => (key, node.toValue) :: entryValues rest

def elementValues : List (List (String × Node)) → List Toml
  | [] => []
  | entries :: rest => .table (entryValues entries) :: elementValues rest

end

/-- The table of a row of pairs, or `none` if they define something twice. -/
def ofPairs? (pairs : List Entries.Pair) : Option Toml :=
  (Entries.insertAll pairs []).map fun entries => .table (entryValues entries)

/-- A header with the pairs that follow it. -/
structure Section where
  /-- Whether the header adds a table to an array. -/
  element : Bool
  path : List String
  pairs : List Entries.Pair

/-- The document of the pairs before the first header and the sections after them. -/
def ofSections? (pairs : List Entries.Pair) (sections : List Section) : Option Toml := do
  let root ← Entries.insertAll pairs []
  let root ← sections.foldlM (fun root part =>
    Entries.update (if part.element then Entries.openElement part.pairs
      else Entries.openTable part.pairs) part.path root) root
  return .table (entryValues root)

end Toml
end ColorChain
