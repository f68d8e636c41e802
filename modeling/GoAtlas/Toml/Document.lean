import GoAtlas.Toml.Basic

/-!
# Building a TOML document

A document is written as key-value pairs under headers, and a table may come together
from several places.  While it is being built a table remembers how it came about,
because that decides what may still be added to it:

* a table with a header of its own, or a value, is not declared again;
* a table that exists only because a header goes through it may still get its header;
* a table made by dotted keys is extended by dotted keys only.

Headers lead through the last element of an array of tables.
-/

namespace GoAtlas.Toml

/-- How a table came about. -/
inductive Origin where
  /-- By a header of its own. -/
  | header
  /-- By a header that goes through it. -/
  | passage
  /-- By a dotted key. -/
  | dotted
deriving DecidableEq, Repr

/-- A part of a document that is being built. -/
inductive Node where
  /-- A value, which is complete. -/
  | value (value : Toml)
  | table (origin : Origin) (entries : List (String × Node))
  /-- An array of tables, one for each of its headers. -/
  | tables (items : List (List (String × Node)))

/-- The entries of a table that is being built. -/
abbrev Entries := List (String × Node)

namespace Entries

/-- The entry under a key. -/
def get? (key : String) : Entries → Option Node
  | [] => none
  | (k, node) :: rest => if key = k then some node else get? key rest

/-- The entries with `node` under a key: in place of what stands there, or at the
end. -/
def put (key : String) (node : Node) : Entries → Entries
  | [] => [(key, node)]
  | (k, old) :: rest => if key = k then (k, node) :: rest else (k, old) :: put key node rest

end Entries

/-- A change of a table, given how it came about. -/
abbrev Change := Origin → Entries → Option Entries

/-- Makes a change in the table that a path of keys leads to.  Tables missing on the way
come about by `origin`, and `passes` tells which tables may be passed. -/
def changeAt (origin : Origin) (passes : Origin → Bool) (change : Change) :
    List String → Change
  | [], own, entries => change own entries
  | key :: path, _, entries =>
      match Entries.get? key entries with
      | none =>
          (changeAt origin passes change path origin []).map fun inner =>
            Entries.put key (.table origin inner) entries
      | some (.table own inner) =>
          if passes own then
            (changeAt origin passes change path own inner).map fun inner =>
              Entries.put key (.table own inner) entries
          else none
      | some (.tables items) =>
          match items.getLast? with
          | none => none
          | some last =>
              (changeAt origin passes change path .header last).map fun last =>
                Entries.put key (.tables (items.dropLast ++ [last])) entries
      | some (.value _) => none

/-- Declares a table under a key. -/
def declareTable (key : String) : Change := fun _ entries =>
  match Entries.get? key entries with
  | none => some (Entries.put key (.table .header []) entries)
  | some (.table .passage inner) => some (Entries.put key (.table .header inner) entries)
  | _ => none

/-- Adds a table to the array of tables under a key. -/
def declareElement (key : String) : Change := fun _ entries =>
  match Entries.get? key entries with
  | none => some (Entries.put key (.tables [[]]) entries)
  | some (.tables items) => some (Entries.put key (.tables (items ++ [[]])) entries)
  | _ => none

/-- Adds a value under a key that is not in use. -/
def addValue (key : String) (value : Toml) (own : Origin → Bool) : Change :=
  fun origin entries =>
    match Entries.get? key entries with
    | none => if own origin then some (Entries.put key (.value value) entries) else none
    | some _ => none

/-- The change made by a key-value pair with a dotted key. -/
def addPair (key : List String) (value : Toml) : Change :=
  match key.reverse with
  | [] => fun _ _ => none
  | [last] => addValue last value fun _ => true
  | last :: path =>
      changeAt .dotted (· != .header) (addValue last value (· == .dotted)) path.reverse

/-- Makes a change in the table under a header. -/
def underHeader (change : Change) (header : List String) (entries : Entries) :
    Option Entries :=
  changeAt .passage (fun _ => true) change header .header entries

/-- The change made by a header: the table or element is declared in the table that the
keys before the last lead to. -/
def addHeader (isElement : Bool) (header : List String) (entries : Entries) :
    Option Entries :=
  match header.reverse with
  | [] => none
  | last :: path =>
      underHeader (if isElement then declareElement last else declareTable last)
        path.reverse entries

mutual

/-- The value that has been built. -/
def Node.toToml : Node → Toml
  | .value value => value
  | .table _ entries => .table (entriesToToml entries)
  | .tables items => .arr (tablesToToml items)

/-- The entries of a table that has been built. -/
def entriesToToml : List (String × Node) → List (String × Toml)
  | [] => []
  | (key, node) :: rest => (key, node.toToml) :: entriesToToml rest

/-- The elements of an array of tables that has been built. -/
def tablesToToml : List (List (String × Node)) → List Toml
  | [] => []
  | entries :: rest => .table (entriesToToml entries) :: tablesToToml rest

end

end GoAtlas.Toml
