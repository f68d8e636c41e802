import GoAtlas.Table

/-!
# JSON values

Worlds and settings are exchanged as JSON.  A `Json` value keeps the entries of an
object in the order in which they are written, repetitions included, because
whether a repeated key is an error depends on what the object stands for.

Some well-formed texts have no value: numbers beyond the range of a double, strings with
half of a surrogate pair, and what is nested too deep.  They are kept as they are
written, because what is not looked at may hold them.  A value without any is *plain*.

`Json.canonical` is the reading of an object as a finite map: keys in order, and
of repeated keys the last.
-/

namespace GoAtlas

/-- A JSON value. -/
inductive Json where
  | null
  | bool (b : Bool)
  /-- An integer from `-2^63` up to `2^64 - 1`, written without fraction and
  exponent. -/
  | int (n : Int)
  /-- Any other number, `mantissa * 10 ^ exponent`. -/
  | decimal (mantissa exponent : Int)
  | str (text : String)
  /-- A well-formed text without a value. -/
  | raw (text : String)
  | arr (items : List Json)
  | obj (entries : List (String × Json))
deriving Repr

namespace Json

instance : Inhabited Json := ⟨.null⟩

/-- The first entry under a key. -/
def entry? (key : String) : List (String × Json) → Option Json
  | [] => none
  | (k, value) :: rest => if key = k then some value else entry? key rest

mutual

/-- The value with the entries of every object in order of their keys and without
repetition: of several entries under one key the last one stays. -/
def canonical : Json → Json
  | .null => .null
  | .bool b => .bool b
  | .int n => .int n
  | .decimal mantissa exponent => .decimal mantissa exponent
  | .str text => .str text
  | .raw text => .raw text
  | .arr items => .arr (canonicalItems items)
  | .obj entries => .obj (Table.ofList (canonicalEntries entries)).entries

/-- Each item in canonical form. -/
def canonicalItems : List Json → List Json
  | [] => []
  | item :: rest => item.canonical :: canonicalItems rest

/-- Each entry with its value in canonical form. -/
def canonicalEntries : List (String × Json) → List (String × Json)
  | [] => []
  | (key, value) :: rest => (key, value.canonical) :: canonicalEntries rest

end

mutual

/-- Whether everything in a value can be held. -/
def isPlain : Json → Bool
  | .raw _ => false
  | .arr items => plainItems items
  | .obj entries => plainEntries entries
  | _ => true

/-- Whether all items are plain. -/
def plainItems : List Json → Bool
  | [] => true
  | item :: rest => item.isPlain && plainItems rest

/-- Whether the values of all entries are plain. -/
def plainEntries : List (String × Json) → Bool
  | [] => true
  | (_, value) :: rest => value.isPlain && plainEntries rest

end

/-- The object of a table. -/
def ofTable {α : Type} (encode : α → Json) (table : Table α) : Json :=
  .obj (table.entries.map fun (key, value) => (key, encode value))

end Json

end GoAtlas
