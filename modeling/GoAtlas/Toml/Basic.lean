/-!
# TOML values

Settings are kept in a TOML file.  A document is a table.  Numbers with a fraction and
dates play no part in settings, so only their texts are kept.
-/

namespace GoAtlas

/-- A TOML value. -/
inductive Toml where
  | str (text : String)
  | int (n : Int)
  | bool (b : Bool)
  /-- A floating-point number as written. -/
  | float (text : String)
  /-- A date, a time or both as written. -/
  | datetime (text : String)
  | arr (items : List Toml)
  | table (entries : List (String × Toml))
deriving Repr

namespace Toml

instance : Inhabited Toml := ⟨.table []⟩

/-- The entry of a table under a key. -/
def entry? (key : String) : List (String × Toml) → Option Toml
  | [] => none
  | (k, value) :: rest => if key = k then some value else entry? key rest

end Toml

end GoAtlas
