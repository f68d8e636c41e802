/-!
# Readers

A reader takes the beginning off a text: it gives what it has read and the text after
it, or nothing if the text does not begin as it should.
-/

namespace GoAtlas

/-- What a reader makes of a text. -/
abbrev Reader (α : Type) := List Char → Option (α × List Char)

/-- Puts a character in front of what was read after it. -/
def prepend (c : Char) (read : Option (List Char × List Char)) :
    Option (List Char × List Char) :=
  read.map fun (body, rest) => (c :: body, rest)

/-- The text after a given beginning. -/
def expect? : List Char → List Char → Option (List Char)
  | [], text => some text
  | _ :: _, [] => none
  | c :: cs, d :: text => if c = d then expect? cs text else none

@[simp]
theorem expect?_append (start text : List Char) : expect? start (start ++ text) = some text := by
  induction start with
  | nil => rfl
  | cons c start ih => simp [expect?, ih]

end GoAtlas
