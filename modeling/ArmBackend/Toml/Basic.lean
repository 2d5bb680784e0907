/-!
# Documents of keys and values

The configuration language TOML. A document is a list of lines: headers, which open a table or add
an element to a list of tables, and entries, which belong to the header above them. Numbers and
dates keep their spelling: what they stand for depends on the field they are given to.
-/

namespace ArmBackend.Toml

/-- A key of one or more parts, outermost first. -/
structure Key where
  head : String
  tail : List String := []
  deriving DecidableEq, Repr

/-- The parts of a key. -/
def Key.parts (k : Key) : List String :=
  k.head :: k.tail

/-- A value as it is written. -/
inductive Value
  | text (s : String)
  | integer (spelling : List Char)
  | float (spelling : List Char)
  | date (spelling : List Char)
  | bool (b : Bool)
  | array (items : List Value)
  | table (entries : List (Key × Value))

/-- A key with its value. -/
abbrev Entry := Key × Value

/-- What a line says. -/
inductive Line
  | blank
  | entry (e : Entry)
  /-- The header of a table. -/
  | table (key : Key)
  /-- The header of a new element of a list of tables. -/
  | element (key : Key)

/-- The lines of a document up to the first that is not well formed, if there is one. -/
structure Document where
  lines : List Line
  /-- Whether every line is well formed. -/
  complete : Bool

/-- A reader takes characters off the front of a text. -/
abbrev Reader (α : Type) := List Char → Option (α × List Char)

/-! ## Characters -/

/-- Blanks inside a line. -/
def isBlank (c : Char) : Bool :=
  c == ' ' || c == '\t'

/-- Whether a character may stand in texts and comments: no control character but the tabulator. -/
def isTextChar (c : Char) : Bool :=
  c == '\t' || (0x20 ≤ c.toNat && c.toNat != 0x7f)

/-- Whether a character may stand in a key without quotes. -/
def isKeyChar (c : Char) : Bool :=
  c.isAlphanum || c == '-' || c == '_'

/-- A text without the blanks at its front. -/
def skipBlanks (s : List Char) : List Char :=
  s.dropWhile isBlank

/-- Takes the given character off. -/
def expect (c : Char) : List Char → Option (List Char)
  | d :: rest => if c = d then some rest else none
  | [] => none

/-- Takes a line end off. -/
def lineEnd? : List Char → Option (List Char)
  | '\n' :: rest => some rest
  | '\r' :: '\n' :: rest => some rest
  | _ => none

/-- Takes a comment off, if there is one, and leaves the line end. -/
def skipComment (s : List Char) : Option (List Char) :=
  match s with
  | '#' :: rest =>
    let after := rest.dropWhile isTextChar
    if after.isEmpty || (lineEnd? after).isSome then some after else none
  | _ => some s

end ArmBackend.Toml
