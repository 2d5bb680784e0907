import ArmBackend.Toml.Date
import ArmBackend.Toml.Number
import ArmBackend.Toml.Quote

/-!
# Reading a document

A document is read line by line, up to the first line that is not well formed. Arrays may run over
several lines and hold comments; tables in braces stay on one line.
-/

namespace ArmBackend.Toml

/-! ## Keys -/

/-- Reads one part of a key. -/
def readKeyPart : Reader String
  | '"' :: rest => readQuoted ('"' :: rest)
  | '\'' :: rest => readQuoted ('\'' :: rest)
  | s =>
    let part := s.takeWhile isKeyChar
    if part.isEmpty then none else some (String.ofList part, s.drop part.length)

/-- Reads the further parts of a key, each behind a point with blanks around it. -/
def readKeyTail : Nat → Reader (List String)
  | 0, _ => none
  | fuel + 1, s =>
    match skipBlanks s with
    | '.' :: rest => do
      let (part, rest) ← readKeyPart (skipBlanks rest)
      let (parts, rest) ← readKeyTail fuel rest
      return (part :: parts, rest)
    | s => some ([], s)

/-- Reads a key and the blanks behind it. -/
def readKey (s : List Char) : Option (Key × List Char) := do
  let (head, rest) ← readKeyPart s
  let (tail, rest) ← readKeyTail (rest.length + 1) rest
  return ({ head, tail }, rest)

/-- Reads a key and the sign behind it. -/
def readKeySign (s : List Char) : Option (Key × List Char) := do
  let (key, rest) ← readKey s
  let rest ← expect '=' rest
  return (key, skipBlanks rest)

/-! ## Values -/

/-- A text without the blanks, comments and line ends at its front. -/
def skipLines : Nat → List Char → Option (List Char)
  | 0, s => some s
  | fuel + 1, s => do
    let s ← skipComment (skipBlanks s)
    match s with
    | '\n' :: _ | '\r' :: _ => skipLines fuel (← lineEnd? s)
    | _ => return s

mutual

/-- Reads a value. -/
def readValue : Nat → Reader Value
  | 0, _ => none
  | fuel + 1, s =>
    match s with
    | '"' :: _ | '\'' :: _ => (readText s).map fun (t, rest) => (.text t, rest)
    | 't' :: rest => do
      let rest ← expect 'e' (← expect 'u' (← expect 'r' rest))
      return (.bool true, rest)
    | 'f' :: rest => do
      let rest ← expect 'e' (← expect 's' (← expect 'l' (← expect 'a' rest)))
      return (.bool false, rest)
    | '[' :: rest => do
      let (items, rest) ← readItems fuel true rest
      return (.array items, rest)
    | '{' :: rest => do
      let (entries, rest) ← readEntries fuel true rest
      return (.table entries, rest)
    | _ => if startsDate s then readDate s else readNumber s

/-- Reads the items of an array up to the closing bracket; a comma may follow the last one. -/
def readItems : Nat → Bool → Reader (List Value)
  | 0, _, _ => none
  | fuel + 1, first, s => do
    let s ← skipLines s.length s
    match s with
    | ']' :: rest => return ([], rest)
    | _ =>
      let s ← if first then pure s else do
        let rest ← expect ',' s
        skipLines rest.length rest
      -- a comma may stand before the closing bracket
      match s with
      | ']' :: rest => return ([], rest)
      | _ =>
        let (item, rest) ← readValue fuel s
        let (items, rest) ← readItems fuel false rest
        return (item :: items, rest)

/-- Reads the entries of a table up to the closing brace. -/
def readEntries : Nat → Bool → Reader (List Entry)
  | 0, _, _ => none
  | fuel + 1, first, s =>
    match skipBlanks s with
    | '}' :: rest => some ([], rest)
    | s => do
      let s ← if first then pure s else (expect ',' s).map skipBlanks
      let (key, rest) ← readKeySign s
      let (value, rest) ← readValue fuel rest
      let (entries, rest) ← readEntries fuel false rest
      return ((key, value) :: entries, rest)

end

/-! ## Lines -/

/-- Reads the key of a header that opens a table. -/
def readTableHeader (s : List Char) : Option (Line × List Char) := do
  let (key, rest) ← readKey (skipBlanks s)
  return (.table key, ← expect ']' rest)

/-- Reads the key of a header that adds an element. -/
def readElementHeader (s : List Char) : Option (Line × List Char) := do
  let (key, rest) ← readKey (skipBlanks s)
  return (.element key, ← expect ']' (← expect ']' rest))

/-- Reads what a line says, without its comment and end. -/
def readLine (s : List Char) : Option (Line × List Char) :=
  match s with
  | [] | '#' :: _ | '\n' :: _ | '\r' :: _ => some (.blank, s)
  | '[' :: '[' :: rest => readElementHeader rest
  | '[' :: rest => readTableHeader rest
  | _ => do
    let (key, rest) ← readKeySign s
    let (value, rest) ← readValue (2 * rest.length + 2) rest
    return (.entry (key, value), rest)

/-- Reads a line with its comment and leaves its end. -/
def readWholeLine (s : List Char) : Option (Line × List Char) := do
  let (line, rest) ← readLine (skipBlanks s)
  return (line, ← skipComment (skipBlanks rest))

/-- Reads lines. One that something other than its end follows is the last to be read. -/
def readLines : Nat → List Char → Document
  | 0, _ => { lines := [], complete := false }
  | fuel + 1, s =>
    match readWholeLine s with
    | none => { lines := [], complete := false }
    | some (line, []) => { lines := [line], complete := true }
    | some (line, rest) =>
      match lineEnd? rest with
      | none => { lines := [line], complete := false }
      | some rest =>
        let d := readLines fuel rest
        { d with lines := line :: d.lines }

/-- Reads a document. -/
def read (s : List Char) : Document :=
  readLines (s.length + 1) s

end ArmBackend.Toml
