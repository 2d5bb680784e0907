import ArmBackend.Numeral
import ArmBackend.Toml.Basic

/-!
# Quoted texts

A text stands between double quotes, with escapes, or between single quotes, without. Three quotes
open a text that may run over several lines; a line end right behind them does not count, and up to
two quotes right before the closing ones belong to the text.
-/

namespace ArmBackend.Toml

/-- The character with a number given in base sixteen by `count` digits. -/
def hexChar? (count : Nat) (s : List Char) : Option (Char × List Char) :=
  let digits := s.take count
  if digits.length = count ∧ digits.all (Numeral.isDigitOf 16) then
    let n := digits.foldl (fun n c => n * 16 + (Numeral.digitValue? c).getD 0) 0
    if n < 0xd800 ∨ (0xe000 ≤ n ∧ n < 0x110000) then some (Char.ofNat n, s.drop count) else none
  else none

/-- The character that an escape stands for, given what follows the backslash. -/
def readEscape : Reader Char
  | 'u' :: rest => hexChar? 4 rest
  | 'U' :: rest => hexChar? 8 rest
  | c :: rest =>
    let simple? : Option Char :=
      match c with
      | '"' => some '"'
      | '\\' => some '\\'
      | 'b' => some '\x08'
      | 'f' => some '\x0c'
      | 'n' => some '\n'
      | 'r' => some '\r'
      | 't' => some '\t'
      | 'e' => some '\x1b'
      | _ => none
    simple?.map fun d => (d, rest)
  | [] => none

/-- Reads on to the closing double quote. -/
def basicBody : Nat → List Char → List Char → Option (String × List Char)
  | 0, _, _ => none
  | _, _, [] => none
  | fuel + 1, taken, c :: rest =>
    if c = '"' then some (String.ofList taken.reverse, rest)
    else if c = '\\' then
      match readEscape rest with
      | some (d, rest) => basicBody fuel (d :: taken) rest
      | none => none
    else if isTextChar c then basicBody fuel (c :: taken) rest
    else none

/-- Reads on to the closing single quote. -/
def literalBody (s : List Char) : Option (String × List Char) :=
  let content := s.takeWhile fun c => isTextChar c && c != '\''
  match s.drop content.length with
  | '\'' :: rest => some (String.ofList content, rest)
  | _ => none

/-- A text without the line end at its front. -/
def skipLineEnd (s : List Char) : List Char :=
  (lineEnd? s).getD s

/-- A text without the blanks and line ends at its front. -/
def skipBreaks : Nat → List Char → List Char
  | 0, s => s
  | fuel + 1, s =>
    match s with
    | c :: rest =>
      if isBlank c then skipBreaks fuel rest
      else match lineEnd? s with
        | some after => skipBreaks fuel after
        | none => s
    | [] => []

/-- How a run of quotes ends a text of several lines: the quotes that still belong to the text, or
nothing when the run is too short to end it. More than five quotes in a row are an error. -/
inductive Closing
  | content
  | closed (extra : Nat)
  | overlong
  deriving DecidableEq

/-- What a run of `count` quotes means. -/
def closing (count : Nat) : Closing :=
  if count < 3 then .content
  else if count ≤ 5 then .closed (count - 3)
  else .overlong

/-- Reads on to the three closing quotes of a text of several lines. Backslashes are escapes in a
text between double quotes only; one at the end of a line swallows the blanks and line ends behind
it. -/
def linesBody (quote : Char) : Nat → List Char → List Char → Option (String × List Char)
  | 0, _, _ => none
  | _, _, [] => none
  | fuel + 1, taken, c :: rest =>
    let s := c :: rest
    if c = quote then
      let run := s.takeWhile (· == quote)
      match closing run.length with
      | .content => linesBody quote fuel (run ++ taken) (s.drop run.length)
      | .closed extra =>
        some (String.ofList (taken.reverse ++ List.replicate extra quote), s.drop run.length)
      | .overlong => none
    else if c = '\\' ∧ quote = '"' then
      -- a backslash at the end of a line swallows the blanks and breaks after it
      if (lineEnd? (skipBlanks rest)).isSome then
        linesBody quote fuel taken (skipBreaks rest.length rest)
      else match readEscape rest with
        | some (d, rest) => linesBody quote fuel (d :: taken) rest
        | none => none
    else if c = '\n' ∨ isTextChar c then linesBody quote fuel (c :: taken) rest
    else match c, rest with
      | '\r', '\n' :: after => linesBody quote fuel ('\n' :: '\r' :: taken) after
      | _, _ => none

/-- Reads a text between quotes on one line. -/
def readQuoted : Reader String
  | '"' :: rest => basicBody (rest.length + 1) [] rest
  | '\'' :: rest => literalBody rest
  | _ => none

/-- Reads a text in any of its four forms. -/
def readText : Reader String
  | '"' :: '"' :: '"' :: rest => linesBody '"' (rest.length + 1) [] (skipLineEnd rest)
  | '\'' :: '\'' :: '\'' :: rest => linesBody '\'' (rest.length + 1) [] (skipLineEnd rest)
  | s => readQuoted s

end ArmBackend.Toml
