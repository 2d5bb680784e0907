import ArmBackend.Toml.Basic

/-!
# Dates and times

A value that starts with two digits and a colon, or with four digits and a hyphen, is a time or a
date. Its spelling is the longest run of digits and of the signs that dates and times are written
with. One space may stand between a date and a time; it takes the digit behind it and one character
more along. Whether the spelling is that of a day and time is asked when a field is given the value.
-/

namespace ArmBackend.Toml

/-! ## Spelling -/

/-- Whether a text starts like a date or a time. -/
def startsDate : List Char → Bool
  | a :: b :: ':' :: _ => a.isDigit && b.isDigit
  | a :: b :: c :: d :: '-' :: _ => a.isDigit && b.isDigit && c.isDigit && d.isDigit
  | _ => false

/-- Whether a character continues a date or a time. -/
def isDateChar (c : Char) : Bool :=
  c.isDigit || ['-', '+', ':', '.', 'T', 't', 'Z', 'z'].contains c

/-- Takes the spelling of a date or a time off. A character beyond ASCII cannot be the one that a
space takes along. -/
def readDate (s : List Char) : Option (Value × List Char) :=
  let day := s.takeWhile isDateChar
  match s.drop day.length with
  | ' ' :: d :: rest =>
    -- a blank may stand for the `T` between day and time
    if d.isDigit then
      let along := rest.take 1
      let time := (rest.drop 1).takeWhile isDateChar
      if along.all fun c => c.toNat < 0x80 then
        some (.date (day ++ ' ' :: d :: along ++ time), rest.drop (along ++ time).length)
      else none
    else some (.date day, ' ' :: d :: rest)
  | rest => some (.date day, rest)

/-! ## Meaning -/

/-- What a spelling fixes: a moment, or a day, a time of day or both without a time zone. -/
inductive DateKind
  | moment
  | dayTime
  | day
  | time
  deriving DecidableEq, Repr

/-- The name of the type of such values. -/
def DateKind.typeName : DateKind → String
  | .moment => "time.Time"
  | .dayTime => "toml.LocalDateTime"
  | .day => "toml.LocalDate"
  | .time => "toml.LocalTime"

/-- The number that the first `count` characters are the digits of. -/
def readDigits? (count : Nat) (s : List Char) : Option (Nat × List Char) :=
  let digits := s.take count
  if digits.length = count ∧ digits.all Char.isDigit then
    some (digits.foldl (fun n c => n * 10 + (c.toNat - '0'.toNat)) 0, s.drop count)
  else none

/-- Reads a number of two digits up to a bound. -/
def readPair? (bound : Nat) (s : List Char) : Option (List Char) := do
  let (n, rest) ← readDigits? 2 s
  if n ≤ bound then return rest else none

/-- Whether a year has a leap day. -/
def isLeapYear (year : Nat) : Bool :=
  year % 4 == 0 && (year % 100 != 0 || year % 400 == 0)

/-- The days of a month. -/
def daysOfMonth (year month : Nat) : Nat :=
  if month = 2 then (if isLeapYear year then 29 else 28)
  else if month ∈ [4, 6, 9, 11] then 30
  else 31

/-- Reads a day of the calendar. -/
def readDay? (s : List Char) : Option (List Char) := do
  let (year, rest) ← readDigits? 4 s
  let (month, rest) ← readDigits? 2 (← expect '-' rest)
  let (day, rest) ← readDigits? 2 (← expect '-' rest)
  if 1 ≤ month ∧ month ≤ 12 ∧ 1 ≤ day ∧ day ≤ daysOfMonth year month then return rest else none

/-- Reads a time of day; the second may be a leap second and have a fraction. -/
def readTime? (s : List Char) : Option (List Char) := do
  let rest ← expect ':' (← readPair? 23 s)
  let rest ← expect ':' (← readPair? 59 rest)
  let rest ← readPair? 60 rest
  match rest with
  | '.' :: fraction =>
    let after := fraction.dropWhile Char.isDigit
    if after.length < fraction.length then return after else none
  | _ => return rest

/-- Reads the hours and minutes that a time zone is ahead or behind. -/
def readOffset? (s : List Char) : Option (List Char) := do
  readPair? 59 (← expect ':' (← readPair? 23 s))

/-- Whether a text is a time zone: a letter for none, or a signed offset. -/
def isZone : List Char → Bool
  | ['Z'] => true
  | ['z'] => true
  | sign :: rest => (sign == '+' || sign == '-') && (readOffset? rest).any List.isEmpty
  | [] => false

/-- What the spelling of a date or a time fixes, if it is that of one. -/
def dateKind? (s : List Char) : Option DateKind :=
  match readDay? s with
  | some [] => some .day
  | some (mark :: rest) => do
    let zone ← if mark = 'T' ∨ mark = 't' ∨ mark = ' ' then readTime? rest else none
    if zone.isEmpty then return .dayTime
    else if isZone zone then return .moment
    else none
  | none => do
    let rest ← readTime? s
    if rest.isEmpty then return .time else none

end ArmBackend.Toml
