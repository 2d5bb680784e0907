import ArmBackend.Fault

/-!
# Targets

A target is a word width and a set of optional processor features. Features are kept in one byte;
in text they are a list of names between commas.
-/

namespace ArmBackend

/-- Optional parts of the processor. -/
inductive Feature
  /-- Integer division. -/
  | sudiv
  /-- Multiply and subtract. -/
  | mls
  /-- Bit field instructions. -/
  | armv7
  deriving DecidableEq, Repr

namespace Feature

/-- Every feature, in the order of the bits. -/
def all : List Feature :=
  [.sudiv, .mls, .armv7]

/-- The name of a feature. -/
def name : Feature → String
  | .sudiv => "sudiv"
  | .mls => "mls"
  | .armv7 => "armv7"

/-- The number of a feature. -/
def code : Feature → Nat
  | .sudiv => 0
  | .mls => 1
  | .armv7 => 2

/-- The name of the feature with a number. -/
def nameOfCode (code : Nat) : String :=
  (all[code]?.map name).getD "unknown"

end Feature

/-- A set of features. -/
structure Features where
  bits : BitVec 8
  deriving DecidableEq, Repr

namespace Features

/-- No feature. -/
def none : Features :=
  ⟨0⟩

/-- Whether the feature with a number is in the set. -/
def hasCode (s : Features) (code : Nat) : Bool :=
  s.bits.getLsbD code

/-- Whether a feature is in the set. -/
def has (s : Features) (f : Feature) : Bool :=
  s.hasCode f.code

/-- The set with the feature of a number; numbers from eight on add nothing. -/
def insertCode (s : Features) (code : Nat) : Features :=
  ⟨s.bits ||| BitVec.twoPow 8 code⟩

/-- The set of the features with the given numbers. -/
def ofCodes (codes : List Nat) : Features :=
  codes.foldl insertCode none

/-- The features of either set. -/
def union (s t : Features) : Features :=
  ⟨s.bits ||| t.bits⟩

/-- The names of the features in the set, between commas. -/
def text (s : Features) : String :=
  Text.joinWith "," ((Feature.all.filter s.has).map Feature.name)

/-- Adds the features that a list of names stands for. -/
def readNames : List (List Char) → Features → Except Fault Features
  | [], s => .ok s
  | piece :: rest, s =>
    let name := String.ofList (Text.trim piece)
    if name = "" then readNames rest s
    else match Feature.all.find? (·.name == name) with
      | some f => readNames rest (s.insertCode f.code)
      | Option.none => .error (.refused (.unknownFeature name))

/-- Reads names between commas; blanks around a name and empty names do not matter. -/
def read (text : String) : Except Fault Features :=
  readNames (Text.pieces ',' text.toList) none

end Features

/-- What code is made for. -/
structure Config where
  /-- The width of a machine word in bits. -/
  word : Int := 32
  features : Features := .none
  deriving DecidableEq, Repr

/-- Whether a word width is one that tagged values are laid out for. -/
def isWordWidth (word : Int) : Bool :=
  word == 32 || word == 64

namespace Config

/-- Checks the word width. -/
def validate (c : Config) : Except Fault Unit :=
  if isWordWidth c.word then .ok () else .error (.refused (.configWord c.word))

/-- The machine that runs this program counts as one without optional features. -/
def host : Config :=
  {}

end Config
end ArmBackend
