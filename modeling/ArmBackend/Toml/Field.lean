import ArmBackend.Target
import ArmBackend.Toml.Reader

/-!
# Fields

What a field takes from a value. Keys match fields without regard to case. A field holds a single
value or a list of texts and takes values of its own type only, except that a set of features is
given by the bare text of any value. A value of another type makes the document undecodable; a date,
which is well formed and yet fits no field, and a header that goes on below a field break it off.
-/

namespace ArmBackend.Toml

/-- A letter in lower case. The dotted capital I and the Kelvin sign are the only ones beyond ASCII
whose lower case is an ASCII letter. -/
def lowerChar (c : Char) : Char :=
  if c.toNat = 0x130 then 'i' else if c.toNat = 0x212a then 'k' else c.toLower

/-- The name of the field that a key stands for. -/
def fieldName (key : String) : String :=
  String.ofList (key.toList.map lowerChar)

namespace Value

/-- A text. -/
def text? : Value → Option String
  | .text s => some s
  | _ => none

/-- A 64 bit integer. -/
def int? : Value → Option Int
  | .integer s => integer? s
  | _ => none

/-- A float, or a decimal integer in its place. -/
def double? : Value → Option Double
  | .integer s => float? s
  | .float s => float? s
  | _ => none

/-- The bare text of a value: a list or table has none. -/
def spelling : Value → String
  | .text s => s
  | .integer s => String.ofList s
  | .float s => String.ofList s
  | .date s => String.ofList s
  | .bool true => "true"
  | .bool false => "false"
  | .array _ => ""
  | .table _ => ""

/-- A set of features, given by the bare text. -/
def features? (v : Value) : Option Features :=
  match Features.read v.spelling with
  | .ok f => some f
  | .error _ => none

/-- Whether a value is a sign without digits. -/
def isLoneSign : Value → Bool
  | .integer ['+'] => true
  | .integer ['-'] => true
  | _ => false

/-- A value as what a field of a type takes from it, if it takes anything. A date of the calendar is
not turned down with the rest. -/
def given {α : Type} (v : Value) (type : String) (taken : Option α) : Except Cause α :=
  match v, taken with
  | .date s, _ =>
    match dateKind? s with
    | some kind => .error (.unassignable kind.typeName type)
    | none => .error .undecodable
  | _, some a => .ok a
  | _, none => .error .undecodable

end Value

/-! ## Types -/

/-- The types of fields that hold a single value. -/
inductive FieldType
  | word
  | features
  | int
  | int64
  | float64
  | string
  deriving DecidableEq, Repr

namespace FieldType

/-- What a field of a type holds. -/
abbrev Carrier : FieldType → Type
  | .word => Int
  | .features => Features
  | .int => Int
  | .int64 => Int
  | .float64 => Double
  | .string => String

/-- The name of a type. -/
def name : FieldType → String
  | .word => "target.Word"
  | .features => "target.Features"
  | .int => "int"
  | .int64 => "int64"
  | .float64 => "float64"
  | .string => "string"

/-- The name of the plain type that values are kept as. -/
def plainName : FieldType → String
  | .word => "int"
  | .features => "uint8"
  | t => t.name

/-- Reads a value. A sign without digits has no first digit that a float could be told by. -/
def read (t : FieldType) (v : Value) : Except Cause t.Carrier :=
  match t with
  | .word => v.given t.name v.int?
  | .features =>
    match v.features? with
    | some f => .ok f
    | none => .error .undecodable
  | .int => v.given t.name v.int?
  | .int64 => v.given t.name v.int?
  | .float64 => if v.isLoneSign then .error .outOfRange else v.given t.name v.double?
  | .string => v.given t.name v.text?

end FieldType

/-- Reads a list of texts. -/
def Value.texts (v : Value) : Except Cause (List String) :=
  match v with
  | .array items => items.mapM FieldType.string.read
  | _ => v.given ("[]" ++ FieldType.string.name) none

/-! ## Fields -/

/-- Where entries go. -/
inductive Place
  /-- To the record of the document. -/
  | top
  /-- To the last record of its list of records. -/
  | last
  /-- To a value without fields, which takes none. -/
  | leaf
  /-- To something that the record has no field for. -/
  | nowhere
  deriving DecidableEq, Repr

/-- A field of a record. -/
inductive Field (α : Type)
  /-- A single value. -/
  | single (type : FieldType) (set : type.Carrier → α → α)
  /-- A list of texts. -/
  | texts (get : α → List String) (set : List String → α → α)

namespace Field

variable {α : Type}

/-- Gives a value to the field. -/
def assign (f : Field α) (v : Value) (a : α) : Except Cause α :=
  match f with
  | .single type set => return set (← type.read v) a
  | .texts _ set => return set (← v.texts) a

/-- Where a header leads that names the field and then the names `below`. A list is entered at its
last element, so there has to be one. -/
def place (f : Field α) (below : List String) (a : α) : Except Cause Place :=
  match f with
  | .single type _ => if below.isEmpty then .ok .leaf else .error (.noParts type.plainName)
  | .texts get _ =>
    if (get a).isEmpty then .error .undecodable
    else if below.isEmpty then .ok .leaf
    else .error (.noParts FieldType.string.plainName)

/-- Adds the element that a header names: an empty text at the end of a list, or in place of it. -/
def addElement (f : Field α) (below : List String) (fresh : Bool) (a : α) : Except Cause α :=
  match f with
  | .single type _ =>
    .error (if below.isEmpty then .undecodable else .noParts type.plainName)
  | .texts get set =>
    if below.isEmpty then .ok (set ((if fresh then [] else get a) ++ [""]) a)
    else .error (.noParts FieldType.string.plainName)

end Field

end ArmBackend.Toml
