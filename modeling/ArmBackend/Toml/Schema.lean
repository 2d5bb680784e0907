import ArmBackend.Toml.Field
import ArmBackend.Toml.Scope

/-!
# Decoding into a record

A schema says what a document is decoded into: a record with fields, and perhaps a list of records
among them. The lines are taken in one by one, and the first that does not fit ends it:

* entries at the top set the fields of the record;
* a header leads along its key to where the entries below it go, and a list is entered at its last
  element;
* the header of a new element adds one, and starts the list anew where the scope has not met the
  list before;
* a key without a field is passed over, with all entries below it if it is that of a header.

A document is decoded once all its lines are taken in, if they are well formed and no key was passed
over.
-/

namespace ArmBackend.Toml

variable {α β : Type}

/-- A list of records in a record. -/
structure Records (α β : Type) where
  name : String
  /-- The name of the type of the elements. -/
  type : String
  get : α → List β
  set : List β → α → α
  /-- An element before its fields are set. -/
  blank : β
  field? : String → Option (Field β)

/-- What a document is decoded into. -/
structure Schema (α β : Type) where
  /-- The fields by their names. -/
  field? : String → Option (Field α)
  records? : Option (Records α β) := none

/-- A record with some of its fields set. -/
structure Draft (α : Type) where
  record : α
  /-- Whether a key was passed over. -/
  strays : Bool := false

/-- Sets the field that an entry names. No field has parts that a longer key could name. -/
def assignField (field? : String → Option (Field α)) (d : Draft α) (e : Entry) :
    Except Cause (Draft α) :=
  match field? (fieldName e.1.head) with
  | none => .ok { d with strays := true }
  | some f =>
    if e.1.tail.isEmpty then return { d with record := ← f.assign e.2 d.record }
    else .error .undecodable

/-- Where a header leads that names a field and then the names `below`. -/
def placeOf (field? : String → Option (Field α)) (name : String) (below : List String) (a : α) :
    Except Cause Place :=
  match field? (fieldName name) with
  | none => .ok .nowhere
  | some f => f.place below a

/-- Adds the element that a header names by a field and the names `below`. -/
def addElementTo (field? : String → Option (Field α)) (name : String) (below : List String)
    (fresh : Bool) (a : α) : Except Cause (α × Place) :=
  match field? (fieldName name) with
  | none => .ok (a, .nowhere)
  | some f => return (← f.addElement below fresh a, .leaf)

namespace Records

/-- The record that a table describes. -/
def readElement (r : Records α β) (v : Value) : Except Cause (Draft β) :=
  match v with
  | .table entries => entries.foldlM (assignField r.field?) { record := r.blank }
  | _ => v.given r.type none

/-- Replaces the list. -/
def assign (r : Records α β) (v : Value) (d : Draft α) : Except Cause (Draft α) :=
  match v with
  | .array items => do
    let drafts ← items.mapM r.readElement
    return { record := r.set (drafts.map Draft.record) d.record
             strays := d.strays || drafts.any Draft.strays }
  | _ => v.given ("[]" ++ r.type) none

/-- Replaces the last element. -/
def setLast (r : Records α β) (b : β) (a : α) : α :=
  r.set ((r.get a).dropLast ++ [b]) a

/-- Sets a field of the last element. -/
def assignLast (r : Records α β) (d : Draft α) (e : Entry) : Except Cause (Draft α) :=
  match (r.get d.record).getLast? with
  | none => .error .undecodable
  | some b => do
    let last ← assignField r.field? { d with record := b } e
    return { last with record := r.setLast last.record d.record }

/-- Where a header leads that names the list and then the names `below`. -/
def place (r : Records α β) (below : List String) (a : α) : Except Cause Place :=
  match (r.get a).getLast?, below with
  | none, _ => .error .undecodable
  | some _, [] => .ok .last
  | some b, name :: below => placeOf r.field? name below b

/-- Adds an element to the list, or below it to a list of the last element; an empty list gets an
element for that. -/
def addElement (r : Records α β) (below : List String) (fresh : Bool) (a : α) :
    Except Cause (α × Place) :=
  match below with
  | [] => .ok (r.set ((if fresh then [] else r.get a) ++ [r.blank]) a, .last)
  | name :: below => do
    let last := (r.get a).getLast?.getD r.blank
    let (last, place) ← addElementTo r.field? name below fresh last
    return (r.setLast last a, place)

end Records

/-- A record with the part of the document taken in so far. -/
structure Progress (α : Type) where
  draft : Draft α
  place : Place := .top
  scope : Scope := {}

namespace Schema

/-- The list of records, if that is what a name stands for. -/
def recordsNamed? (s : Schema α β) (name : String) : Option (Records α β) :=
  s.records?.filter fun r => r.name == fieldName name

/-- Sets what an entry names at a place. -/
def assign (s : Schema α β) (place : Place) (d : Draft α) (e : Entry) : Except Cause (Draft α) :=
  match place with
  | .top =>
    match s.recordsNamed? e.1.head with
    | some r => if e.1.tail.isEmpty then r.assign e.2 d else .error .undecodable
    | none => assignField s.field? d e
  | .last =>
    match s.records? with
    | some r => r.assignLast d e
    | none => .error .undecodable
  | .leaf => .error .undecodable
  | .nowhere => .ok d

/-- Where the header of a table leads. -/
def place (s : Schema α β) (key : Key) (a : α) : Except Cause Place :=
  match s.recordsNamed? key.head with
  | some r => r.place key.tail a
  | none => placeOf s.field? key.head key.tail a

/-- Adds the element that a header names. -/
def addElement (s : Schema α β) (key : Key) (fresh : Bool) (a : α) : Except Cause (α × Place) :=
  match s.recordsNamed? key.head with
  | some r => r.addElement key.tail fresh a
  | none => addElementTo s.field? key.head key.tail fresh a

/-- Takes in an entry, unless it is passed over. -/
def takeEntry (s : Schema α β) (p : Progress α) (e : Entry) : Except Cause (Progress α) :=
  if p.place = .nowhere then .ok p
  else if !e.2.wellKeyed then .error .undecodable
  else match p.scope.define? e.1 with
    | none => .error .undecodable
    | some scope => return { p with scope, draft := ← s.assign p.place p.draft e }

/-- Goes where a header leads. -/
def goTo (scope : Scope) (d : Draft α) (record : α) (place : Place) : Progress α :=
  { scope, place, draft := { record, strays := d.strays || place = .nowhere } }

/-- Takes in a line. -/
def step (s : Schema α β) (p : Progress α) : Line → Except Cause (Progress α)
  | .blank => .ok p
  | .entry e => s.takeEntry p e
  | .table key =>
    match p.scope.openTable? key with
    | none => .error .undecodable
    | some scope => return goTo scope p.draft p.draft.record (← s.place key p.draft.record)
  | .element key =>
    match p.scope.openElement? key with
    | none => .error .undecodable
    | some (scope, fresh) => do
      let (record, place) ← s.addElement key fresh p.draft.record
      return goTo scope p.draft record place

/-- Decodes a document; fields that it does not give keep what they have in `a`. -/
def decode (s : Schema α β) (a : α) (text : String) : Except Cause α := do
  let d := read text.toList
  let p ← d.lines.foldlM s.step { draft := { record := a } }
  if d.complete && !p.draft.strays then return p.draft.record else throw .undecodable

end Schema

end ArmBackend.Toml
