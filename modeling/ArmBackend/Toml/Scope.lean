import ArmBackend.Toml.Basic

/-!
# Names in use

Which names a document may still bring up. A path names a value, a table or a list of tables, and
keeps its role:

* a key is given a value once, and nothing lies below a value;
* a table has one header of its own, and other headers may pass through it before and after;
* the keys of entries may pass through a table as long as it has no header of its own and was not
  brought up by the entries of an earlier section;
* each new element of a list of tables frees the names below it.

Names are told apart by case here, unlike the fields they stand for.
-/

namespace ArmBackend.Toml

/-- What a path names. -/
inductive Role
  | value
  | table
  | list
  deriving DecidableEq, Repr

/-- A path in use. -/
structure Definition where
  path : List String
  role : Role
  /-- Whether the keys of entries may no longer pass through. -/
  closed : Bool := false
  /-- Whether an entry of the section being read brought the path up. -/
  fromEntry : Bool := false
  deriving DecidableEq, Repr

/-- The paths in use, and the one of the section being read. -/
structure Scope where
  current : List String := []
  definitions : List Definition := []
  deriving DecidableEq, Repr

/-- The paths from `base` to what `parts` names, without both ends. -/
def pathsBetween (base : List String) : List String → List (List String)
  | name :: next :: rest =>
    (base ++ [name]) :: pathsBetween (base ++ [name]) (next :: rest)
  | _ => []

/-- Whether a path lies below another one. -/
def isBelow (top path : List String) : Bool :=
  top.isPrefixOf path && top != path

namespace Scope

/-- The definition of a path. -/
def find? (s : Scope) (path : List String) : Option Definition :=
  s.definitions.find? fun d => d.path == path

/-- The scope with one more path. -/
def insert (s : Scope) (d : Definition) : Scope :=
  { s with definitions := d :: s.definitions }

/-- Ends the section being read: what its entries brought up is closed. -/
def endSection (s : Scope) : Scope :=
  { s with definitions := s.definitions.map fun d =>
      if d.fromEntry && isBelow s.current d.path then { d with closed := true, fromEntry := false }
      else d }

/-- Passes through a path on the way to what a header names. -/
def passHeader? (s : Scope) (path : List String) : Option Scope :=
  match s.find? path with
  | none => some (s.insert { path, role := .table })
  | some d => if d.role = .value then none else some s

/-- Passes through a path on the way to what an entry names. -/
def passEntry? (s : Scope) (path : List String) : Option Scope :=
  match s.find? path with
  | none => some (s.insert { path, role := .table, fromEntry := true })
  | some d => if d.role = .table ∧ ¬ d.closed then some s else none

/-- Goes to the table that a header names. -/
def openTable? (s : Scope) (key : Key) : Option Scope := do
  let path := key.parts
  let s ← (pathsBetween [] path).foldlM passHeader? s.endSection
  match s.find? path with
  | none => return { s.insert { path, role := .table, closed := true } with current := path }
  | some d =>
    if d.role = .table ∧ ¬ d.closed then
      let close (e : Definition) := if e.path = path then { e with closed := true } else e
      return { current := path, definitions := s.definitions.map close }
    else none

/-- Goes to the new element that a header names, and tells whether it is the first of its list. -/
def openElement? (s : Scope) (key : Key) : Option (Scope × Bool) := do
  let path := key.parts
  let s ← (pathsBetween [] path).foldlM passHeader? s.endSection
  match s.find? path with
  | none => return ({ s.insert { path, role := .list, closed := true } with current := path }, true)
  | some d =>
    if d.role = .list then
      let definitions := s.definitions.filter fun e => !isBelow path e.path
      return ({ current := path, definitions }, false)
    else none

/-- Gives a value to what a key names in the section being read. -/
def define? (s : Scope) (key : Key) : Option Scope := do
  let s ← (pathsBetween s.current key.parts).foldlM passEntry? s
  let path := s.current ++ key.parts
  if (s.find? path).isSome then none
  else return s.insert { path, role := .value, fromEntry := true }

end Scope

/-- Whether keys go together in a table in braces, which has a scope of its own. -/
def keysAgree (keys : List Key) : Bool :=
  (keys.foldlM Scope.define? {}).isSome

/-- Whether the keys of all tables in braces inside a value go together. -/
def Value.wellKeyed : Value → Bool
  | .array items => items.attach.all fun ⟨v, _⟩ => v.wellKeyed
  | .table entries =>
    keysAgree (entries.map Prod.fst) && entries.attach.all fun ⟨e, _⟩ => e.2.wellKeyed
  | _ => true
termination_by v => sizeOf v
decreasing_by
  · rename_i h
    have := List.sizeOf_lt_of_mem h
    simp only [Value.array.sizeOf_spec]
    omega
  · rename_i h
    have := List.sizeOf_lt_of_mem h
    have : sizeOf e.2 < sizeOf e := by
      cases e
      simp only [Prod.mk.sizeOf_spec]
      omega
    simp only [Value.table.sizeOf_spec]
    omega

end ArmBackend.Toml
