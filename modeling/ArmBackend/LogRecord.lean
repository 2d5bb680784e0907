import ArmBackend.Schedule.Basic
import ArmBackend.Stream.Basic

/-!
# Log records

The compact binary form in which nodes, blocks, instructions and sets go to a log. A record is built
from items: a tag byte holds a kind and a number, which is small enough to fit or follows in one,
two, four or eight bytes, most significant first. Maps and long arrays are open and end with a
break.
-/

namespace ArmBackend.LogRecord

/-- Bytes of a record. -/
abbrev Bytes := List UInt8

/-- The kind of an item. -/
inductive Kind
  | int
  | negative
  | text
  | array
  | map
  | special
  deriving DecidableEq, Repr

/-- The number of a kind in the tag byte. -/
def Kind.code : Kind → Nat
  | .int => 0
  | .negative => 1
  | .text => 3
  | .array => 4
  | .map => 5
  | .special => 7

/-- The low `count` bytes of a number, most significant first. -/
def bigEndian (count n : Nat) : Bytes :=
  (List.range count).map fun i => UInt8.ofNat (n >>> (8 * (count - 1 - i)))

/-- The tag byte of a kind with a number below 32. -/
def tagByte (kind : Kind) (n : Nat) : UInt8 :=
  UInt8.ofNat (kind.code * 32 + n)

/-- A tag with its number, in as few bytes as hold it. -/
def tag (kind : Kind) (n : Nat) : Bytes :=
  if n < 24 then [tagByte kind n]
  else if n < 0x100 then tagByte kind 24 :: bigEndian 1 n
  else if n < 0x10000 then tagByte kind 25 :: bigEndian 2 n
  else if n < 0x100000000 then tagByte kind 26 :: bigEndian 4 n
  else tagByte kind 27 :: bigEndian 8 n

/-- Opens a map or an array that a break ends. -/
def openTag (kind : Kind) : Bytes :=
  [tagByte kind 31]

/-- The end of what was opened. -/
def stop : Bytes :=
  [tagByte .special 31]

/-- Nothing. -/
def nil : Bytes :=
  [tagByte .special 22]

/-- An integer; of a negative one, one more than its absolute value is written. -/
def int (v : Int) : Bytes :=
  if v < 0 then tag .negative (v.natAbs + 1) else tag .int v.toNat

/-- A text, by its length in bytes. -/
def text (s : String) : Bytes :=
  let bytes := s.toUTF8.toList
  tag .text bytes.length ++ bytes

/-- The single precision pattern of a double that single precision holds exactly. -/
def single? (x : Double) : Option Nat :=
  let sign := if x.isNegative then 0x80000000 else 0
  if x.isNaN then none
  else if x.isInfinite then some (sign + 0xff * 0x800000)
  else
    let unit := 1 <<< (1074 - 149)
    let count := x.magnitude / unit
    let shift := count.log2 - 23
    if x.magnitude % unit = 0 ∧ count % (1 <<< shift) = 0 ∧ count < 1 <<< 277 then
      some (sign + shift * 0x800000 + (count >>> shift))
    else none

/-- A double, in the shortest of its forms: a small integer, single precision or its own bits. -/
def float (x : Double) : Bytes :=
  match x.toInt? with
  | some z =>
    if -128 ≤ z ∧ z ≤ 127 then tagByte .special 24 :: bigEndian 1 (z % 256).toNat else wide
  | none => wide
where
  /-- The forms that are not small integers. -/
  wide : Bytes :=
    match single? x with
    | some pattern => tagByte .special 26 :: bigEndian 4 pattern
    | none => tagByte .special 27 :: bigEndian 8 x.bits.toNat

/-- A list of items with a known length. -/
def list (items : List Bytes) : Bytes :=
  tag .array items.length ++ items.flatten

/-- A map, by its keys and values. -/
def map (entries : List (String × Bytes)) : Bytes :=
  openTag .map ++ entries.flatMap (fun (key, value) => text key ++ value) ++ stop

/-- The record of a node number. -/
def ofId (id : NodeId) : Bytes :=
  if id < 0 then nil else int id

/-- The record of a node. -/
def ofNode (n : Node) : Bytes :=
  let parameter : List (String × Bytes) :=
    match n.op with
    | .constant .float64 => [("val", float n.float)]
    | .constant .heap | .constant .external => [("val", text n.name)]
    | .constant .int32 | .constant .int64 | .projection | .parameter => [("val", int n.int)]
    | .load | .store | .phi => [("rep", text n.rep.name)]
    | _ => []
  map ([("op", text n.op.name), ("in", list (n.inputs.map int))] ++ parameter)

/-- The record of a block. -/
def ofBlock (b : Nat) (block : Block) : Bytes :=
  map [("id", int b), ("kind", text block.kind.name), ("head", int block.head),
    ("nodes", int block.nodes.length), ("succ", list (block.succ.map fun (x : Nat) => int x))]

/-- The record of an instruction without flags. -/
def ofInstr (i : Instr) : Bytes :=
  map [("op", int i.op.code), ("mode", int i.mode.code),
    ("out", list (i.out.map fun o => text o.text)),
    ("in", list (i.inputs.map fun o => text o.text))]

/-- The record of a set. -/
def ofSet (s : BitSet) : Bytes :=
  if s.words.isEmpty then nil
  else openTag .array ++ s.toList.flatMap (fun (k : Nat) => int k) ++ stop

/-- Bytes in base sixteen. -/
def hex (bytes : Bytes) : String :=
  String.join (bytes.map fun b => Text.hexPlaces 2 b.toNat)

end ArmBackend.LogRecord
