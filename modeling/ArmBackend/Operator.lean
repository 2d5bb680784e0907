/-!
# Operators

An operator says what a node of the graph computes. Operators come in families: control, constants,
representation changes, 32 and 64 bit words, integer arithmetic, conversions and doubles. Each has a
code (its position in `Operator.all`), a name, an arity of value, effect and control inputs, and the
properties that later passes ask for.

Codes outside the table are kept as `Operator.unassigned`, so that a graph can hold a number that no
operator has until verification reports it.
-/

namespace ArmBackend

/-- What a constant node stands for. -/
inductive ConstantKind
  | int32
  | int64
  | float64
  | heap
  | external
  deriving DecidableEq, Repr

/-- Changes between a machine value and a tagged word, which lowering expands. -/
inductive Change
  | bitToBool
  | boolToBit
  | int32ToTagged
  | uint32ToTagged
  | float64ToTagged
  | taggedToInt32
  | taggedToUint32
  | taggedToFloat64
  deriving DecidableEq, Repr

/-- Operators on 32 bit words. -/
inductive Word32Op
  | and
  | or
  | xor
  | shl
  | shr
  | sar
  | ror
  | equal
  deriving DecidableEq, Repr

/-- Operators on 64 bit words. -/
inductive Word64Op
  | and
  | or
  | xor
  | shl
  | shr
  | sar
  | equal
  deriving DecidableEq, Repr

/-- Arithmetic and order of 32 bit integers. -/
inductive Int32Op
  | add
  | addWithOverflow
  | sub
  | subWithOverflow
  | mul
  | div
  | udiv
  | mod
  | umod
  | lessThan
  | lessThanOrEqual
  | unsignedLessThan
  | unsignedLessThanOrEqual
  deriving DecidableEq, Repr

/-- Conversions between machine numbers. -/
inductive Conversion
  | int32ToFloat64
  | uint32ToFloat64
  | float64ToInt32
  | float64ToUint32
  | int32ToInt64
  | uint32ToUint64
  | truncateFloat64ToInt32
  | truncateInt64ToInt32
  deriving DecidableEq, Repr

/-- Arithmetic and order of doubles. -/
inductive Float64Op
  | add
  | sub
  | mul
  | div
  | equal
  | lessThan
  | lessThanOrEqual
  deriving DecidableEq, Repr

/-- What a node computes. -/
inductive Operator
  | invalid
  | dead
  | start
  | exit
  | parameter
  | constant (kind : ConstantKind)
  | branch
  | ifTrue
  | ifFalse
  | merge
  | phi
  | effectPhi
  | ret
  | projection
  | finish
  | valueEffect
  | controlEffect
  | call
  | change (c : Change)
  | stringAdd
  | load
  | store
  | word32 (op : Word32Op)
  | word64 (op : Word64Op)
  | int32 (op : Int32Op)
  | convert (c : Conversion)
  | float64 (op : Float64Op)
  | unassigned (code : Nat)
  deriving DecidableEq, Repr

/-- How many value, effect and control inputs an operator takes; `none` is any number. -/
structure Arity where
  value : Option Nat := some 0
  effect : Option Nat := some 0
  control : Option Nat := some 0
  deriving DecidableEq, Repr

namespace Operator

/-! ## Names and codes -/

/-- Every assigned operator, in the order of the codes. -/
def all : List Operator :=
  [.invalid, .dead, .start, .exit, .parameter, .constant .int32, .constant .int64,
    .constant .float64, .constant .heap, .constant .external, .branch, .ifTrue, .ifFalse, .merge,
    .phi, .effectPhi, .ret, .projection, .finish, .valueEffect, .controlEffect, .call,
    .change .bitToBool, .change .boolToBit, .change .int32ToTagged, .change .uint32ToTagged,
    .change .float64ToTagged, .change .taggedToInt32, .change .taggedToUint32,
    .change .taggedToFloat64, .stringAdd, .load, .store,
    .word32 .and, .word32 .or, .word32 .xor, .word32 .shl, .word32 .shr, .word32 .sar,
    .word32 .ror, .word32 .equal,
    .word64 .and, .word64 .or, .word64 .xor, .word64 .shl, .word64 .shr, .word64 .sar,
    .word64 .equal,
    .int32 .add, .int32 .addWithOverflow, .int32 .sub, .int32 .subWithOverflow, .int32 .mul,
    .int32 .div, .int32 .udiv, .int32 .mod, .int32 .umod, .int32 .lessThan,
    .int32 .lessThanOrEqual, .int32 .unsignedLessThan, .int32 .unsignedLessThanOrEqual,
    .convert .int32ToFloat64, .convert .uint32ToFloat64, .convert .float64ToInt32,
    .convert .float64ToUint32, .convert .int32ToInt64, .convert .uint32ToUint64,
    .convert .truncateFloat64ToInt32, .convert .truncateInt64ToInt32,
    .float64 .add, .float64 .sub, .float64 .mul, .float64 .div, .float64 .equal,
    .float64 .lessThan, .float64 .lessThanOrEqual]

/-- The name an operator has in graph files and listings. -/
def name : Operator → String
  | .invalid => "Invalid"
  | .dead => "Dead"
  | .start => "Start"
  | .exit => "End"
  | .parameter => "Parameter"
  | .constant .int32 => "Int32Constant"
  | .constant .int64 => "Int64Constant"
  | .constant .float64 => "Float64Constant"
  | .constant .heap => "HeapConstant"
  | .constant .external => "ExternalConstant"
  | .branch => "Branch"
  | .ifTrue => "IfTrue"
  | .ifFalse => "IfFalse"
  | .merge => "Merge"
  | .phi => "Phi"
  | .effectPhi => "EffectPhi"
  | .ret => "Return"
  | .projection => "Projection"
  | .finish => "Finish"
  | .valueEffect => "ValueEffect"
  | .controlEffect => "ControlEffect"
  | .call => "Call"
  | .change .bitToBool => "ChangeBitToBool"
  | .change .boolToBit => "ChangeBoolToBit"
  | .change .int32ToTagged => "ChangeInt32ToTagged"
  | .change .uint32ToTagged => "ChangeUint32ToTagged"
  | .change .float64ToTagged => "ChangeFloat64ToTagged"
  | .change .taggedToInt32 => "ChangeTaggedToInt32"
  | .change .taggedToUint32 => "ChangeTaggedToUint32"
  | .change .taggedToFloat64 => "ChangeTaggedToFloat64"
  | .stringAdd => "StringAdd"
  | .load => "Load"
  | .store => "Store"
  | .word32 .and => "Word32And"
  | .word32 .or => "Word32Or"
  | .word32 .xor => "Word32Xor"
  | .word32 .shl => "Word32Shl"
  | .word32 .shr => "Word32Shr"
  | .word32 .sar => "Word32Sar"
  | .word32 .ror => "Word32Ror"
  | .word32 .equal => "Word32Equal"
  | .word64 .and => "Word64And"
  | .word64 .or => "Word64Or"
  | .word64 .xor => "Word64Xor"
  | .word64 .shl => "Word64Shl"
  | .word64 .shr => "Word64Shr"
  | .word64 .sar => "Word64Sar"
  | .word64 .equal => "Word64Equal"
  | .int32 .add => "Int32Add"
  | .int32 .addWithOverflow => "Int32AddWithOverflow"
  | .int32 .sub => "Int32Sub"
  | .int32 .subWithOverflow => "Int32SubWithOverflow"
  | .int32 .mul => "Int32Mul"
  | .int32 .div => "Int32Div"
  | .int32 .udiv => "Int32UDiv"
  | .int32 .mod => "Int32Mod"
  | .int32 .umod => "Int32UMod"
  | .int32 .lessThan => "Int32LessThan"
  | .int32 .lessThanOrEqual => "Int32LessThanOrEqual"
  | .int32 .unsignedLessThan => "Uint32LessThan"
  | .int32 .unsignedLessThanOrEqual => "Uint32LessThanOrEqual"
  | .convert .int32ToFloat64 => "ChangeInt32ToFloat64"
  | .convert .uint32ToFloat64 => "ChangeUint32ToFloat64"
  | .convert .float64ToInt32 => "ChangeFloat64ToInt32"
  | .convert .float64ToUint32 => "ChangeFloat64ToUint32"
  | .convert .int32ToInt64 => "ChangeInt32ToInt64"
  | .convert .uint32ToUint64 => "ChangeUint32ToUint64"
  | .convert .truncateFloat64ToInt32 => "TruncateFloat64ToInt32"
  | .convert .truncateInt64ToInt32 => "TruncateInt64ToInt32"
  | .float64 .add => "Float64Add"
  | .float64 .sub => "Float64Sub"
  | .float64 .mul => "Float64Mul"
  | .float64 .div => "Float64Div"
  | .float64 .equal => "Float64Equal"
  | .float64 .lessThan => "Float64LessThan"
  | .float64 .lessThanOrEqual => "Float64LessThanOrEqual"
  | .unassigned _ => "Op(?)"

/-- The code of an operator. -/
def code : Operator → Nat
  | .unassigned code => code
  | op => all.idxOf op

/-- The operator with a code. -/
def ofCode (code : Nat) : Operator :=
  all[code]?.getD (.unassigned code)

/-- The operator with a name; the invalid operator cannot be asked for. -/
def ofName? (name : String) : Option Operator :=
  (all.drop 1).find? (·.name == name)

/-! ## Families -/

/-- Whether the operator is in the table. -/
def isAssigned : Operator → Bool
  | .unassigned _ => false
  | _ => true

/-- Whether the operator takes part in the control chain. -/
def isControl : Operator → Bool
  | .start | .exit | .branch | .ifTrue | .ifFalse | .merge | .ret => true
  | _ => false

/-- Whether the operator starts a basic block. -/
def isHead : Operator → Bool
  | .start | .ifTrue | .ifFalse | .merge => true
  | _ => false

/-- Whether the operator joins values or effects at a merge. -/
def isPhi : Operator → Bool
  | .phi | .effectPhi => true
  | _ => false

/-- Whether the operator is a constant. -/
def isConstant : Operator → Bool
  | .constant _ => true
  | _ => false

/-- Whether the operator is a representation change. -/
def isChange : Operator → Bool
  | .change _ => true
  | _ => false

/-- Whether the operator shifts or rotates a 32 bit word. -/
def isShift32 : Operator → Bool
  | .word32 .shl | .word32 .shr | .word32 .sar | .word32 .ror => true
  | _ => false

/-- Whether the operator reports an overflow beside its value. -/
def hasOverflow : Operator → Bool
  | .int32 .addWithOverflow | .int32 .subWithOverflow => true
  | _ => false

/-! ## Properties -/

/-- The inputs an operator takes; none for a code outside the table. -/
def arity? : Operator → Option Arity
  | .invalid | .dead | .start => some {}
  | .exit | .merge => some { control := none }
  | .parameter | .ifTrue | .ifFalse | .controlEffect => some { control := some 1 }
  | .constant _ => some {}
  | .branch => some { value := some 1, control := some 1 }
  | .phi => some { value := none, control := some 1 }
  | .effectPhi => some { effect := none, control := some 1 }
  | .ret => some { value := some 1, effect := some 1, control := some 1 }
  | .projection | .valueEffect => some { value := some 1 }
  | .finish => some { value := some 1, effect := some 1 }
  | .call => some { value := none, effect := some 1, control := some 1 }
  | .change _ => some { value := some 1, effect := none, control := none }
  | .stringAdd => some { value := some 2, effect := none, control := none }
  | .load => some { value := some 2, effect := some 1, control := none }
  | .store => some { value := some 3, effect := some 1, control := none }
  | .word32 _ | .word64 _ | .int32 _ | .float64 _ => some { value := some 2 }
  | .convert _ => some { value := some 1 }
  | .unassigned _ => none

/-- Whether the value inputs may be exchanged. -/
def isCommutative : Operator → Bool
  | .word32 op => op = .and || op = .or || op = .xor || op = .equal
  | .word64 op => op = .and || op = .or || op = .xor || op = .equal
  | .int32 op => op = .add || op = .addWithOverflow || op = .mul
  | .float64 op => op = .add || op = .mul || op = .equal
  | _ => false

/-- Whether a node has nothing but its value, so that it may be dropped when nothing uses it. -/
def isPure : Operator → Bool
  | .parameter | .constant _ | .phi | .projection | .word32 _ | .word64 _ | .int32 _
  | .convert _ | .float64 _ => true
  | _ => false

end Operator
end ArmBackend
