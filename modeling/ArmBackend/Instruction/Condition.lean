import ArmBackend.Numeral

/-!
# Conditions and flags

A condition is decided by the flags an instruction leaves. Conditions stand in pairs of opposites;
when the operands of a comparison change places, the condition changes to its mirror image.
-/

namespace ArmBackend

/-- When a branch is taken or a flag result is one. -/
inductive Cond
  | eq
  | ne
  | lt
  | ge
  | le
  | gt
  | lo
  | hs
  | ls
  | hi
  | ueq
  | une
  | ult
  | uge
  | ule
  | ugt
  | vs
  | vc
  | unassigned (code : Int)
  deriving DecidableEq, Repr

namespace Cond

/-- Every assigned condition, in the order of the codes. -/
def all : List Cond :=
  [.eq, .ne, .lt, .ge, .le, .gt, .lo, .hs, .ls, .hi, .ueq, .une, .ult, .uge, .ule, .ugt, .vs, .vc]

/-- The code of a condition. -/
def code : Cond → Int
  | .unassigned code => code
  | c => all.idxOf c

/-- The condition with a code. -/
def ofCode (code : Int) : Cond :=
  if code < 0 then .unassigned code else all[code.toNat]?.getD (.unassigned code)

/-- The mnemonic of a condition. -/
def name : Cond → String
  | .eq => "eq"
  | .ne => "ne"
  | .lt => "lt"
  | .ge => "ge"
  | .le => "le"
  | .gt => "gt"
  | .lo => "lo"
  | .hs => "hs"
  | .ls => "ls"
  | .hi => "hi"
  | .ueq => "ueq"
  | .une => "une"
  | .ult => "ult"
  | .uge => "uge"
  | .ule => "ule"
  | .ugt => "ugt"
  | .vs => "vs"
  | .vc => "vc"
  | .unassigned code => "cond(" ++ Numeral.decimal code ++ ")"

/-- The condition that holds exactly when `c` does not. -/
def negate : Cond → Cond
  | .eq => .ne
  | .ne => .eq
  | .lt => .ge
  | .ge => .lt
  | .le => .gt
  | .gt => .le
  | .lo => .hs
  | .hs => .lo
  | .ls => .hi
  | .hi => .ls
  | .ueq => .une
  | .une => .ueq
  | .ult => .uge
  | .uge => .ult
  | .ule => .ugt
  | .ugt => .ule
  | .vs => .vc
  | .vc => .vs
  | .unassigned code => .unassigned (if code % 2 = 0 then code + 1 else code - 1)

/-- The condition to ask for when the compared operands change places. -/
def commute : Cond → Cond
  | .lt => .gt
  | .gt => .lt
  | .le => .ge
  | .ge => .le
  | .lo => .hi
  | .hi => .lo
  | .ls => .hs
  | .hs => .ls
  | .ult => .ugt
  | .ugt => .ult
  | .ule => .uge
  | .uge => .ule
  | c => c

end Cond

/-- What becomes of the flags an instruction sets. -/
inductive FlagsMode
  | none
  | set
  | branch
  | unassigned (code : Int)
  deriving DecidableEq, Repr

namespace FlagsMode

/-- Every assigned use of flags, in the order of the codes. -/
def all : List FlagsMode :=
  [.none, .set, .branch]

/-- The code of a use of flags. -/
def code : FlagsMode → Int
  | .unassigned code => code
  | m => all.idxOf m

/-- The use of flags with a code. -/
def ofCode (code : Int) : FlagsMode :=
  if code < 0 then .unassigned code else all[code.toNat]?.getD (.unassigned code)

/-- The name of a use of flags. -/
def name : FlagsMode → String
  | .none => ""
  | .set => "set"
  | .branch => "branch"
  | .unassigned code => "flags(" ++ Numeral.decimal code ++ ")"

end FlagsMode
end ArmBackend
