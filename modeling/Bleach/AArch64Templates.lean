import Bleach.FloatTemplates

/-! The AArch64 templates that compute with a shifted operand, compare and branch. The flags are
packed into the global `NZCV`, which is the state; failure is undefined behaviour. -/
namespace Bleach.Templates

/-- The contents of the global `@NZCV`. -/
abbrev NZCV := BitVec 64

abbrev FlagsM := StateT NZCV Option

/-- The second operand of the templates with `%sh`. -/
def shiftedOperand (i : BitVec 64) (sh : Bool) : BitVec 64 :=
  let shifted := i <<< 12
  let imm := if sh then shifted else i
  imm

/-- The templates that end with an operation on the shifted operand. -/
def shiftedOperation (operation : BitVec 64 → BitVec 64 → BitVec 64) (xn i : BitVec 64) (sh : Bool) :
    BitVec 64 :=
  let imm := shiftedOperand i sh
  let res := operation xn imm
  res

def SUBXri : BitVec 64 → BitVec 64 → Bool → BitVec 64 := shiftedOperation (· - ·)

def SUBXrs : BitVec 64 → BitVec 64 → Bool → BitVec 64 := shiftedOperation (· - ·)

def ADDXri : BitVec 64 → BitVec 64 → Bool → BitVec 64 := shiftedOperation (· + ·)

/-- `llvm.sadd.with.overflow`. -/
def saddWithOverflow {w : Nat} (a b : BitVec w) : BitVec w × Bool := (a + b, a.saddOverflow b)

/-- The templates that set the flags. -/
def comparison (xn i : BitVec 64) (sh : Bool) : FlagsM (BitVec 64) := do
  let imm := shiftedOperand i sh
  let res := saddWithOverflow xn imm
  let val := res.1
  let v := res.2
  let n := val.slt 0
  let z := val == 0
  let vZext := zextBit v
  let nZext := zextBit n
  let zZext := zextBit z
  let vBit := vZext <<< 28
  let cBit := 0#64 <<< 29
  let zBit := zZext <<< 30
  let nBit := nZext <<< 31
  let valNz := nBit ||| zBit
  let valNzc := valNz ||| cBit
  let valNzcv := valNzc ||| vBit
  set valNzcv
  return val

def SUBSXri : BitVec 64 → BitVec 64 → Bool → FlagsM (BitVec 64) := comparison

def SUBSXrs : BitVec 64 → BitVec 64 → Bool → FlagsM (BitVec 64) := comparison

def CBNZX (reg : BitVec 64) : Bool :=
  let c := reg == 0
  c

def Bcc (_tgt cond : BitVec 32) : FlagsM Bool := do
  let val ← get
  let n := val >>> 31
  let zBits := val >>> 30
  let z := zBits &&& 1
  let cBits := val >>> 29
  let c := cBits &&& 1
  let vBits := val >>> 28
  let _v := vBits &&& 1
  match cond.toNat with
  | 0 => return z == 1
  | 1 => return z == 0
  | 2 => return c == 1
  | 3 => return c == 1
  | 4 => return n == 1
  | 5 => return n == 0
  -- the label `error`
  | _ => failure

end Bleach.Templates
