import Bleach.MemoryTemplates
import Bleach.Base.IntegerOps

/-! The integer templates that touch no memory. The types of the IR are the types of Lean
here; `none` is undefined behaviour. -/
namespace Bleach.Templates
open IntegerOps

section
variable {xlen : Nat}

def DIV (v0 v1 : BitVec xlen) : Option (BitVec xlen) := do
  let v3 ← sdiv v0 v1
  return v3

def REM (v0 v1 : BitVec xlen) : Option (BitVec xlen) := do
  let v3 ← srem v0 v1
  return v3

end

def DIVU (v0 v1 : BitVec 64) : Option (BitVec 64) := do
  let v3 ← udiv v0 v1
  return v3

def REMU (v0 v1 : BitVec 64) : Option (BitVec 64) := do
  let v3 ← urem v0 v1
  return v3

/-- The shape of the templates on 32 bits: both operands are truncated, the result is
sign-extended. -/
def wordOperation (operation : BitVec 32 → BitVec 32 → Option (BitVec 32)) (v0 v1 : BitVec 64) :
    Option (BitVec 64) := do
  let v3 := v0.setWidth 32
  let v4 := v1.setWidth 32
  let v5 ← operation v3 v4
  let v6 := v5.signExtend 64
  return v6

theorem wordOperation_map (operation : BitVec 32 → BitVec 32 → Option (BitVec 32)) (v0 v1 : BitVec 64) :
    wordOperation operation v0 v1 =
      (operation (v0.setWidth 32) (v1.setWidth 32)).map (·.signExtend 64) := Option.map_eq_bind.symm

def DIVW : BitVec 64 → BitVec 64 → Option (BitVec 64) := wordOperation sdiv

def DIVUW : BitVec 64 → BitVec 64 → Option (BitVec 64) := wordOperation udiv

def REMW : BitVec 64 → BitVec 64 → Option (BitVec 64) := wordOperation srem

def REMUW : BitVec 64 → BitVec 64 → Option (BitVec 64) := wordOperation urem

/-- On `rv64`; with `rv32` the truncation is not of the type of its operand. -/
def LUI (v0 : BitVec 64) : Option (BitVec 64) := do
  let v2 ← truncNuw v0 20
  let v3 := v2.signExtend 64
  let v4 := v3 <<< 12
  return v4

def ADDI {xlen : Nat} (v0 v1 : BitVec xlen) : Option (BitVec xlen) := do
  let v3 := v0 + v1
  return v3

def ADDIW (v0 v1 : BitVec 64) : Option (BitVec 64) := do
  let v3 := v1.setWidth 32
  let v4 := v0.setWidth 32
  let v5 := v3 + v4
  let v6 := v5.signExtend 64
  return v6

def AUIPC (imm pc : BitVec 64) : Option (BitVec 64) := do
  let v3 := imm <<< 12
  let v4 := v3 + pc
  return v4

def ANDI (v0 v1 : BitVec 64) : Option (BitVec 64) := do
  let v3 := v1 &&& v0
  return v3

def ORI (v0 v1 : BitVec 64) : Option (BitVec 64) := do
  let v3 := v1 ||| v0
  return v3

def XORI (v0 v1 : BitVec 64) : Option (BitVec 64) := do
  let v3 := v1 ^^^ v0
  return v3

def SLTIU (v0 v1 : BitVec 64) : Option (BitVec 64) := do
  let v3 := v0.ult v1
  let v4 := (BitVec.ofBool v3).setWidth 64
  return v4

/-- The shape of the shifts: what is left of the amount is below the width. -/
def maskedShift (shift : BitVec 64 → BitVec 64 → Option (BitVec 64)) (v0 v1 : BitVec 64) :
    Option (BitVec 64) := do
  let v3 := v1 &&& 63
  let v4 ← shift v0 v3
  return v4

theorem maskedShift_eq (shift : BitVec 64 → BitVec 64 → Option (BitVec 64)) (v0 v1 : BitVec 64) :
    maskedShift shift v0 v1 = shift v0 (v1 &&& 63) := rfl

def SLLI : BitVec 64 → BitVec 64 → Option (BitVec 64) := maskedShift IntegerOps.shl

def SRLI : BitVec 64 → BitVec 64 → Option (BitVec 64) := maskedShift lshr

def SRAI : BitVec 64 → BitVec 64 → Option (BitVec 64) := maskedShift ashr

/-- The mask is that of the wide shifts. -/
def maskedWordShift (shift : BitVec 32 → BitVec 32 → Option (BitVec 32)) (v0 v1 : BitVec 64) :
    Option (BitVec 64) := do
  let v3 := v0.setWidth 32
  let v4 := v1.setWidth 32
  let v5 := v4 &&& 63
  let v6 ← shift v3 v5
  let v7 := v6.signExtend 64
  return v7

theorem maskedWordShift_map (shift : BitVec 32 → BitVec 32 → Option (BitVec 32)) (v0 v1 : BitVec 64) :
    maskedWordShift shift v0 v1 =
      (shift (v0.setWidth 32) (v1.setWidth 32 &&& 63)).map (·.signExtend 64) := Option.map_eq_bind.symm

def SLLIW : BitVec 64 → BitVec 64 → Option (BitVec 64) := maskedWordShift IntegerOps.shl

def SRLIW : BitVec 64 → BitVec 64 → Option (BitVec 64) := maskedWordShift lshr

def SRAIW : BitVec 64 → BitVec 64 → Option (BitVec 64) := wordOperation ashr

end Bleach.Templates
