import Bleach.Base.ByteMemory
import Bleach.Division

/-! The integer instructions of RV64, multiplication and division included, and its accesses to
words and doublewords, as the architecture specifies them, and a machine that executes them. -/
namespace Rv64
open Bleach.Templates (mQuotient mRemainder Divides)
open ByteMemory (Memory)

abbrev Word := BitVec 64

abbrev Reg := Fin 32

instance reg_nonempty : NeZero 32 := ⟨by decide⟩

/-- Instructions on two registers. -/
inductive RegOp where
  | ADD | SUB | SLL | SLT | SLTU | XOR | SRL | SRA | OR | AND
  | ADDW | SUBW | SLLW | SRLW | SRAW
  | MUL | MULH | MULHSU | MULHU | MULW
  | DIV | DIVU | REM | REMU | DIVW | DIVUW | REMW | REMUW
  deriving DecidableEq

/-- Instructions on a register and an immediate. -/
inductive ImmOp where
  | ADDI | SLTIU | XORI | ORI | ANDI | SLLI | SRLI | SRAI
  | ADDIW | SLLIW | SRLIW | SRAIW
  deriving DecidableEq

inductive BranchOp where
  | BEQ | BNE | BLT | BGE | BLTU | BGEU
  deriving DecidableEq

inductive LoadOp where
  | LD | LW
  deriving DecidableEq

inductive StoreOp where
  | SD | SW
  deriving DecidableEq

/-- The result of an operation on the low halves. -/
def onWords (operation : BitVec 32 → BitVec 32 → BitVec 32) (a b : Word) : Word :=
  (operation (a.setWidth 32) (b.setWidth 32)).signExtend 64

namespace RegOp

def value : RegOp → Word → Word → Word
  | ADD, a, b => a + b
  | SUB, a, b => a - b
  | SLL, a, b => a <<< (b.toNat % 64)
  | SLT, a, b => if a.toInt < b.toInt then 1 else 0
  | SLTU, a, b => if a.toNat < b.toNat then 1 else 0
  | XOR, a, b => a ^^^ b
  | SRL, a, b => a >>> (b.toNat % 64)
  | SRA, a, b => a.sshiftRight (b.toNat % 64)
  | OR, a, b => a ||| b
  | AND, a, b => a &&& b
  | ADDW, a, b => onWords (· + ·) a b
  | SUBW, a, b => onWords (· - ·) a b
  | SLLW, a, b => onWords (fun a b => a <<< (b.toNat % 32)) a b
  | SRLW, a, b => onWords (fun a b => a >>> (b.toNat % 32)) a b
  | SRAW, a, b => onWords (fun a b => a.sshiftRight (b.toNat % 32)) a b
  | MUL, a, b => .ofInt 64 (a.toInt * b.toInt)
  | MULH, a, b => .ofInt 64 (a.toInt * b.toInt / 2 ^ 64)
  | MULHSU, a, b => .ofInt 64 (a.toInt * b.toNat / 2 ^ 64)
  | MULHU, a, b => .ofNat 64 (a.toNat * b.toNat / 2 ^ 64)
  | MULW, a, b => onWords (fun a b => .ofInt 32 (a.toInt * b.toInt)) a b
  | DIV, a, b => mQuotient true a b
  | DIVU, a, b => mQuotient false a b
  | REM, a, b => mRemainder true a b
  | REMU, a, b => mRemainder false a b
  | DIVW, a, b => onWords (mQuotient true) a b
  | DIVUW, a, b => onWords (mQuotient false) a b
  | REMW, a, b => onWords (mRemainder true) a b
  | REMUW, a, b => onWords (mRemainder false) a b

/-- The divisor is not zero and a signed quotient fits; everything else is always so. -/
def Divisible : RegOp → Word → Word → Prop
  | DIV, a, b | REM, a, b => Divides true a b
  | DIVU, a, b | REMU, a, b => Divides false a b
  | DIVW, a, b | REMW, a, b => Divides true (a.setWidth 32) (b.setWidth 32)
  | DIVUW, a, b | REMUW, a, b => Divides false (a.setWidth 32) (b.setWidth 32)
  | _, _, _ => True

instance (op : RegOp) (a b : Word) : Decidable (op.Divisible a b) :=
  match op with
  | DIV | REM => inferInstanceAs (Decidable (Divides true a b))
  | DIVU | REMU => inferInstanceAs (Decidable (Divides false a b))
  | DIVW | REMW => inferInstanceAs (Decidable (Divides true (a.setWidth 32) (b.setWidth 32)))
  | DIVUW | REMUW => inferInstanceAs (Decidable (Divides false (a.setWidth 32) (b.setWidth 32)))
  | ADD | SUB | SLL | SLT | SLTU | XOR | SRL | SRA | OR | AND | ADDW | SUBW | SLLW | SRLW | SRAW | MUL
  | MULH | MULHSU | MULHU | MULW => instDecidableTrue

end RegOp

namespace ImmOp

/-- The immediates of an instruction: signed ones of twelve bits, or shift amounts. -/
def Immediate : ImmOp → Int → Prop
  | SLLI, v | SRLI, v | SRAI, v => 0 ≤ v ∧ v < 64
  | SLLIW, v | SRLIW, v | SRAIW, v => 0 ≤ v ∧ v < 32
  | _, v => -2048 ≤ v ∧ v < 2048

instance (op : ImmOp) (v : Int) : Decidable (op.Immediate v) :=
  match op with
  | SLLI | SRLI | SRAI => inferInstanceAs (Decidable (0 ≤ v ∧ v < 64))
  | SLLIW | SRLIW | SRAIW => inferInstanceAs (Decidable (0 ≤ v ∧ v < 32))
  | ADDI | SLTIU | XORI | ORI | ANDI | ADDIW => inferInstanceAs (Decidable (-2048 ≤ v ∧ v < 2048))

def value (op : ImmOp) (a : Word) (v : Int) : Word :=
  match op with
  | ADDI => a + .ofInt 64 v
  | SLTIU => if a.toNat < (BitVec.ofInt 64 v).toNat then 1 else 0
  | XORI => a ^^^ .ofInt 64 v
  | ORI => a ||| .ofInt 64 v
  | ANDI => a &&& .ofInt 64 v
  | SLLI => a <<< v.toNat
  | SRLI => a >>> v.toNat
  | SRAI => a.sshiftRight v.toNat
  | ADDIW => (a.setWidth 32 + .ofInt 32 v).signExtend 64
  | SLLIW => (a.setWidth 32 <<< v.toNat).signExtend 64
  | SRLIW => (a.setWidth 32 >>> v.toNat).signExtend 64
  | SRAIW => ((a.setWidth 32).sshiftRight v.toNat).signExtend 64

end ImmOp

def BranchOp.taken : BranchOp → Word → Word → Bool
  | BEQ, a, b => a == b
  | BNE, a, b => a != b
  | BLT, a, b => a.toInt < b.toInt
  | BGE, a, b => b.toInt ≤ a.toInt
  | BLTU, a, b => a.toNat < b.toNat
  | BGEU, a, b => b.toNat ≤ a.toNat

/-- The upper immediate, a field of twenty bits, with zeros behind it. -/
def upperValue (v : Int) : Word := (BitVec.ofInt 20 v ++ 0#12).signExtend 64

def LoadOp.size : LoadOp → Nat
  | LD => 8
  | LW => 4

def LoadOp.value (op : LoadOp) (mem : Memory Word) (addr : Word) : Word :=
  match op with
  | LD => ByteMemory.load mem addr 8
  | LW => (ByteMemory.load mem addr 4 : BitVec 32).signExtend 64

def StoreOp.size : StoreOp → Nat
  | SD => 8
  | SW => 4

def StoreOp.write (op : StoreOp) (mem : Memory Word) (addr v : Word) : Memory Word :=
  match op with
  | SD => ByteMemory.store mem addr v 8
  | SW => ByteMemory.store mem addr (v.setWidth 32) 4

/-- The registers; the first one is zero. -/
structure Registers where
  val : Reg → Word
  zero : val 0 = 0

namespace Registers

def set (x : Registers) (rd : Reg) (v : Word) : Registers where
  val := if rd = 0 then x.val else Function.update x.val rd v
  zero := by
    split
    · exact x.zero
    · next other => rw [Function.update_of_ne (Ne.symm other), x.zero]

theorem set_val (x : Registers) (rd r : Reg) (v : Word) :
    (x.set rd v).val r = if r = rd ∧ rd ≠ 0 then v else x.val r := by
  by_cases zero : rd = 0
  · simp [set, zero]
  · by_cases same : r = rd
    · subst same
      simp [set, zero]
    · simp [set, zero, same]

end Registers

inductive Instr where
  | arith (op : RegOp) (rd rs1 rs2 : Reg)
  | arithImm (op : ImmOp) (rd rs1 : Reg) (imm : Int)
  | lui (rd : Reg) (imm : Int)
  | load (op : LoadOp) (rd rs1 : Reg) (imm : Int)
  | store (op : StoreOp) (rs2 rs1 : Reg) (imm : Int)
  | branch (op : BranchOp) (rs1 rs2 : Reg) (disp : Int)
  | jump (disp : Int)
  /-- `jalr x0, 0(x1)`. -/
  | ret
  deriving DecidableEq

/-- The immediates are those of the encodings. Any offset is added as it is. -/
def Instr.Valid : Instr → Prop
  | .arithImm op _ _ imm => op.Immediate imm
  | .lui _ imm => 0 ≤ imm ∧ imm < 2 ^ 20
  | _ => True

instance (i : Instr) : Decidable i.Valid :=
  match i with
  | .arithImm op _ _ imm => inferInstanceAs (Decidable (op.Immediate imm))
  | .lui _ imm => inferInstanceAs (Decidable (0 ≤ imm ∧ imm < 2 ^ 20))
  | .arith .. | .load .. | .store .. | .branch .. | .jump _ | .ret => instDecidableTrue

/-- In front of an address, or behind a return to one. -/
inductive Place where
  | running (pc : Word)
  | returned (target : Word)
  deriving DecidableEq

structure State where
  place : Place
  x : Registers
  mem : Memory Word

/-- Execute the instruction at `pc`; `next` is the address behind it. -/
def Instr.exec (pc next : Word) (x : Registers) (mem : Memory Word) : Instr → State
  | .arith op rd rs1 rs2 => ⟨.running next, x.set rd (op.value (x.val rs1) (x.val rs2)), mem⟩
  | .arithImm op rd rs1 imm => ⟨.running next, x.set rd (op.value (x.val rs1) imm), mem⟩
  | .lui rd imm => ⟨.running next, x.set rd (upperValue imm), mem⟩
  | .load op rd rs1 imm => ⟨.running next, x.set rd (op.value mem (x.val rs1 + .ofInt 64 imm)), mem⟩
  | .store op rs2 rs1 imm => ⟨.running next, x, op.write mem (x.val rs1 + .ofInt 64 imm) (x.val rs2)⟩
  | .branch op rs1 rs2 disp =>
    ⟨.running (if op.taken (x.val rs1) (x.val rs2) then pc + .ofInt 64 disp else next), x, mem⟩
  | .jump disp => ⟨.running (pc + .ofInt 64 disp), x, mem⟩
  | .ret => ⟨.returned (x.val 1 &&& ~~~1), x, mem⟩

/-- The instruction at an address and the address behind it. -/
abbrev Fetch := Word → Option (Instr × Word)

def step (fetch : Fetch) (s : State) : Option State :=
  match s.place with
  | .running pc => (fetch pc).map fun (i, next) => i.exec pc next s.x s.mem
  | .returned _ => none

/-- Whether some bytes from an address on may be accessed. -/
abbrev Access := Word → Nat → Bool

/-- It does not divide by zero, and no quotient overflows. -/
def Instr.Divisible (x : Registers) : Instr → Prop
  | .arith op _ rs1 rs2 => op.Divisible (x.val rs1) (x.val rs2)
  | _ => True

instance (x : Registers) (i : Instr) : Decidable (i.Divisible x) :=
  match i with
  | .arith op _ rs1 rs2 => inferInstanceAs (Decidable (op.Divisible (x.val rs1) (x.val rs2)))
  | .arithImm .. | .lui .. | .load .. | .store .. | .branch .. | .jump _ | .ret => instDecidableTrue

def Instr.Accesses (access : Access) (x : Registers) : Instr → Prop
  | .load op _ rs1 imm => access (x.val rs1 + .ofInt 64 imm) op.size = true
  | .store op _ rs1 imm => access (x.val rs1 + .ofInt 64 imm) op.size = true
  | _ => True

instance (access : Access) (x : Registers) (i : Instr) : Decidable (i.Accesses access x) :=
  match i with
  | .load .. | .store .. => inferInstanceAs (Decidable (_ = true))
  | .arith .. | .arithImm .. | .lui .. | .branch .. | .jump _ | .ret => instDecidableTrue

/-- The instruction the machine is in front of divides as it may. -/
def Defined (fetch : Fetch) (s : State) : Prop :=
  match s.place with
  | .running pc => ∀ i ∈ (fetch pc).map Prod.fst, i.Divisible s.x
  | .returned _ => True

instance (fetch : Fetch) : DecidablePred (Defined fetch)
  | ⟨.running pc, x, _⟩ => inferInstanceAs (Decidable (∀ i ∈ (fetch pc).map Prod.fst, i.Divisible x))
  | ⟨.returned _, _, _⟩ => instDecidableTrue

/-- The instruction the machine is in front of accesses what it may. -/
def Confined (access : Access) (fetch : Fetch) (s : State) : Prop :=
  match s.place with
  | .running pc => ∀ i ∈ (fetch pc).map Prod.fst, i.Accesses access s.x
  | .returned _ => True

instance (access : Access) (fetch : Fetch) : DecidablePred (Confined access fetch)
  | ⟨.running pc, x, _⟩ =>
    inferInstanceAs (Decidable (∀ i ∈ (fetch pc).map Prod.fst, i.Accesses access x))
  | ⟨.returned _, _, _⟩ => instDecidableTrue

end Rv64
