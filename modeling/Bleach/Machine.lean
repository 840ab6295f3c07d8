import Mathlib.Data.BitVec
import Mathlib.Tactic.Common

/-! Machine functions as the lifter reads them: instructions are an opcode
description and an operand list, blocks are numbered by their layout position. -/
namespace Bleach

/-- Physical register number of the LLVM target. -/
abbrev Register := Nat

/-- Layout position of a machine basic block in its function. -/
abbrev BlockId := Nat

/-- Position of a function in the module. A function and its clone share it. -/
abbrev FuncId := Nat

inductive MachineOperand where
  | reg (reg : Register) (isDef isImplicit : Bool)
  | imm (val : Int)
  | mbb (mbb : BlockId)
  | global (func : FuncId)
  /-- Register masks, symbols and the like: the lifter can only print them. -/
  | other (text : String)
  deriving DecidableEq

namespace MachineOperand

def isImm : MachineOperand → Bool
  | .imm _ => true
  | _ => false

def isMBB : MachineOperand → Bool
  | .mbb _ => true
  | _ => false

def isGlobal : MachineOperand → Bool
  | .global _ => true
  | _ => false

/-- Explicit register or non-register operand: what an instruction function takes. -/
def isArgument : MachineOperand → Bool
  | .reg _ isDef isImplicit => !isDef && !isImplicit
  | _ => true

def reg? : MachineOperand → Option Register
  | .reg r _ _ => some r
  | _ => none

def imm? : MachineOperand → Option Int
  | .imm v => some v
  | _ => none

def mbb? : MachineOperand → Option BlockId
  | .mbb b => some b
  | _ => none

def global? : MachineOperand → Option FuncId
  | .global f => some f
  | _ => none

end MachineOperand

/-- The facts of an opcode the lifter asks the target for. `miaIsCall` is the
answer of `MCInstrAnalysis::isCall`, the others are `MCInstrDesc` flags. -/
structure InstrDesc where
  name : String
  numDefs : Nat
  isReturn : Bool := false
  isCall : Bool := false
  isBranch : Bool := false
  isBarrier : Bool := false
  isIndirectBranch : Bool := false
  mayLoad : Bool := false
  mayStore : Bool := false
  miaIsCall : Bool := false
  deriving DecidableEq

structure MachineInstr where
  desc : InstrDesc
  operands : List MachineOperand
  deriving DecidableEq

namespace MachineInstr

/-- `MachineInstr::defs`: the explicit definitions. -/
def defs (mi : MachineInstr) : List MachineOperand := mi.operands.take mi.desc.numDefs

/-- `MachineInstr::uses`: everything after the explicit definitions, implicit
operands of either kind included. -/
def uses (mi : MachineInstr) : List MachineOperand := mi.operands.drop mi.desc.numDefs

def isConditionalBranch (mi : MachineInstr) : Bool :=
  mi.desc.isBranch && !mi.desc.isBarrier && !mi.desc.isIndirectBranch

def isUnconditionalBranch (mi : MachineInstr) : Bool :=
  mi.desc.isBranch && mi.desc.isBarrier && !mi.desc.isIndirectBranch

def mayLoadOrStore (mi : MachineInstr) : Bool := mi.desc.mayLoad || mi.desc.mayStore

/-- The immediate the stack paths work with: the first one among the uses. -/
def immOperand (mi : MachineInstr) : Option Int := mi.uses.findSome? MachineOperand.imm?

def mbbOperand (mi : MachineInstr) : Option BlockId := mi.operands.findSome? MachineOperand.mbb?

def globalOperand (mi : MachineInstr) : Option FuncId :=
  mi.operands.findSome? MachineOperand.global?

/-- Registers among the uses, in operand order. -/
def usedRegs (mi : MachineInstr) : List Register := mi.uses.filterMap MachineOperand.reg?

theorem not_conditional_of_unconditional {mi : MachineInstr} (h : mi.isUnconditionalBranch = true) :
    mi.isConditionalBranch = false := by
  simp only [isUnconditionalBranch, Bool.and_eq_true] at h
  simp [isConditionalBranch, h.1.2]

end MachineInstr

abbrev MachineBasicBlock := List MachineInstr

structure MachineFunction where
  name : String
  blocks : List MachineBasicBlock
  deriving DecidableEq

/-- What the lifter takes from LLVM's target description. -/
structure TargetMachine where
  /-- Register classes in the order `MCRegisterInfo::regclasses` lists them. -/
  regclasses : List (List Register)
  getName : Register → String
  getRegAsmName : Register → String
  printOperand : MachineOperand → String
  printInstr : MachineInstr → String
  /-- `Regex::match` with one match that covers the whole string. -/
  matchesWhole : String → String → Bool

def findRegisterByName (tm : TargetMachine) (name : String) : Option Register :=
  tm.regclasses.findSome? (fun rclass => rclass.find? (fun reg => name = tm.getName reg))

/-- The exceptions and failed assertions of the lifter. -/
inductive LiftError where
  | runtimeError (what : String)
  | invalidArgument (what : String)
  | outOfRange
  | assertion
  deriving DecidableEq

end Bleach
