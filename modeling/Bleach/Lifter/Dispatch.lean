import Bleach.Config
import Mathlib.Data.Finset.Insert

/-! The predicates `generate_instruction` dispatches on. An instruction can
satisfy several of them; the order of the tests decides. -/
namespace Bleach
variable {W : Type}

/-- What is fixed while a module is lifted. -/
structure Context (W : Type) where
  instrs : InstrImpl W
  tm : TargetMachine
  stats : RegisterStats
  functionsNop : Bool := false

/-- `stack_pointer_tracker`. -/
abbrev StackPointerTracker := Finset Register

def operandDump (tm : TargetMachine) : MachineOperand → String
  | .reg r _ _ => tm.getRegAsmName r
  | op => tm.printOperand op

/-- Operands beyond the pattern, and patterns beyond the operands, are ignored. -/
def matchReturn (tm : TargetMachine) (minst : MachineInstr) (instr : Instruction W) : Bool :=
  match instr.retinfo with
  | none => false
  | some rxs => (minst.operands.zip rxs).all fun (op, rx) => tm.matchesWhole rx (operandDump tm op)

def isReturn (cx : Context W) (minst : MachineInstr) : Bool :=
  minst.desc.isReturn ||
    match cx.instrs.find minst.desc.name with
    | some instr => matchReturn cx.tm minst instr
    | none => false

def isCall (minst : MachineInstr) : Bool :=
  minst.desc.isCall ||
    ((minst.desc.miaIsCall || minst.isUnconditionalBranch) &&
      minst.operands.any MachineOperand.isGlobal)

def isIndirectBranch (cx : Context W) (minst : MachineInstr) : Bool :=
  minst.desc.isIndirectBranch ||
    match cx.instrs.find minst.desc.name with
    | some instr => instr.isIndirectBranch
    | none => false

def isBranch (minst : MachineInstr) : Bool :=
  (minst.desc.isBranch && minst.operands.any MachineOperand.isMBB) ||
    (minst.desc.miaIsCall && minst.operands.any MachineOperand.isMBB)

def isPcRelative (cx : Context W) (minst : MachineInstr) : Bool :=
  match cx.instrs.find minst.desc.name with
  | some instr => instr.isPcRelative
  | none => false

/-- Some used register, implicit ones included, is tracked. -/
def usesStackPointer (minst : MachineInstr) (sptrack : StackPointerTracker) : Bool :=
  minst.usedRegs.any (· ∈ sptrack)

def isStackManipulation (minst : MachineInstr) (sptrack : StackPointerTracker) : Bool :=
  minst.mayLoadOrStore && usesStackPointer minst sptrack

/-- The first explicit definition is a register. -/
def definesRegister (minst : MachineInstr) : Bool :=
  match minst.defs with
  | .reg .. :: _ => true
  | _ => false

/-- The paths through `generate_instruction`. -/
inductive Path where
  | ret | indirect | jump | branch | call | stackAccess | stackPointerModification | generic
  deriving DecidableEq

/-- The path an instruction takes, in the order of the tests. -/
def dispatch (cx : Context W) (minst : MachineInstr) (sptrack : StackPointerTracker) : Path :=
  if isReturn cx minst then .ret
  else if isIndirectBranch cx minst then .indirect
  else if isBranch minst then
    if !minst.isConditionalBranch then .jump else .branch
  else if isCall minst then .call
  else if isStackManipulation minst sptrack then .stackAccess
  else if definesRegister minst && usesStackPointer minst sptrack then .stackPointerModification
  else .generic

/-- Control transfers are recognised without the tracker. -/
theorem dispatch_congr {cx : Context W} {minst : MachineInstr} {sptrack sptrack' : StackPointerTracker}
    {path : Path} (transfer : path ∈ [.ret, .indirect, .jump, .branch, .call])
    (here : dispatch cx minst sptrack = path) : dispatch cx minst sptrack' = path := by
  subst here
  unfold dispatch at transfer ⊢
  split_ifs at transfer ⊢ <;> simp_all

/-- A call that reaches `generate_call`, whatever the tracker holds. -/
def isDirectCall (cx : Context W) (minst : MachineInstr) : Bool :=
  isCall minst && !isReturn cx minst && !isIndirectBranch cx minst && !isBranch minst

theorem directCall_flags {cx : Context W} {minst : MachineInstr} (call : isDirectCall cx minst = true) :
    isCall minst = true ∧ isReturn cx minst = false ∧ isBranch minst = false := by
  simp only [isDirectCall, Bool.and_eq_true, Bool.not_eq_true'] at call
  exact ⟨call.1.1.1, call.1.1.2, call.2⟩

theorem dispatch_call {cx : Context W} {minst : MachineInstr} (call : isDirectCall cx minst = true)
    (sptrack : StackPointerTracker) : dispatch cx minst sptrack = .call := by
  simp only [isDirectCall, Bool.and_eq_true, Bool.not_eq_true'] at call
  simp [dispatch, call]

end Bleach
