import Bleach.IntegerTemplates
import Bleach.Pipeline
import Bleach.SectionMemory

/-! The integer part of `rv.yaml` as a configuration of the lifter, and decoded code made of
these instructions. -/
namespace Rv64
open Bleach Mctomir
open ByteMemory (Memory)

/-- Host memory. -/
abbrev World := Memory Word

def RegOp.name : RegOp → String
  | ADD => "ADD" | SUB => "SUB" | SLL => "SLL" | SLT => "SLT" | SLTU => "SLTU" | XOR => "XOR"
  | SRL => "SRL" | SRA => "SRA" | OR => "OR" | AND => "AND"
  | ADDW => "ADDW" | SUBW => "SUBW" | SLLW => "SLLW" | SRLW => "SRLW" | SRAW => "SRAW"
  | MUL => "MUL" | MULH => "MULH" | MULHSU => "MULHSU" | MULHU => "MULHU" | MULW => "MULW"
  | DIV => "DIV" | DIVU => "DIVU" | REM => "REM" | REMU => "REMU"
  | DIVW => "DIVW" | DIVUW => "DIVUW" | REMW => "REMW" | REMUW => "REMUW"

def ImmOp.name : ImmOp → String
  | ADDI => "ADDI" | SLTIU => "SLTIU" | XORI => "XORI" | ORI => "ORI" | ANDI => "ANDI"
  | SLLI => "SLLI" | SRLI => "SRLI" | SRAI => "SRAI"
  | ADDIW => "ADDIW" | SLLIW => "SLLIW" | SRLIW => "SRLIW" | SRAIW => "SRAIW"

def BranchOp.name : BranchOp → String
  | BEQ => "BEQ" | BNE => "BNE" | BLT => "BLT" | BGE => "BGE" | BLTU => "BLTU" | BGEU => "BGEU"

def LoadOp.name : LoadOp → String
  | LD => "LD" | LW => "LW"

def StoreOp.name : StoreOp → String
  | SD => "SD" | SW => "SW"

def RegOp.all : List RegOp :=
  [.ADD, .SUB, .SLL, .SLT, .SLTU, .XOR, .SRL, .SRA, .OR, .AND, .ADDW, .SUBW, .SLLW, .SRLW, .SRAW,
    .MUL, .MULH, .MULHSU, .MULHU, .MULW, .DIV, .DIVU, .REM, .REMU, .DIVW, .DIVUW, .REMW, .REMUW]

def ImmOp.all : List ImmOp :=
  [.ADDI, .SLTIU, .XORI, .ORI, .ANDI, .SLLI, .SRLI, .SRAI, .ADDIW, .SLLIW, .SRLIW, .SRAIW]

def BranchOp.all : List BranchOp := [.BEQ, .BNE, .BLT, .BGE, .BLTU, .BGEU]

def LoadOp.all : List LoadOp := [.LD, .LW]

def StoreOp.all : List StoreOp := [.SD, .SW]

/-- The opcodes of LLVM the instructions have. -/
inductive Mnemonic where
  | reg (op : RegOp)
  | imm (op : ImmOp)
  | LUI
  | load (op : LoadOp)
  | store (op : StoreOp)
  | branch (op : BranchOp)
  | C_J
  | JALR
  deriving DecidableEq

def Mnemonic.desc : Mnemonic → InstrDesc
  | reg op => { name := op.name, numDefs := 1 }
  | imm op => { name := op.name, numDefs := 1 }
  | LUI => { name := "LUI", numDefs := 1 }
  | load op => { name := op.name, numDefs := 1, mayLoad := true }
  | store op => { name := op.name, numDefs := 0, mayStore := true }
  | branch op => { name := op.name, numDefs := 0, isBranch := true }
  | C_J => { name := "C_J", numDefs := 0, isBranch := true, isBarrier := true }
  | JALR => RiscV.JALR

section
variable (table : List BleachSection)

/-- An instruction function of two registers or a register and an immediate. -/
def binary {ret : Nat} (template : Word → Word → Option (BitVec ret)) : InstrFunction World where
  params := [64, 64]
  ret := ret
  eval
    | [a, b], world => (template (a.bits.setWidth 64) (b.bits.setWidth 64)).map (·, world)
    | _, _ => none

def upper : InstrFunction World where
  params := [64]
  ret := 64
  eval
    | [a], world => (Templates.LUI (a.bits.setWidth 64)).map (·, world)
    | _, _ => none

def LoadOp.template : LoadOp → Templates.LoadTemplate
  | LD => .LD
  | LW => .LW

def StoreOp.template : StoreOp → Templates.StoreTemplate
  | SD => .SD
  | SW => .SW

def LoadOp.function (op : LoadOp) : InstrFunction World where
  params := [64, 64]
  ret := 64
  eval
    | [rs1, offset], world =>
      match op.template.run table .rv64 world (rs1.bits.setWidth 64) (offset.bits.setWidth 64) with
      | .ok (.int 64 val, state) => some (val, state.mem)
      | _ => none
    | _, _ => none

def StoreOp.function (op : StoreOp) : InstrFunction World where
  params := [64, 64, 64]
  ret := 0
  eval
    | [val, rs1, offset], world =>
      match op.template.run table .rv64 world (val.bits.setWidth 64) (rs1.bits.setWidth 64)
        (offset.bits.setWidth 64) with
      | .ok ((), state) => some (0, state.mem)
      | _ => none
    | _, _ => none

/-- The entry of an opcode; `C_J` has none. -/
def Mnemonic.entry : Mnemonic → Option (Instruction World)
  | reg op => some { name := op.name, irModule := some (binary op.template) }
  | imm op => some { name := op.name, irModule := some (binary op.template) }
  | LUI => some { name := "LUI", irModule := some upper }
  | load op => some { name := op.name, irModule := some (op.function table) }
  | store op => some { name := op.name, irModule := some (op.function table) }
  | branch op => some { name := op.name, irModule := some (binary op.template) }
  | C_J => none
  | JALR => some { name := "JALR", retinfo := some ["X0", "X1", "0"], isIndirectBranch := true }

def Mnemonic.all : List Mnemonic :=
  RegOp.all.map reg ++ ImmOp.all.map imm ++ [LUI] ++ LoadOp.all.map load ++ StoreOp.all.map store ++
    BranchOp.all.map branch ++ [JALR]

def integerInstrs : List (Instruction World) := Mnemonic.all.filterMap (Mnemonic.entry table)

def registerNames : List String :=
  ["X0", "X1", "X2", "X3", "X4", "X5", "X6", "X7", "X8", "X9", "X10", "X11", "X12", "X13", "X14",
    "X15", "X16", "X17", "X18", "X19", "X20", "X21", "X22", "X23", "X24", "X25", "X26", "X27",
    "X28", "X29", "X30", "X31"]

def getName (r : Register) : String := registerNames.getD r "NoRegister"

def target : TargetMachine where
  regclasses := [List.range 32]
  getName := getName
  getRegAsmName := getName
  printOperand := RiscV.printOperand
  printInstr := fun minst => minst.desc.name
  matchesWhole := (· == ·)

/-- The class `GPR`. -/
def gpr : RegisterClass where
  name := "GPR"
  bitsize := 64
  regs := ⟨(List.range 32).map (·, []), by decide⟩

/-- The configuration with the rest of its instructions and register classes. -/
def context (others : List (Instruction World)) (classes : List RegisterClass) : Context World where
  instrs := ⟨integerInstrs table ++ others, "X2", [⟨"X0", 0⟩]⟩
  tm := target
  stats := gpr :: classes

end

variable {table : List BleachSection} {others : List (Instruction World)} {classes : List RegisterClass}

theorem find_eq (noJump : ∀ i ∈ others, i.name ≠ "C_J") (m : Mnemonic) :
    (context table others classes).instrs.find m.desc.name = m.entry table := by
  cases m with
  | reg op => cases op <;> rfl
  | imm op => cases op <;> rfl
  | LUI => rfl
  | load op => cases op <;> rfl
  | store op => cases op <;> rfl
  | branch op => cases op <;> rfl
  | C_J =>
    have none : others.find? (fun i => i.name = "C_J") = none := by simpa using noJump
    exact none
  | JALR => rfl

theorem getFunction_reg (op : RegOp) :
    (context table others classes).instrs.getFunction op.name = some (binary op.template) := by
  cases op <;> rfl

theorem getFunction_imm (op : ImmOp) :
    (context table others classes).instrs.getFunction op.name = some (binary op.template) := by
  cases op <;> rfl

theorem getFunction_branch (op : BranchOp) :
    (context table others classes).instrs.getFunction op.name = some (binary op.template) := by
  cases op <;> rfl

theorem getFunction_load (op : LoadOp) :
    (context table others classes).instrs.getFunction op.name = some (op.function table) := by
  cases op <;> rfl

theorem getFunction_store (op : StoreOp) :
    (context table others classes).instrs.getFunction op.name = some (op.function table) := by
  cases op <;> rfl

namespace Instr

def mnemonic : Instr → Mnemonic
  | arith op .. => .reg op
  | arithImm op .. => .imm op
  | lui .. => .LUI
  | load op .. => .load op
  | store op .. => .store op
  | branch op .. => .branch op
  | jump _ => .C_J
  | ret => .JALR

def operands : Instr → List MCOperand
  | arith _ rd rs1 rs2 => [.reg rd, .reg rs1, .reg rs2]
  | arithImm _ rd rs1 imm => [.reg rd, .reg rs1, .imm imm]
  | lui rd imm => [.reg rd, .imm imm]
  | load _ rd rs1 imm => [.reg rd, .reg rs1, .imm imm]
  | store _ rs2 rs1 imm => [.reg rs2, .reg rs1, .imm imm]
  | branch _ rs1 rs2 disp => [.reg rs1, .reg rs2, .imm disp]
  | jump disp => [.imm disp]
  | ret => [.reg 0, .reg 1, .imm 0]

/-- The instruction as it is disassembled. -/
def toMCInst (code : Mnemonic → Nat) (i : Instr) : MCInst := ⟨code i.mnemonic, i.operands⟩

def disp? : Instr → Option Int
  | branch _ _ _ disp | jump disp => some disp
  | _ => none

/-- The registers an instruction computes with. -/
def reads : Instr → List Reg
  | arith _ _ rs1 rs2 | branch _ rs1 rs2 _ => [rs1, rs2]
  | arithImm _ _ rs1 _ | load _ _ rs1 _ => [rs1]
  | store _ rs2 rs1 _ => [rs2, rs1]
  | _ => []

def isJump : Instr → Bool
  | jump _ => true
  | _ => false

/-- Nothing is executed behind it. -/
def isLast : Instr → Bool
  | jump _ | ret => true
  | _ => false

end Instr

/-- The displacement of a branch. -/
def displacement (inst : MCInst) : Address := .ofInt 64 ((lastImm inst).getD 0)

/-- What the target says of the instructions. -/
structure Describes (mia : MCInstrAnalysis) (opcodes : Nat → InstrDesc) (code : Mnemonic → Nat) : Prop where
  desc : ∀ m, opcodes (code m) = m.desc
  numDefs : ∀ m, (mia.get (code m)).numDefs = m.desc.numDefs
  isBranch : ∀ i : Instr, mia.isBranch (i.toMCInst code) = i.disp?.isSome
  isUnconditionalBranch : ∀ i : Instr, mia.isUnconditionalBranch (i.toMCInst code) = i.isJump
  isCall : ∀ i : Instr, mia.isCall (i.toMCInst code) = false
  isReturn : ∀ i : Instr, mia.isReturn (i.toMCInst code) = decide (i = .ret)
  evaluateBranch : ∀ (i : Instr) (addr : Address) (size : BitVec 64),
    mia.evaluateBranch (i.toMCInst code) addr size = i.disp?.map fun disp => addr + .ofInt 64 disp

/-- A function of these instructions that does not read its stack pointer, stays inside, and
ends with a jump or a return. -/
structure IntegerCode (code : Mnemonic → Nat) (insts : List TranslatedInst) : Prop where
  nonempty : insts ≠ []
  instr : ∀ t ∈ insts, ∃ i : Instr, t.inst = i.toMCInst code ∧ i.Valid ∧ 2 ∉ i.reads ∧
    ∀ disp ∈ i.disp?, insts.head?.map TranslatedInst.address ≠ some (t.address + .ofInt 64 disp)
  ends : ∀ last ∈ insts.getLast?, ∀ i : Instr, last.inst = i.toMCInst code → i.isLast = true

/-- The instructions of the function are fetched as they are disassembled. -/
def Decodes (code : Mnemonic → Nat) (fetch : Fetch) (fetch' : Mctomir.Fetch) (insts : List TranslatedInst) :
    Prop :=
  ∀ t ∈ insts, ∀ i : Instr, t.inst = i.toMCInst code → ∀ next,
    fetch' t.address = some (t.inst, next) → fetch t.address = some (i, next)

section
variable {mia : MCInstrAnalysis} {opcodes : Nat → InstrDesc} {code : Mnemonic → Nat}

theorem disjoint_head (disjoint : (context table others classes).stats.Disjoint) (r : Reg) :
    (context table others classes).rmap.find r = some ⟨0, r⟩ := by
  have listed : (r : Nat) ∈ gpr.regs.keys := by
    simp [OrderedMap.keys, gpr]
  have found : (gpr :: classes)[0]? = some gpr := rfl
  exact find_key disjoint found listed

theorem word (disjoint : (context table others classes).stats.Disjoint) (r : Reg) :
    Bleach.Word (context table others classes) r := ⟨_, disjoint_head disjoint r, rfl⟩

theorem constReg?_of_ne {r : Register} (other : r ≠ 0) :
    (context table others classes).instrs.constReg? target r = none := by
  have inside : ∀ r : Fin 32, getName r = "X0" → r = 0 := by decide
  have named : getName r ≠ "X0" := by
    by_cases small : r < 32
    · exact fun same => other (congrArg Fin.val (inside ⟨r, small⟩ same))
    · rw [getName, List.getD_eq_getElem?_getD, List.getElem?_eq_none (Nat.not_lt.mp small)]
      decide
  simp [InstrImpl.constReg?, context, target, Ne.symm named]

theorem machineInstr_toMCInst (describes : Describes mia opcodes code) (i : Instr) :
    machineInstr mia opcodes (i.toMCInst code) =
      ⟨i.mnemonic.desc, decodedOperands i.mnemonic.desc.numDefs 0 i.operands⟩ := by
  simp only [machineInstr, Instr.toMCInst, describes.desc, describes.numDefs]

/-- An instruction that is neither a transfer nor uses the stack pointer. -/
theorem codeInstr_generic (describes : Describes mia opcodes code) (noJump : ∀ i ∈ others, i.name ≠ "C_J")
    {first : Option Address} {addr : Address} {i : Instr} {desc : InstrDesc} {f : InstrFunction World}
    (defs uses : List MCOperand) (mnemonic : i.mnemonic.desc = desc) (numDefs : desc.numDefs = defs.length)
    (plain : desc.isReturn = false ∧ desc.isCall = false ∧ desc.isBranch = false ∧
      desc.isIndirectBranch = false ∧ desc.miaIsCall = false)
    (operands : i.operands = defs ++ uses)
    (entry : i.mnemonic.entry table = some { name := desc.name, irModule := some f })
    (function : (context table others classes).instrs.getFunction desc.name = some f)
    (params : f.params = List.replicate uses.length 64)
    (output : ∀ op ∈ defs, f.ret = 64 ∧ ∃ r, op = .reg r ∧ Bleach.Word (context table others classes) r)
    (inside : ∀ op ∈ uses, WordOperand (context table others classes) op.toUse)
    (stackless : .reg 2 ∉ uses) (straight : i.disp? = none) (falls : i ≠ .ret) :
    CodeInstr (context table others classes) mia opcodes displacement 2 first ⟨addr, i.toMCInst code⟩ := by
  obtain ⟨noReturn, noCall, noBranch, direct, noCall'⟩ := plain
  have shape : machineInstr mia opcodes (i.toMCInst code) =
      ⟨desc, decodedOperands desc.numDefs 0 (defs ++ uses)⟩ := by
    rw [machineInstr_toMCInst describes, mnemonic, operands]
  have shapeUses : (machineInstr mia opcodes (i.toMCInst code)).uses = uses.map MCOperand.toUse := by
    rw [shape, MachineInstr.uses, decodedOperands_drop, numDefs, List.drop_left,
      decodedOperands_uses (Nat.le_add_left _ _)]
  have shapeDefs : (machineInstr mia opcodes (i.toMCInst code)).defs = decodedOperands desc.numDefs 0 defs := by
    rw [shape, MachineInstr.defs, decodedOperands_take, numDefs, List.take_left]
  have found : (context table others classes).instrs.find desc.name =
      some { name := desc.name, irModule := some f } := by
    rw [← entry, ← find_eq noJump i.mnemonic, mnemonic]
  have opcode : opcodes (i.toMCInst code).opcode = desc := (describes.desc _).trans mnemonic
  have unread : usesStackPointer (machineInstr mia opcodes (i.toMCInst code)) {2} = false := by
    simp only [usesStackPointer, MachineInstr.usedRegs, shapeUses, List.any_eq_false, Finset.mem_singleton,
      decide_eq_true_eq]
    rintro r used rfl
    obtain ⟨op, member, register⟩ := List.mem_filterMap.mp used
    obtain ⟨op', member', rfl⟩ := List.mem_map.mp member
    cases op' with
    | reg r =>
      obtain rfl : r = 2 := Option.some.inj register
      exact stackless member'
    | imm v => cases register
    | other => cases register
  have returns :
      isReturn (context table others classes) (machineInstr mia opcodes (i.toMCInst code)) = false := by
    simp [isReturn, shape, found, matchReturn, noReturn]
  have defs' : (opcodes (i.toMCInst code).opcode).numDefs = (mia.get (i.toMCInst code).opcode).numDefs := by
    rw [opcode, Instr.toMCInst, describes.numDefs, mnemonic]
  refine .generic (f := f) ?_ ?_ returns ?_ unread defs' ?_ ?_ ?_ ?_ ?_ ?_
  · simp [describes.isBranch, straight]
  · simp [describes.isReturn, falls]
  · have nowhere := usesStackPointer_of_subset unread (Finset.empty_subset {2})
    rw [shape] at returns nowhere
    simp [dispatch, shape, returns, nowhere, isIndirectBranch, found, isBranch, Bleach.isCall,
      isStackManipulation, MachineInstr.isUnconditionalBranch, noCall, noBranch, direct, noCall']
  · rw [opcode, function]
  · rw [shapeUses]
    intro op member argument
    obtain ⟨op', member', rfl⟩ := List.mem_map.mp member
    exact inside op' member'
  · rw [machineInstr_inputs defs', params, MCInst.uses, Instr.toMCInst, describes.numDefs, mnemonic, operands,
      numDefs, List.drop_left, List.length_map]
  · rw [shapeDefs]
    intro op member
    obtain ⟨op', member', j, rfl⟩ := mem_decodedOperands member
    obtain ⟨ret, r, rfl, inside⟩ := output op' member'
    exact ⟨ret, r, _, _, rfl, inside⟩
  · simp [isPcRelative, shape, found]
  · rw [opcode, noBranch]

theorem not_reg_two {rs : List Reg} {uses : List MCOperand} (stackless : 2 ∉ rs)
    (same : uses.filterMap MCOperand.reg? = rs.map Fin.val) : .reg 2 ∉ uses := by
  intro member
  have listed : (2 : Nat) ∈ uses.filterMap MCOperand.reg? := List.mem_filterMap.mpr ⟨_, member, rfl⟩
  rw [same] at listed
  obtain ⟨r, inside, two⟩ := List.mem_map.mp listed
  obtain rfl : r = 2 := Fin.ext two
  exact stackless inside

/-- Every instruction that does not read the stack pointer can be lifted, a branch unless it goes to
the first instruction. -/
theorem codeInstr (describes : Describes mia opcodes code) (noJump : ∀ i ∈ others, i.name ≠ "C_J")
    (disjoint : (context table others classes).stats.Disjoint) {first : Option Address} {addr : Address}
    {i : Instr} (stackless : 2 ∉ i.reads)
    (behind : ∀ disp ∈ i.disp?, first ≠ some (addr + .ofInt 64 disp)) :
    CodeInstr (context table others classes) mia opcodes displacement 2 first ⟨addr, i.toMCInst code⟩ := by
  have register : ∀ r : Reg, WordOperand (context table others classes) (MCOperand.reg r).toUse :=
    fun r => .register (word disjoint r)
  have immediate : ∀ v, WordOperand (context table others classes) (MCOperand.imm v).toUse := fun v => .imm
  have output : ∀ rd : Reg, ∀ op ∈ [MCOperand.reg rd], 64 = 64 ∧
      ∃ r, op = .reg r ∧ Bleach.Word (context table others classes) r := by
    intro rd op member
    obtain rfl := List.mem_singleton.mp member
    exact ⟨rfl, rd, rfl, word disjoint rd⟩
  have find : ∀ m : Mnemonic, (context table others classes).instrs.find m.desc.name = m.entry table :=
    find_eq noJump
  cases i with
  | arith op rd a b =>
    exact codeInstr_generic describes noJump [.reg rd] [.reg a, .reg b] rfl rfl
      ⟨rfl, rfl, rfl, rfl, rfl⟩ rfl rfl (getFunction_reg op) rfl (output rd) (by simp [register])
      (not_reg_two stackless rfl) rfl (by simp)
  | arithImm op rd a v =>
    exact codeInstr_generic describes noJump [.reg rd] [.reg a, .imm v] rfl rfl
      ⟨rfl, rfl, rfl, rfl, rfl⟩ rfl rfl (getFunction_imm op) rfl (output rd) (by simp [register, immediate])
      (not_reg_two stackless rfl) rfl (by simp)
  | lui rd v =>
    exact codeInstr_generic describes noJump [.reg rd] [.imm v] rfl rfl
      ⟨rfl, rfl, rfl, rfl, rfl⟩ rfl rfl rfl rfl (output rd) (by simp [immediate])
      (not_reg_two stackless rfl) rfl (by simp)
  | load op rd a v =>
    exact codeInstr_generic describes noJump [.reg rd] [.reg a, .imm v] rfl rfl
      ⟨rfl, rfl, rfl, rfl, rfl⟩ rfl rfl (getFunction_load op) rfl (output rd) (by simp [register, immediate])
      (not_reg_two stackless rfl) rfl (by simp)
  | store op b a v =>
    exact codeInstr_generic describes noJump [] [.reg b, .reg a, .imm v] rfl rfl
      ⟨rfl, rfl, rfl, rfl, rfl⟩ rfl rfl (getFunction_store op) rfl (by simp) (by simp [register, immediate])
      (not_reg_two stackless rfl) rfl (by simp)
  | branch op a b disp =>
    have find := find (.branch op)
    have opcode : opcodes ((Instr.branch op a b disp).toMCInst code).opcode = (Mnemonic.branch op).desc :=
      describes.desc _
    have shape : ∀ j, branchInstr mia opcodes ((Instr.branch op a b disp).toMCInst code) j =
        ⟨(Mnemonic.branch op).desc, [.reg a false false, .reg b false false, .mbb j]⟩ := by
      intro j
      simp only [branchInstr, describes.desc, Instr.toMCInst, describes.numDefs]
      rfl
    refine .branch (f := binary op.template) ?_ ?_ rfl ?_ ?_ ?_ ?_ ?_ ?_ rfl rfl (register a) (register b) ?_
    · simp [describes.isBranch, Instr.disp?]
    · simp [describes.isUnconditionalBranch, Instr.isJump]
    · intro j
      rw [shape]
      rfl
    · intro j
      simp only [shape, isReturn, find]
      rfl
    · intro j
      simp only [shape, isIndirectBranch, find]
      rfl
    · rw [opcode]
      rfl
    · exact describes.numDefs _
    · rw [opcode]
      exact getFunction_branch op
    · exact behind disp rfl
  | jump disp =>
    have find := find .C_J
    have shape : ∀ j, branchInstr mia opcodes ((Instr.jump disp).toMCInst code) j =
        ⟨Mnemonic.C_J.desc, [.mbb j]⟩ := by
      intro j
      simp only [branchInstr, describes.desc, Instr.toMCInst]
      rfl
    refine .jump ?_ ?_ rfl ?_ ?_ ?_ ?_
    · simp [describes.isBranch, Instr.disp?]
    · simp [describes.isUnconditionalBranch, Instr.isJump]
    · intro j
      rw [shape]
      rfl
    · intro j
      simp only [shape, isReturn, find]
      rfl
    · intro j
      simp only [shape, isIndirectBranch, find]
      rfl
    · exact behind disp rfl
  | ret =>
    refine .ret ?_ ?_ ?_
    · simp [describes.isBranch, Instr.disp?]
    · simp [describes.isReturn]
    · rw [machineInstr_toMCInst describes]
      rfl

theorem constReg?_eq {r : Register} {k : ConstantReg}
    (found : (context table others classes).instrs.constReg? target r = some k) : r = 0 ∧ k = ⟨"X0", 0⟩ := by
  by_cases zero : r = 0
  · subst zero
    exact ⟨rfl, (Option.some.inj found).symm⟩
  · rw [constReg?_of_ne zero] at found
    cases found

theorem constRegs_found : ∀ k ∈ (context table others classes).instrs.constRegs,
    ∃ r, findRegisterByName (context table others classes).tm k.name = some r := by
  intro k member
  obtain rfl : k = ⟨"X0", 0⟩ := by simpa [context] using member
  exact ⟨0, rfl⟩

theorem constReg_named {r : Register} {k : ConstantReg}
    (found : (context table others classes).instrs.constReg? (context table others classes).tm r = some k) :
    findRegisterByName (context table others classes).tm k.name = some r := by
  obtain ⟨rfl, rfl⟩ := constReg?_eq found
  rfl

theorem last_ends (describes : Describes mia opcodes code) {i : Instr} (ends : i.isLast = true)
    (addr : Address) : fallsThrough mia ⟨addr, i.toMCInst code⟩ = false := by
  cases i with
  | jump disp =>
    simp [fallsThrough, describes.isBranch, describes.isUnconditionalBranch, Instr.isJump, Instr.disp?]
  | ret => simp [fallsThrough, describes.isBranch, describes.isReturn, Instr.disp?]
  | arith | arithImm | lui | load | store | branch => cases ends

theorem liftableCode (describes : Describes mia opcodes code) (noJump : ∀ i ∈ others, i.name ≠ "C_J")
    (disjoint : (context table others classes).stats.Disjoint) {insts : List TranslatedInst}
    (integer : IntegerCode code insts) :
    LiftableCode (context table others classes) mia opcodes displacement 2 insts := by
  refine ⟨rfl, integer.nonempty, ?_, ?_, ?_, constRegs_found, constReg_named⟩
  · rintro ⟨addr, _⟩ member
    obtain ⟨i, rfl, -⟩ := integer.instr _ member
    exact describes.isCall i
  · rintro ⟨addr, _⟩ member
    obtain ⟨i, rfl, -, stackless, behind⟩ := integer.instr _ member
    exact codeInstr describes noJump disjoint stackless behind
  · rintro ⟨addr, _⟩ last
    obtain ⟨i, rfl, -⟩ := integer.instr _ (List.mem_of_getLast? last)
    exact last_ends describes (integer.ends _ last i rfl) addr

end

end Rv64
