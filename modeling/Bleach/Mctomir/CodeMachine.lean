import Bleach.Mctomir.ControlFlow
import Bleach.Sublanguage

/-! The decoded code as a machine that fetches at addresses, and the machine functions the
lifter reads of the translation. The opcodes of the lifter are numbered as those of the
translator. -/
namespace Bleach.Mctomir
variable {W : Type} {w : Nat → Nat}

/-- Kill flags mean nothing to the lifter. -/
def Operand.toMachine : Operand → MachineOperand
  | .reg r isDef _ => .reg r isDef false
  | .imm v => .imm v
  | .mbb r => .mbb r.idx
  | .global f => .global f

/-- `TargetOpcode::G_BR`. -/
def gBrDesc : InstrDesc := { name := "G_BR", numDefs := 0, isBranch := true, isBarrier := true }

def Opcode.desc (opcodes : Nat → InstrDesc) : Opcode → InstrDesc
  | .target opcode => opcodes opcode
  | .gBr => gBrDesc

def BuiltInstr.toMachine (opcodes : Nat → InstrDesc) (instr : BuiltInstr) : MachineInstr :=
  ⟨instr.opcode.desc opcodes, instr.operands.map Operand.toMachine⟩

def BuiltBlock.toMachine (opcodes : Nat → InstrDesc) (built : BuiltBlock) : MachineBasicBlock :=
  built.instrs.map (BuiltInstr.toMachine opcodes)

def TranslatedFunction.toMachine (opcodes : Nat → InstrDesc) (func : TranslatedFunction) :
    MachineFunction :=
  ⟨func.name, func.mfunc.map (BuiltBlock.toMachine opcodes)⟩

/-- The machine in front of an address, or behind a return. -/
structure CodeState (w : Nat → Nat) (W : Type) where
  pc : Option Address
  regs : Locals w
  world : W

/-- What is found at an address, and the address behind it. -/
abbrev Fetch := Address → Option (MCInst × Address)

/-- The operand as an input of its instruction. -/
def MCOperand.toUse : MCOperand → MachineOperand
  | .reg r => .reg r false false
  | .imm v => .imm v
  | .other => .other ""

def MCOperand.value (cx : Context W) (regs : Locals w) (op : MCOperand) : Option APInt :=
  argumentValue cx regs op.toUse

def MCOperand.reg? : MCOperand → Option Register
  | .reg r => some r
  | _ => none

variable (cx : Context W) (mia : MCInstrAnalysis) (opcodes : Nat → InstrDesc)

def MCInst.defs (inst : MCInst) : List MCOperand := inst.operands.take (mia.get inst.opcode).numDefs

def MCInst.uses (inst : MCInst) : List MCOperand := inst.operands.drop (mia.get inst.opcode).numDefs

/-- What the instruction function gives for some operands. -/
def MCInst.result (inst : MCInst) (inputs : List MCOperand) (regs : Locals w) (world : W) :
    Option (APInt × W) := do
  let f ← cx.instrs.getFunction (opcodes inst.opcode).name
  let vs ← inputs.mapM (MCOperand.value cx regs)
  let (r, world) ← f.eval vs world
  some (⟨f.ret, r⟩, world)

def MCInst.write (inst : MCInst) (regs : Locals w) (v : APInt) : Locals w :=
  ((inst.defs mia).filterMap MCOperand.reg?).foldl (fun regs r => writeRegister cx regs r v) regs

/-- Execute the instruction at `pc`. The displacement of a branch is no input of its function. -/
def execute (inst : MCInst) (pc next : Address) (s : CodeState w W) : Option (CodeState w W) :=
  if mia.isReturn inst then some { s with pc := none }
  else if mia.isBranch inst then do
    let target ← mia.evaluateBranch inst pc (next - pc)
    if mia.isUnconditionalBranch inst then some { s with pc := some target }
    else
      let (taken, world) ← inst.result cx opcodes (inst.uses mia).dropLast s.regs s.world
      some ⟨some (if taken.bits.toNat = 1 then target else next), s.regs, world⟩
  else do
    let (v, world) ← inst.result cx opcodes (inst.uses mia) s.regs s.world
    some ⟨some next, inst.write cx mia s.regs v, world⟩

def codeStep (fetch : Fetch) (s : CodeState w W) : Option (CodeState w W) := do
  let pc ← s.pc
  let (inst, next) ← fetch pc
  execute cx mia opcodes inst pc next s

/-- Each instruction of the function is fetched at its address, and the next one behind it. -/
structure LaidOut (fetch : Fetch) (insts : List TranslatedInst) : Prop where
  fetched : ∀ t ∈ insts, ∃ next, fetch t.address = some (t.inst, next)
  followed : ∀ {before t u after next}, insts = before ++ t :: u :: after →
    fetch t.address = some (t.inst, next) → next = u.address

/-- The operand at position `idx`. -/
def MCOperand.decoded (numDefs idx : Nat) : MCOperand → MachineOperand
  | .reg r => .reg r (idx < numDefs) false
  | .imm v => .imm v
  | .other => .other ""

/-- The operands from position `idx` on. -/
def decodedOperands (numDefs : Nat) : Nat → List MCOperand → List MachineOperand
  | _, [] => []
  | idx, op :: rest => op.decoded numDefs idx :: decodedOperands numDefs (idx + 1) rest

@[simp] theorem decodedOperands_length (numDefs idx : Nat) (ops : List MCOperand) :
    (decodedOperands numDefs idx ops).length = ops.length := by
  induction ops generalizing idx with
  | nil => rfl
  | cons op rest ih => simp [decodedOperands, ih]

theorem decodedOperands_drop (numDefs idx k : Nat) (ops : List MCOperand) :
    (decodedOperands numDefs idx ops).drop k = decodedOperands numDefs (idx + k) (ops.drop k) := by
  induction k generalizing idx ops with
  | zero => rfl
  | succ k ih =>
    cases ops with
    | nil => rfl
    | cons op rest =>
      rw [decodedOperands, List.drop_succ_cons, ih, List.drop_succ_cons, Nat.add_right_comm, Nat.add_assoc]

theorem decodedOperands_take (numDefs idx k : Nat) (ops : List MCOperand) :
    (decodedOperands numDefs idx ops).take k = decodedOperands numDefs idx (ops.take k) := by
  induction k generalizing idx ops with
  | zero => rfl
  | succ k ih =>
    cases ops with
    | nil => rfl
    | cons op rest => rw [decodedOperands, List.take_succ_cons, ih, List.take_succ_cons, decodedOperands]

/-- Behind the definitions every operand is an input. -/
theorem decodedOperands_uses {numDefs idx : Nat} (behind : numDefs ≤ idx) (ops : List MCOperand) :
    decodedOperands numDefs idx ops = ops.map MCOperand.toUse := by
  induction ops generalizing idx with
  | nil => rfl
  | cons op rest ih =>
    rw [decodedOperands, ih (Nat.le_succ_of_le behind), List.map_cons]
    cases op with
    | reg r => simp [MCOperand.decoded, MCOperand.toUse, Nat.not_lt.mpr behind]
    | imm v => rfl
    | other => rfl

theorem decodedOperands_regs (numDefs idx : Nat) (ops : List MCOperand) :
    (decodedOperands numDefs idx ops).filterMap MachineOperand.reg? = ops.filterMap MCOperand.reg? := by
  induction ops generalizing idx with
  | nil => rfl
  | cons op rest ih =>
    have here : (op.decoded numDefs idx).reg? = op.reg? := by cases op <;> rfl
    simp only [decodedOperands, List.filterMap_cons, here, ih]

theorem mem_decodedOperands {numDefs idx : Nat} {ops : List MCOperand} {op : MachineOperand}
    (member : op ∈ decodedOperands numDefs idx ops) : ∃ op' ∈ ops, ∃ j, op = op'.decoded numDefs j := by
  induction ops generalizing idx with
  | nil => cases member
  | cons op' rest ih =>
    rcases List.mem_cons.mp member with rfl | later
    · exact ⟨op', by simp, idx, rfl⟩
    · obtain ⟨op'', inside, j, same⟩ := ih later
      exact ⟨op'', by simp [inside], j, same⟩

/-- The instruction with all its operands, a displacement included. -/
def machineInstr (inst : MCInst) : MachineInstr :=
  ⟨opcodes inst.opcode, decodedOperands (mia.get inst.opcode).numDefs 0 inst.operands⟩

/-- A branch with its block in the place of the displacement. -/
def branchInstr (inst : MCInst) (b : BlockId) : MachineInstr :=
  ⟨opcodes inst.opcode,
    decodedOperands (mia.get inst.opcode).numDefs 0 inst.operands.dropLast ++ [.mbb b]⟩

variable {cx mia opcodes}

theorem addOperandToMib_machine {desc : MCInstrDesc} {op : MCOperand} {idx : Nat} {operand : Operand}
    (made : addOperandToMib desc op idx = .ok operand) :
    decodedOperands desc.numDefs idx [op] = [operand.toMachine] := by
  cases op with
  | reg r =>
    simp only [addOperandToMib] at made
    split at made
    · next before =>
      cases made
      simp [decodedOperands, MCOperand.decoded, Operand.toMachine, before]
    · next behind =>
      cases made
      simp [decodedOperands, MCOperand.decoded, Operand.toMachine, behind]
  | imm v =>
    cases made
    rfl
  | other => cases made

theorem fillOperands_machine {desc : MCInstrDesc} {ops : List MCOperand} {idx : Nat}
    {operands : List Operand} (made : fillOperands desc false ops idx = .ok operands) :
    operands.map Operand.toMachine = decodedOperands desc.numDefs idx ops := by
  induction ops generalizing idx operands with
  | nil =>
    cases made
    rfl
  | cons op rest ih =>
    rw [fillOperands] at made
    obtain ⟨operand, first, made⟩ := bind_ok.mp made
    obtain ⟨later, tail, made⟩ := bind_ok.mp made
    cases made
    have here := addOperandToMib_machine first
    rw [List.map_cons, ih tail]
    simp only [decodedOperands, List.cons.injEq, and_true] at here ⊢
    exact here.symm

theorem fillOperands_machine_branch {desc : MCInstrDesc} {ops : List MCOperand} {idx : Nat}
    {operands : List Operand} (displaced : ops.getLast?.any MCOperand.isImm = true)
    (made : fillOperands desc true ops idx = .ok operands) :
    operands.map Operand.toMachine = decodedOperands desc.numDefs idx ops.dropLast := by
  induction ops generalizing idx operands with
  | nil => simp at displaced
  | cons op rest ih =>
    cases rest with
    | nil =>
      have here : op.isImm = true := by simpa using displaced
      simp only [fillOperands, List.isEmpty_nil, here, Bool.and_self, if_true] at made
      cases made
      rfl
    | cons op' rest =>
      rw [fillOperands] at made
      obtain ⟨operand, first, made⟩ := bind_ok.mp made
      obtain ⟨later, tail, made⟩ := bind_ok.mp made
      cases made
      have here := addOperandToMib_machine first
      rw [List.map_cons, ih (by simpa using displaced) tail, List.dropLast_cons_cons]
      simp only [decodedOperands, List.cons.injEq, and_true] at here ⊢
      exact here.symm

variable {map : AddressMap} {current : BlockRef} {t : TranslatedInst} {instr : BuiltInstr}
  {successor : Option BlockRef}

/-- Without a direct target the operands are those of the decoded instruction. -/
theorem machineInstr_of_straight (none : operandTarget mia t = none)
    (made : createMachineInstr mia map current t = .ok (instr, successor)) :
    instr.toMachine opcodes = machineInstr mia opcodes t.inst := by
  simp only [createMachineInstr, none] at made
  obtain ⟨operands, filled, made⟩ := bind_ok.mp made
  cases made
  simp only [BuiltInstr.toMachine, machineInstr, Opcode.desc, fillOperands_machine filled]

/-- A branch that finds its block names it in its last operand. -/
theorem branchInstr_of_found {a : Address} {r : BlockRef} (target : operandTarget mia t = some a)
    (found : map.lookup a = some r) (noCall : isCall mia t.inst current r = false)
    (made : createMachineInstr mia map current t = .ok (instr, successor)) :
    instr.toMachine opcodes = branchInstr mia opcodes t.inst r.idx := by
  simp only [createMachineInstr, target] at made
  split at made
  · next displaced =>
    simp only [found, noCall, Bool.false_eq_true, if_false] at made
    obtain ⟨operands, filled, made⟩ := bind_ok.mp made
    cases made
    simp [BuiltInstr.toMachine, branchInstr, Opcode.desc, fillOperands_machine_branch displaced filled,
      Operand.toMachine]
  · cases made

theorem toUse_isInput (ops : List MCOperand) :
    ((ops.map MCOperand.toUse).filter MachineOperand.isArgument).filter (!·.isMBB) =
      ops.map MCOperand.toUse := by
  induction ops with
  | nil => rfl
  | cons op rest ih => cases op <;> simp_all [MCOperand.toUse, MachineOperand.isArgument, MachineOperand.isMBB]

theorem machineInstr_inputs {inst : MCInst}
    (defs : (opcodes inst.opcode).numDefs = (mia.get inst.opcode).numDefs) :
    (machineInstr mia opcodes inst).inputs = (inst.uses mia).map MCOperand.toUse := by
  rw [MachineInstr.inputs, MachineInstr.uses, machineInstr, defs, decodedOperands_drop,
    decodedOperands_uses (Nat.le_add_left _ _), toUse_isInput]
  rfl

theorem branchInstr_inputs {inst : MCInst} {b : BlockId} (noDefs : (opcodes inst.opcode).numDefs = 0)
    (noDefs' : (mia.get inst.opcode).numDefs = 0) :
    (branchInstr mia opcodes inst b).inputs = (inst.uses mia).dropLast.map MCOperand.toUse := by
  rw [MachineInstr.inputs, MachineInstr.uses, branchInstr, noDefs, noDefs', List.drop_zero,
    decodedOperands_uses (Nat.le_refl 0), List.filter_append, List.filter_append, toUse_isInput,
    MCInst.uses, noDefs', List.drop_zero]
  simp [MachineOperand.isArgument, MachineOperand.isMBB]

/-- With the same inputs the instruction function is the same. -/
theorem result_eq {minst : MachineInstr} {inst : MCInst} {inputs : List MCOperand}
    (desc : minst.desc = opcodes inst.opcode) (same : minst.inputs = inputs.map MCOperand.toUse)
    (regs : Locals w) (world : W) :
    minst.result cx regs world = inst.result cx opcodes inputs regs world := by
  have values : (inputs.map MCOperand.toUse).mapM (argumentValue cx regs) =
      inputs.mapM (MCOperand.value cx regs) := by
    rw [List.mapM_map]
    rfl
  rw [MachineInstr.result, MCInst.result, desc, same, values]

theorem writeResult_eq {inst : MCInst} (defs : (opcodes inst.opcode).numDefs = (mia.get inst.opcode).numDefs)
    (regs : Locals w) (v : APInt) :
    writeResult cx regs (machineInstr mia opcodes inst) v = inst.write cx mia regs v := by
  rw [writeResult, MachineInstr.defs, machineInstr, defs, decodedOperands_take, decodedOperands_regs]
  rfl

end Bleach.Mctomir
