import Bleach.Base.SlotMirror
import Bleach.Lifter.StackCode
import Bleach.RiscV
import Mathlib.Tactic.Ring

/-! Loads and stores of RV64 through the stack pointer: the code they are lifted to
and what it does to the inline stack. -/
namespace Bleach.RiscV
open SlotMirror (slotAddress)
variable {W : Type} {cx : Context W} {M : IRModule W} {s : Site} {st st' : Builder}
  {addr : Option (BitVec 64)} {spReg reg : Register} {sp c : Cell} {off : Int}

inductive AccessOp where
  | sw | sd | fsw | fsd | lw | ld | flw | fld
  deriving DecidableEq

namespace AccessOp

def desc : AccessOp → InstrDesc
  | sw => SW
  | sd => SD
  | fsw => FSW
  | fsd => FSD
  | lw => LW
  | ld => LD
  | flw => FLW
  | fld => FLD

def isLoad : AccessOp → Bool
  | lw | ld | flw | fld => true
  | _ => false

def bytes : AccessOp → Nat
  | sw | fsw | lw | flw => 4
  | sd | fsd | ld | fld => 8

def instr (op : AccessOp) (reg base : Register) (off : Int) : MachineInstr :=
  ⟨op.desc, [if op.isLoad then dst reg else use reg, use base, .imm off]⟩

@[simp] theorem instr_desc (op : AccessOp) (reg base : Register) (off : Int) :
    (op.instr reg base off).desc = op.desc := rfl

theorem desc_mayLoad (op : AccessOp) : op.desc.mayLoad = op.isLoad := by cases op <;> rfl

theorem desc_mayStore (op : AccessOp) : op.desc.mayStore = !op.isLoad := by cases op <;> rfl

theorem desc_numDefs (op : AccessOp) : op.desc.numDefs = if op.isLoad then 1 else 0 := by
  cases op <;> rfl

theorem uses_load {op : AccessOp} (load : op.isLoad = true) (reg base : Register) (off : Int) :
    (op.instr reg base off).uses = [use base, .imm off] := by
  simp [instr, MachineInstr.uses, desc_numDefs, load]

theorem uses_store {op : AccessOp} (store : op.isLoad = false) (reg base : Register) (off : Int) :
    (op.instr reg base off).uses = [use reg, use base, .imm off] := by
  simp [instr, MachineInstr.uses, desc_numDefs, store]

theorem defs_load {op : AccessOp} (load : op.isLoad = true) (reg base : Register) (off : Int) :
    (op.instr reg base off).defs = [dst reg] := by
  simp [instr, MachineInstr.defs, desc_numDefs, load]

theorem defs_store {op : AccessOp} (store : op.isLoad = false) (reg base : Register) (off : Int) :
    (op.instr reg base off).defs = [] := by
  simp [instr, MachineInstr.defs, desc_numDefs, store]

theorem slotOffset_instr (op : AccessOp) (reg base : Register) (off : Int) :
    slotOffset (op.instr reg base off) 8 = (-off).tdiv 8 := by
  have imm : (op.instr reg base off).immOperand = some off := by
    cases load : op.isLoad with
    | true => simp only [MachineInstr.immOperand, uses_load load]; rfl
    | false => simp only [MachineInstr.immOperand, uses_store load]; rfl
  simp [slotOffset, imm]

end AccessOp

/-- A configuration of RV64: 64-bit stack pointer and stack slots, the loads and
stores and `ADDI` as `rv.yaml` has them. -/
structure RV64 (cx : Context W) (spReg : Register) (sp : Cell) : Prop where
  stackPointer : cx.stackPointer? = some spReg
  cell : cx.rmap.find spReg = some sp
  width : cx.stats.widths sp.cls = 64
  slotBits : largestRegsize cx.stats = 64
  ordinary : ∀ minst : MachineInstr, minst.desc = ADDI ∨ (∃ op : AccessOp, minst.desc = op.desc) →
    isReturn cx minst = false ∧ isIndirectBranch cx minst = false
  loads : ∀ op : AccessOp, op.isLoad = true →
    ∃ f, cx.instrs.getFunction op.desc.name = some f ∧ f.ret = 64
  addi : cx.instrs.getFunction "ADDI" = some (binary 64 (· + ·))

/-- The code in front of an access. -/
def indexCode (s : Site) (sp : Cell) (off : Int) : List Inst :=
  [.load (.sp s.block s.idx) 64 (.cell sp),
    .add (.index s.block s.idx) (.ssa (.sp s.block s.idx)) (.const (.ofInt 64 ((-off).tdiv 8)))]

def loadCode (s : Site) (sp : Cell) (off : Int) (c : Cell) : List Inst :=
  indexCode s sp off ++ [.load (.result s.block s.idx) 64 (.stack (.ssa (.index s.block s.idx))),
    .store (.ssa (.result s.block s.idx)) (.cell c)]

def storeCode (s : Site) (sp : Cell) (off : Int) (load : List Inst) (value : Value) : List Inst :=
  indexCode s sp off ++ load ++ [.store value (.stack (.ssa (.index s.block s.idx)))]

/-- The slot a lifted stack pointer holds. -/
def pointerSlot (sp : Cell) (locals : Locals w) : BitVec 64 := (locals sp).setWidth 64

/-- A byte offset from a slot, as a slot and a byte in it. -/
theorem slotAddress_ofInt (B i : BitVec 64) (off : Int) :
    slotAddress B 8 i.toNat + BitVec.ofInt 64 off =
      slotAddress B 8 (i - BitVec.ofInt 64 (off / 8)).toNat + ((off % 8).toNat : BitVec 64) := by
  have scaled : ∀ x : BitVec 64, BitVec.ofNat 64 (8 * x.toNat) = 8#64 * x := by
    intro x
    rw [BitVec.ofNat_mul, BitVec.ofNat_toNat, BitVec.setWidth_eq]
  have split : BitVec.ofInt 64 off =
      8#64 * BitVec.ofInt 64 (off / 8) + ((off % 8).toNat : BitVec 64) := by
    have rest : ((off % 8).toNat : Int) = off % 8 := Int.toNat_of_nonneg (Int.emod_nonneg _ (by omega))
    have whole : off = 8 * (off / 8) + ((off % 8).toNat : Int) := by
      rw [rest]
      omega
    conv_lhs => rw [whole, BitVec.ofInt_add, BitVec.ofInt_mul]
    rfl
  rw [slotAddress, slotAddress, scaled, scaled, split]
  ring

/-- The index an access computes. -/
def slotIndex (sp : Cell) (off : Int) (d : Data M.widths W) : BitVec 64 :=
  (d.locals sp).setWidth 64 + BitVec.ofInt 64 ((-off).tdiv 8)

theorem slotIndex_aligned {off : Int} (aligned : 8 ∣ off) (d : Data M.widths W) :
    slotIndex sp off d = pointerSlot sp d.locals - BitVec.ofInt 64 (off / 8) := by
  obtain ⟨k, rfl⟩ := aligned
  have quotient : (-(8 * k)).tdiv 8 = -k := by
    rw [← Int.mul_neg, Int.mul_tdiv_cancel_left _ (by omega)]
  rw [slotIndex, quotient, Int.mul_ediv_cancel_left _ (by omega), BitVec.ofInt_neg, pointerSlot,
    sub_eq_add_neg]

theorem exec_load64 (wide : M.widths c.cls = 64) (id : ValueId) (d : Data M.widths W) :
    execInst M d (.load id 64 (.cell c)) =
      some (d.bind id (.int ⟨64, (d.locals c).setWidth 64⟩)) := by
  simp [execInst, loadPtr, readLow, wide]

theorem exec_store64 (wide : M.widths c.cls = 64) {value : Value} {x : BitVec 64}
    {d : Data M.widths W} (eval : evalInt d.env value = some ⟨64, x⟩) :
    execInst M d (.store value (.cell c)) =
      some { d with locals := Function.update d.locals c (x.setWidth _) } := by
  have written : overwrite (d.locals c) ⟨64, x⟩ = some (x.setWidth _) := by
    generalize d.locals c = old
    revert old
    rw [wide]
    simp
  simp [execInst, eval, storePtr, written]

theorem stackAddress_slot (slots : M.stackElemBits = 64) (idx : BitVec 64) :
    stackAddress M ⟨64, idx⟩ 64 =
      if idx.toNat < M.stackCount then some (idx.toNat * 8) else none := by
  simp only [stackAddress, slots]
  by_cases inside : idx.toNat < M.stackCount
  · rw [if_pos inside, if_pos ⟨by omega, by omega⟩]
  · rw [if_neg inside, if_neg (by omega)]

theorem exec_stackLoad (slots : M.stackElemBits = 64) {idx : Value} {i : BitVec 64}
    {d : Data M.widths W} (eval : evalInt d.env idx = some ⟨64, i⟩) (id : ValueId) :
    execInst M d (.load id 64 (.stack idx)) = if i.toNat < M.stackCount then
      some (d.bind id (.int ⟨64, ByteMemory.load d.shared.stack (i.toNat * 8) 8⟩)) else none := by
  simp only [execInst, loadPtr, eval, Option.bind_eq_bind, Option.bind_some, stackAddress_slot slots]
  split_ifs
  · simp
  · rfl

theorem exec_stackStore (slots : M.stackElemBits = 64) {idx value : Value} {i x : BitVec 64}
    {d : Data M.widths W} (eval : evalInt d.env idx = some ⟨64, i⟩)
    (stored : evalInt d.env value = some ⟨64, x⟩) :
    execInst M d (.store value (.stack idx)) = if i.toNat < M.stackCount then
      some { d with shared := { d.shared with
        stack := ByteMemory.store d.shared.stack (i.toNat * 8) x 8 } } else none := by
  simp only [execInst, storePtr, eval, stored, Option.bind_eq_bind, Option.bind_some,
    stackAddress_slot slots]
  split_ifs <;> rfl

theorem exec_indexCode (wide : M.widths sp.cls = 64) (s : Site) (off : Int) (d : Data M.widths W) :
    execCode M (indexCode s sp off) d =
      some ((d.bind (.sp s.block s.idx) (.int ⟨64, (d.locals sp).setWidth 64⟩)).bind
        (.index s.block s.idx) (.int ⟨64, slotIndex sp off d⟩)) := by
  simp only [indexCode, execCode, exec_load64 wide, Option.bind_some]
  simp [execInst, evalInt, evalValue, Data.bind, APInt.ofInt, slotIndex]

/-- The value of a register as instructions read it. -/
def operandValue (cx : Context W) (locals : Locals w) (r : Register) : BitVec 64 :=
  match cx.instrs.constReg? cx.tm r with
  | some k => BitVec.ofInt 64 k.value
  | none =>
    match cx.rmap.find r with
    | some c => (locals c).setWidth 64
    | none => 0

/-- A register of 64 bits. -/
def Wide (cx : Context W) (r : Register) (c : Cell) : Prop :=
  cx.rmap.find r = some c ∧ cx.stats.widths c.cls = 64

/-- A register of 64 bits as an argument. -/
theorem argumentValue_use (widths : M.widths = cx.stats.widths) (wide : Wide cx reg c)
    (locals : Locals M.widths) :
    argumentValue cx locals (use reg) = some ⟨64, operandValue cx locals reg⟩ := by
  obtain ⟨found, width⟩ := wide
  have full : ∀ v : BitVec (M.widths c.cls), (⟨_, v⟩ : APInt) = ⟨64, v.setWidth 64⟩ := by
    rw [widths, width]
    simp
  have value : registerValue cx.stats locals reg = some ⟨_, locals c⟩ := by
    simp [registerValue, show (registerMap cx.stats).find reg = some c from found]
  cases constant : cx.instrs.constReg? cx.tm reg with
  | some k => simp [argumentValue, use, operandValue, constant, APInt.ofInt]
  | none => simp [argumentValue, use, operandValue, constant, value, full, found]

theorem exec_operand (widths : M.widths = cx.stats.widths) (wide : Wide cx reg c) {k : Nat}
    {load : List Inst} {value : Value}
    (code : OperandCode cx (.operand s.block s.idx k) (use reg) load (some value))
    (d : Data M.widths W) : ∃ d', execCode M load d = some d' ∧ d'.locals = d.locals ∧
      d'.shared = d.shared ∧ (∀ id, id ≠ .operand s.block s.idx k → d'.env id = d.env id) ∧
      evalInt d'.env value = some ⟨64, operandValue cx d.locals reg⟩ := by
  obtain ⟨d', run, locals, shared, values, stored⟩ :=
    exec_operandLoad widths (operandToValue_ok.mpr code) d
  refine ⟨d', run, locals, shared, values, ?_⟩
  rw [(stored value rfl).2]
  exact argumentValue_use widths wide d.locals

/-- A load reads the slot it computes into its register, or is undefined. -/
theorem run_loadCode (slots : M.stackElemBits = 64) (wideSp : M.widths sp.cls = 64)
    (wide : M.widths c.cls = 64) (s : Site) (off : Int) (d : Data M.widths W) :
    ((slotIndex sp off d).toNat < M.stackCount → ∃ d', execCode M (loadCode s sp off c) d = some d' ∧
      d'.locals = Function.update d.locals c
        (BitVec.setWidth _ (ByteMemory.load d.shared.stack ((slotIndex sp off d).toNat * 8) 8)) ∧
      d'.shared = d.shared) ∧
    (¬(slotIndex sp off d).toNat < M.stackCount → execCode M (loadCode s sp off c) d = none) := by
  rw [loadCode, execCode_append, exec_indexCode wideSp, Option.bind_some, execCode,
    exec_stackLoad (i := slotIndex sp off d) slots (by simp [evalInt, evalValue, Data.bind])]
  constructor
  · intro inside
    rw [if_pos inside, Option.bind_some, execCode, exec_store64 wide (by
      simp only [evalInt, evalValue, Data.bind, Function.update_self]
      rfl)]
    exact ⟨_, rfl, rfl, rfl⟩
  · intro outside
    rw [if_neg outside]
    rfl

/-- A store writes its register to the slot it computes, or is undefined. -/
theorem run_storeCode (widths : M.widths = cx.stats.widths) (slots : M.stackElemBits = 64)
    (wideSp : M.widths sp.cls = 64) (wide : Wide cx reg c) {load : List Inst} {value : Value}
    (code : OperandCode cx (.operand s.block s.idx 0) (use reg) load (some value)) (off : Int)
    (d : Data M.widths W) :
    ((slotIndex sp off d).toNat < M.stackCount → ∃ d',
      execCode M (storeCode s sp off load value) d = some d' ∧ d'.locals = d.locals ∧
      d'.shared = { d.shared with
        stack := ByteMemory.store d.shared.stack ((slotIndex sp off d).toNat * 8)
          (operandValue cx d.locals reg) 8 }) ∧
    (¬(slotIndex sp off d).toNat < M.stackCount →
      execCode M (storeCode s sp off load value) d = none) := by
  rw [storeCode, List.append_assoc, execCode_append, exec_indexCode wideSp, Option.bind_some,
    execCode_append]
  obtain ⟨d', run, locals, shared, values, stored⟩ := exec_operand widths wide code
    ((d.bind (.sp s.block s.idx) (.int ⟨64, (d.locals sp).setWidth 64⟩)).bind
      (.index s.block s.idx) (.int ⟨64, slotIndex sp off d⟩))
  have index : evalInt d'.env (.ssa (.index s.block s.idx)) = some ⟨64, slotIndex sp off d⟩ := by
    simp [evalInt, evalValue, values, Data.bind]
  rw [run, Option.bind_some, execCode, exec_stackStore slots index stored, shared]
  constructor
  · intro inside
    rw [if_pos inside]
    exact ⟨_, rfl, locals, rfl⟩
  · intro outside
    rw [if_neg outside]
    rfl

namespace RV64

theorem bitsize (rv : RV64 cx spReg sp) {rclass : RegisterClass}
    (classed : cx.stats.getRegisterClassFor spReg = some rclass) : rclass.bitsize = 64 := by
  obtain ⟨rclass', here, classed'⟩ := class_of_find rv.cell
  obtain rfl := Option.some.inj (classed.symm.trans classed')
  simpa [RegisterStats.widths, here] using rv.width

theorem dispatch_access (rv : RV64 cx spReg sp) {T : StackPointerTracker} (tracked : spReg ∈ T)
    (op : AccessOp) (reg : Register) (off : Int) :
    dispatch cx (op.instr reg spReg off) T = .stackAccess := by
  obtain ⟨ret, indirect⟩ := rv.ordinary (op.instr reg spReg off) (.inr ⟨op, rfl⟩)
  have branch : isBranch (op.instr reg spReg off) = false := by cases op <;> rfl
  have call : isCall (op.instr reg spReg off) = false := by cases op <;> rfl
  have memory : (op.instr reg spReg off).mayLoadOrStore = true := by cases op <;> rfl
  have used : usesStackPointer (op.instr reg spReg off) T = true := by
    refine List.any_eq_true.mpr ⟨spReg, ?_, decide_eq_true tracked⟩
    cases load : op.isLoad with
    | true => simp [MachineInstr.usedRegs, AccessOp.uses_load load, use, MachineOperand.reg?]
    | false => simp [MachineInstr.usedRegs, AccessOp.uses_store load, use, MachineOperand.reg?]
  simp [dispatch, ret, indirect, branch, call, isStackManipulation, memory, used]

/-- What an access emits; the operand of a store is loaded in the block of its own. -/
theorem access_blocks (rv : RV64 cx spReg sp) (tracked : spReg ∈ st.sptrack) {op : AccessOp}
    (done : generateInstruction cx s addr (op.instr reg spReg off) st = .ok st') :
    st'.cur = st.cur ∧ st'.sptrack = st.sptrack ∧
      ((op.isLoad = true ∧ ∃ c, cx.rmap.find reg = some c ∧
          ∀ l, st'.blocks l = (st.emit (loadCode s sp off c)).blocks l) ∨
        (op.isLoad = false ∧ ∃ load value, OperandCode cx (.operand s.block s.idx 0) (use reg) load
            (some value) ∧
          ∀ l, st'.blocks l = (((st.emit (indexCode s sp off)).insert s.label load).emit
            [.store value (.stack (.ssa (.index s.block s.idx)))]).blocks l)) := by
  rw [generateInstruction_eq, rv.dispatch_access tracked] at done
  obtain ⟨spReg', sp', rclass, write, named, found, classed, written, paths⟩ :=
    generateLoadStoreFromStack_ok done
  obtain rfl := Option.some.inj (rv.stackPointer.symm.trans named)
  obtain rfl := Option.some.inj (rv.cell.symm.trans found)
  have index : stackIndexCode s sp rclass (op.instr reg spReg off) = indexCode s sp off := by
    rw [stackIndexCode, rv.bitsize classed, AccessOp.slotOffset_instr]
    rfl
  obtain ⟨loads, stores, f, function, rfl⟩ | ⟨loads, op', a, o, load, value, uses, operand, rfl⟩ := paths
  · have load : op.isLoad = true := op.desc_mayLoad ▸ loads
    obtain ⟨f', function', ret⟩ := rv.loads op load
    obtain rfl := Option.some.inj (function.symm.trans function')
    rw [storeResult, AccessOp.defs_load load] at written
    obtain ⟨c, found, written⟩ := bind_ok.mp written
    cases written
    refine ⟨rfl, rfl, .inl ⟨load, c, regAddr_ok found, fun l => ?_⟩⟩
    by_cases here : l = st.cur <;> simp [here, index, loadCode, ret]
  · have store : op.isLoad = false := op.desc_mayLoad ▸ loads
    rw [AccessOp.uses_store store] at uses
    obtain ⟨rfl, -⟩ := List.cons.inj uses
    rw [storeResult, AccessOp.defs_store store] at written
    cases written
    refine ⟨rfl, rfl, .inr ⟨store, load, value, operandToValue_ok.mp operand, fun l => ?_⟩⟩
    rw [index]

/-- The code of a load, and of a store whose block is still being filled. -/
theorem access_code (rv : RV64 cx spReg sp) (tracked : spReg ∈ st.sptrack) {op : AccessOp}
    (own : st.cur = s.label)
    (done : generateInstruction cx s addr (op.instr reg spReg off) st = .ok st') :
    ∃ code, (∀ l, st'.blocks l = (st.emit code).blocks l) ∧ st'.cur = st.cur ∧
      st'.sptrack = st.sptrack ∧
      ((op.isLoad = true ∧ ∃ c, cx.rmap.find reg = some c ∧ code = loadCode s sp off c) ∨
        (op.isLoad = false ∧ ∃ load value, OperandCode cx (.operand s.block s.idx 0) (use reg) load
          (some value) ∧ code = storeCode s sp off load value)) := by
  obtain ⟨cur, sptrack, ⟨load, c, found, blocks⟩ | ⟨store, load, value, operand, blocks⟩⟩ :=
    rv.access_blocks tracked done
  · exact ⟨_, blocks, cur, sptrack, .inl ⟨load, c, found, rfl⟩⟩
  · refine ⟨_, fun l => ?_, cur, sptrack, .inr ⟨store, load, value, operand, rfl⟩⟩
    rw [blocks]
    by_cases here : l = s.label <;> simp [here, own, storeCode]

/-- Accesses of known registers can be lifted. -/
theorem access_lifts (rv : RV64 cx spReg sp) (tracked : spReg ∈ st.sptrack)
    (found : cx.rmap.find reg = some c) (op : AccessOp) (off : Int) (s : Site)
    (addr : Option (BitVec 64)) :
    ∃ st', generateInstruction cx s addr (op.instr reg spReg off) st = .ok st' := by
  rw [generateInstruction_eq, rv.dispatch_access tracked]
  obtain ⟨rclass, -, classed⟩ := class_of_find rv.cell
  obtain ⟨rclass', -, classed'⟩ := class_of_find found
  have address : ∀ {r c}, cx.rmap.find r = some c → regAddr cx r = .ok c := by
    intro r c found
    simp [regAddr, found]
  have class_ : ∀ {r rclass}, cx.stats.getRegisterClassFor r = some rclass →
      getRegisterClassFor cx r = .ok rclass := by
    intro r rclass classed
    simp [getRegisterClassFor, classed]
  simp only [generateLoadStoreFromStack, getStackPointer, rv.stackPointer, readRegisterValue,
    class_ classed, address rv.cell, AccessOp.instr_desc, op.desc_mayLoad, op.desc_mayStore, bind,
    Except.bind]
  cases load : op.isLoad with
  | true =>
    obtain ⟨f, function, -⟩ := rv.loads op load
    have result : ∀ val, storeResult cx (op.instr reg spReg off) val =
        .ok [.store val (.cell c)] := by
      intro val
      simp [storeResult, AccessOp.defs_load load, dst, address found, bind, Except.bind]
    simp [findFunction, function, result]
  | false =>
    have result : ∀ val, storeResult cx (op.instr reg spReg off) val = .ok [] := by
      intro val
      simp [storeResult, AccessOp.defs_store load]
    obtain ⟨loads, value, operand⟩ : ∃ loads value,
        operandToValue cx (.operand s.block s.idx 0) (use reg) = .ok (loads, some value) := by
      cases constant : cx.instrs.constReg? cx.tm reg with
      | some k => exact ⟨_, _, operandToValue_ok.mpr (.constant constant)⟩
      | none => exact ⟨_, _, operandToValue_ok.mpr (.register constant found classed')⟩
    simp [AccessOp.uses_store load, operand, requireArgs, result, bind, Except.bind]

end RV64
end Bleach.RiscV
