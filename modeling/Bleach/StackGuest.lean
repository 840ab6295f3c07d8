import Bleach.StackAccess
import Bleach.EntryBlock
import Bleach.Lifter.Origins

/-! The stack of an RV64 guest beside the run of its lifted program. The guest's
stack pointer and memory follow the machine instructions whose lifted code is
executed; programs are restricted to those that move the stack pointer by whole
slots and save and restore whole registers. -/
namespace Bleach

def MachineFunction.instr? (mf : MachineFunction) (b : BlockId) (i : Nat) : Option MachineInstr :=
  (mf.blocks[b]?).bind (·[i]?)

theorem instr_at {mf : MachineFunction} {b i : Nat} {mbb : MachineBasicBlock} {minst : MachineInstr}
    (block : mf.blocks[b]? = some mbb) (here : mbb[i]? = some minst) : mf.instr? b i = some minst := by
  simp [MachineFunction.instr?, block, here]

namespace RiscV
open ByteMemory (Memory)
variable {W : Type} {w : Nat → Nat} {cx : Context W} {mf : MachineFunction}
  {mfs : List MachineFunction} {minst : MachineInstr} {spReg : Register} {sp : Cell}

/-- The stack pointer and the memory of the guest. -/
structure StackGuest where
  sp : BitVec 64
  mem : Memory (BitVec 64)

/-- What an instruction adds to the stack pointer. -/
def adjustment? (spReg : Register) (minst : MachineInstr) : Option Int :=
  match minst.operands with
  | [.reg rd true false, .reg rs false false, .imm k] =>
    if minst.desc = ADDI ∧ rd = spReg ∧ rs = spReg then some k else none
  | _ => none

/-- The register an instruction saves, and the address. -/
def saves? (spReg : Register) (minst : MachineInstr) (gsp : BitVec 64) :
    Option (Register × BitVec 64) :=
  match minst.operands with
  | [.reg rs false false, .reg base false false, .imm off] =>
    if minst.desc = SD ∧ base = spReg then some (rs, gsp + BitVec.ofInt 64 off) else none
  | _ => none

/-- The memory behind an instruction; `value` gives the registers. -/
def memoryAfter (spReg : Register) (value : Register → BitVec 64) (minst : MachineInstr)
    (g : StackGuest) : Memory (BitVec 64) :=
  match saves? spReg minst g.sp with
  | some (rs, address) => ByteMemory.store g.mem address (value rs) 8
  | none => g.mem

theorem adjustment_addi (spReg : Register) (k : Int) :
    adjustment? spReg (addi spReg spReg k) = some k := by
  simp [adjustment?, addi, dst, use]

theorem addi_of_adjustment {k : Int} (adjusts : adjustment? spReg minst = some k) :
    minst = addi spReg spReg k := by
  obtain ⟨desc, operands⟩ := minst
  unfold adjustment? at adjusts
  split at adjusts
  · next rd rs imm shape =>
    split_ifs at adjusts with same
    obtain ⟨rfl, rfl, rfl⟩ := same
    obtain rfl := Option.some.inj adjusts
    exact congrArg (MachineInstr.mk ADDI) shape
  · cases adjusts

theorem saves_sd (spReg rs : Register) (off : Int) (gsp : BitVec 64) :
    saves? spReg (sd rs spReg off) gsp = some (rs, gsp + BitVec.ofInt 64 off) := by
  simp [saves?, sd, use]

/-- The adjustment that is executed with a step: an `ADDI` is when its instruction function is
called. -/
def adjusted? (mf : MachineFunction) (spReg : Register) (i : Inst) : Option Int :=
  match i with
  | .callInstr (.result b k) _ _ => (mf.instr? b k).bind (adjustment? spReg)
  | _ => none

def pointerStep (mf : MachineFunction) (spReg : Register) (i : Inst) (gsp : BitVec 64) : BitVec 64 :=
  (adjusted? mf spReg i).elim gsp (gsp + BitVec.ofInt 64 ·)

/-- The slot of the stack pointer in the lifted code. -/
def slotStep (mf : MachineFunction) (spReg : Register) (i : Inst) (slot : BitVec 64) : BitVec 64 :=
  (adjusted? mf spReg i).elim slot fun k => slot + BitVec.ofInt 64 ((-k).tdiv 8)

/-- An `SD` is executed when its value is stored. -/
def memoryStep (mf : MachineFunction) (spReg : Register) (value : Register → BitVec 64) (i : Inst)
    (g : StackGuest) : Memory (BitVec 64) :=
  match i with
  | .store _ (.stack (.ssa (.index b k))) => (mf.instr? b k).elim g.mem (memoryAfter spReg value · g)
  | _ => g.mem

/-- What the guest does while the lifted program takes its next step. -/
def guestFollows (cx : Context W) (mfs : List MachineFunction) (spReg : Register) (c : Config w W)
    (g : StackGuest) : StackGuest :=
  match c.frames with
  | [] => g
  | fr :: _ =>
    match mfs[fr.func]?, fr.code with
    | some mf, i :: _ =>
      ⟨pointerStep mf spReg i g.sp, memoryStep mf spReg (operandValue cx fr.locals) i g⟩
    | _, _ => g

/-- The lifted program and its guest take a step. -/
def pairedStep (cx : Context W) (mfs : List MachineFunction) (spReg : Register) (M : IRModule W)
    (s : Config M.widths W × StackGuest) : Option (Config M.widths W × StackGuest) :=
  (M.step s.1).map fun c => (c, guestFollows cx mfs spReg s.1 s.2)

/-- The register the guest saves with the next step, and the address. -/
def saving? (mfs : List MachineFunction) (spReg : Register) (s : Config w W × StackGuest) :
    Option (Register × BitVec 64) := do
  let fr ← s.1.frames.head?
  let mf ← mfs[fr.func]?
  match fr.code with
  | .store _ (.stack (.ssa (.index b k))) :: _ => (mf.instr? b k).bind (saves? spReg · s.2.sp)
  | _ => none

/-- Instructions that leave the stack pointer to `ADDI`, `SD` and `LD`. What lives in
the variable of the stack pointer counts as the stack pointer; only a control
transfer may name it, as an implicit operand. -/
inductive StackInstr (cx : Context W) (spReg : Register) (sp : Cell) : MachineInstr → Prop where
  | adjust {k : Int} (aligned : 8 ∣ k) : StackInstr cx spReg sp (addi spReg spReg k)
  | save {reg c} {off : Int} (wide : Wide cx reg c) (other : c ≠ sp) (aligned : 8 ∣ off) :
      StackInstr cx spReg sp (sd reg spReg off)
  | restore {reg c} {off : Int} (wide : Wide cx reg c) (other : c ≠ sp) (aligned : 8 ∣ off) :
      StackInstr cx spReg sp (ld reg spReg off)
  | plain {minst : MachineInstr}
      (apart : ∀ op ∈ minst.operands, ∀ r, op.reg? = some r → cx.rmap.find r ≠ some sp) :
      StackInstr cx spReg sp minst
  | transfer {minst : MachineInstr}
      (path : dispatch cx minst ∅ ∈ [.ret, .indirect, .jump, .branch, .call])
      (apart : ∀ r isDef, .reg r isDef false ∈ minst.operands → cx.rmap.find r ≠ some sp) :
      StackInstr cx spReg sp minst

/-- A function of such instructions whose first block is no branch target. -/
structure StackDiscipline (cx : Context W) (spReg : Register) (sp : Cell) (mf : MachineFunction) :
    Prop where
  instr : ∀ {b i : Nat} {mbb : MachineBasicBlock} {minst}, mf.blocks[b]? = some mbb →
    mbb[i]? = some minst → StackInstr cx spReg sp minst
  entry : ∀ {b i : Nat} {mbb : MachineBasicBlock} {minst}, mf.blocks[b]? = some mbb →
    mbb[i]? = some minst → 0 ∉ (mf.site b mbb i).branchTargets cx minst

end RiscV
end Bleach
