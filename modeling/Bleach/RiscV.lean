import Bleach.Lifter.Position

/-! The part of the RISC-V target and of the configuration template `rv.yaml`
that the concrete modules of this development use. Registers are numbered as the
architecture numbers them, and the environment of an instruction is the memory. -/
namespace Bleach.RiscV
open ByteMemory (Memory)

abbrev X0 : Register := 0
abbrev X1 : Register := 1
abbrev X2 : Register := 2
abbrev X8 : Register := 8
abbrev X10 : Register := 10
abbrev X11 : Register := 11

/-- Guest memory, as far as it is not the inline stack. -/
abbrev World := Memory (BitVec 64)

def ADDI : InstrDesc := { name := "ADDI", numDefs := 1 }
def LD : InstrDesc := { name := "LD", numDefs := 1, mayLoad := true }
def SD : InstrDesc := { name := "SD", numDefs := 0, mayStore := true }
def LW : InstrDesc := { name := "LW", numDefs := 1, mayLoad := true }
def SW : InstrDesc := { name := "SW", numDefs := 0, mayStore := true }
def FLD : InstrDesc := { name := "FLD", numDefs := 1, mayLoad := true }
def FSD : InstrDesc := { name := "FSD", numDefs := 0, mayStore := true }
def FLW : InstrDesc := { name := "FLW", numDefs := 1, mayLoad := true }
def FSW : InstrDesc := { name := "FSW", numDefs := 0, mayStore := true }
def BEQ : InstrDesc := { name := "BEQ", numDefs := 0, isBranch := true }
def JALR : InstrDesc := { name := "JALR", numDefs := 1, isCall := true, miaIsCall := true }
def PseudoBR : InstrDesc := { name := "PseudoBR", numDefs := 0, isBranch := true, isBarrier := true }
def PseudoCALL : InstrDesc := { name := "PseudoCALL", numDefs := 0, isCall := true, miaIsCall := true }
def PseudoTAIL : InstrDesc :=
  { name := "PseudoTAIL", numDefs := 0, isReturn := true, isCall := true, isBarrier := true,
    miaIsCall := true }
def PseudoRET : InstrDesc := { name := "PseudoRET", numDefs := 0, isReturn := true, isBarrier := true }

def use (r : Register) : MachineOperand := .reg r false false
def dst (r : Register) : MachineOperand := .reg r true false

def addi (rd rs : Register) (imm : Int) : MachineInstr := ⟨ADDI, [dst rd, use rs, .imm imm]⟩
def ld (rd base : Register) (off : Int) : MachineInstr := ⟨LD, [dst rd, use base, .imm off]⟩
def sd (rs base : Register) (off : Int) : MachineInstr := ⟨SD, [use rs, use base, .imm off]⟩
def lw (rd base : Register) (off : Int) : MachineInstr := ⟨LW, [dst rd, use base, .imm off]⟩
def sw (rs base : Register) (off : Int) : MachineInstr := ⟨SW, [use rs, use base, .imm off]⟩
def beq (rs rs' : Register) (b : BlockId) : MachineInstr := ⟨BEQ, [use rs, use rs', .mbb b]⟩
def jalr (rd base : Register) (off : Int) : MachineInstr := ⟨JALR, [dst rd, use base, .imm off]⟩
def br (b : BlockId) : MachineInstr := ⟨PseudoBR, [.mbb b]⟩
def call (f : FuncId) : MachineInstr := ⟨PseudoCALL, [.global f]⟩
def tail (f : FuncId) : MachineInstr := ⟨PseudoTAIL, [.global f]⟩
def ret : MachineInstr := ⟨PseudoRET, []⟩

/-- A function of two registers. -/
def binary (ret : Nat) (f : BitVec 64 → BitVec 64 → BitVec ret) : InstrFunction W where
  params := [64, 64]
  ret := ret
  eval
    | [a, b], world => some (f (a.bits.setWidth 64) (b.bits.setWidth 64), world)
    | _, _ => none

/-- A load of `n` bytes, extended to a register. -/
def loadFunction (n : Nat) (extend : BitVec (8 * n) → BitVec 64) : InstrFunction World where
  params := [64, 64]
  ret := 64
  eval
    | [base, off], world =>
      some (extend (ByteMemory.load world (base.bits.setWidth 64 + off.bits.setWidth 64) n), world)
    | _, _ => none

/-- A store of the `n` low bytes of a register. -/
def storeFunction (n : Nat) : InstrFunction World where
  params := [64, 64, 64]
  ret := 0
  eval
    | [value, base, off], world =>
      some (0, ByteMemory.store world (base.bits.setWidth 64 + off.bits.setWidth 64) value.bits n)
    | _, _ => none

/-- The upper half of a register that holds a single-precision value is all ones. -/
def nanBox (v : BitVec 32) : BitVec 64 := v.setWidth 64 ||| 0xFFFFFFFF00000000#64

/-- `rv.yaml` on RV64, as far as it is used here. -/
def instrs : InstrImpl World where
  instrs := [
    { name := "ADDI", irModule := some (binary 64 (· + ·)) },
    { name := "LD", irModule := some (loadFunction 8 (·.setWidth 64)) },
    { name := "SD", irModule := some (storeFunction 8) },
    { name := "LW", irModule := some (loadFunction 4 (·.signExtend 64)) },
    { name := "SW", irModule := some (storeFunction 4) },
    { name := "FLD", irModule := some (loadFunction 8 (·.setWidth 64)) },
    { name := "FSD", irModule := some (storeFunction 8) },
    { name := "FLW", irModule := some (loadFunction 4 nanBox) },
    { name := "FSW", irModule := some (storeFunction 4) },
    { name := "BEQ", irModule := some (binary 1 fun a b => if a = b then 1 else 0) },
    { name := "JALR", retinfo := some ["X0", "X1", "0"], isIndirectBranch := true }]
  stackPointer := "X2"
  constRegs := [⟨"X0", 0⟩]

def registers : List Register := [X0, X1, X2, X8, X10, X11]

def getName (r : Register) : String :=
  match r with
  | 0 => "X0" | 1 => "X1" | 2 => "X2" | 8 => "X8" | 10 => "X10" | 11 => "X11"
  | _ => "NoRegister"

def printOperand : MachineOperand → String
  | .imm 0 => "0"
  | _ => "?"

def target : TargetMachine where
  regclasses := [registers]
  getName := getName
  getRegAsmName := getName
  printOperand := printOperand
  printInstr := fun minst => minst.desc.name
  matchesWhole := (· == ·)

/-- The class `GPR`. -/
def gpr : RegisterClass where
  name := "GPR"
  bitsize := 64
  regs := ⟨registers.map (·, []), by decide⟩

def context : Context World where
  instrs := instrs
  tm := target
  stats := [gpr]

/-- The module lifted from some functions. -/
def lift (mfs : List MachineFunction) (finfo : Option FileInfo) : Lift (IRModule World) :=
  bleachModule context mfs (fun _ => none) finfo 64 ""

def module (mfs : List MachineFunction) (finfo : Option FileInfo) : IRModule World :=
  match lift mfs finfo with
  | .ok M => M
  | .error _ => ⟨fun _ => 0, 0, 0, fun _ => none, []⟩

/-- No register, slot or byte holds anything but zero. -/
def zeroed (w : Nat → Nat) : Shared w World := ⟨fun _ => 0, fun _ => 0, [], fun _ => 0⟩

/-- A frame in front of an instruction, each register holding its own number. -/
def frameAt (w : Nat → Nat) (mfs : List MachineFunction) (f : FuncId) (b i : Nat) : Frame w :=
  match (mfs[f]?).map fun mf => pcAt context mf none b i with
  | some (.ok (label, code)) => ⟨f, label, code, fun _ => none, fun c => BitVec.ofNat _ c.reg⟩
  | _ => ⟨f, entryLabel, [], fun _ => none, fun _ => 0⟩

end Bleach.RiscV
