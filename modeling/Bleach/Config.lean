import Bleach.Base.OrderedMap
import Bleach.IR

/-! The architecture description and the register classes computed from it. -/
namespace Bleach

/-- One entry of the config's instruction list. -/
structure Instruction (W : Type) where
  name : String
  irModule : Option (InstrFunction W) := none
  retinfo : Option (List String) := none
  isPcRelative : Bool := false
  isIndirectBranch : Bool := false

structure ConstantReg where
  name : String
  value : Nat

structure InstrImpl (W : Type) where
  instrs : List (Instruction W)
  stackPointer : String
  constRegs : List ConstantReg := []

namespace InstrImpl
variable {W : Type}

def find (impl : InstrImpl W) (name : String) : Option (Instruction W) :=
  impl.instrs.find? (fun i => i.name = name)

/-- `Module::getFunction` once the bodies of all entries are linked in. -/
def getFunction (impl : InstrImpl W) (name : String) : Option (InstrFunction W) :=
  impl.instrs.findSome? (fun i => if i.name = name then i.irModule else none)

/-- The entry of `constant-registers` for a register, found by its name. -/
def constReg? (impl : InstrImpl W) (tm : TargetMachine) (reg : Register) : Option ConstantReg :=
  impl.constRegs.find? (fun r => r.name = tm.getName reg)

end InstrImpl

/-- A register class of `register_state`: each register with the subregisters
that live in it. -/
structure RegisterClass where
  name : String
  bitsize : Nat
  regs : OrderedMap Register (List Register)

namespace RegisterClass

/-- Every register that lives in the class. -/
def members (rc : RegisterClass) : List Register := rc.regs.entries.flatMap (fun e => e.1 :: e.2)

end RegisterClass

abbrev RegisterStats := List RegisterClass

namespace RegisterStats

def getRegisterClassFor (stats : RegisterStats) (reg : Register) : Option RegisterClass :=
  stats.find? (fun rc => rc.regs.contains reg || rc.regs.entries.any (fun e => e.2.contains reg))

/-- Bit width of class `i`. -/
def widths (stats : RegisterStats) (i : Nat) : Nat := ((stats[i]?).map RegisterClass.bitsize).getD 0

/-- Every register is listed once, as a register of its own or as a subregister. -/
def Disjoint (stats : RegisterStats) : Prop := (stats.flatMap RegisterClass.members).Nodup

instance (stats : RegisterStats) : Decidable stats.Disjoint :=
  inferInstanceAs (Decidable (List.Nodup _))

end RegisterStats

/-- `reg2vals`: the local variable behind each register. -/
abbrev Reg2Vals := OrderedMap Register Cell

end Bleach
