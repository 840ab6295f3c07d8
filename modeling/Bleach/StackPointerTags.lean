import Bleach.Lifter.Position
import Bleach.RiscV
import Mathlib.Data.Finset.Option

/-! Stack-pointer tags along execution paths. The lifter carries one tracker
through the blocks in layout order; the tags are what a path itself says about the
registers. The two agree where no write to a tagged register is overlooked, be it an
instruction's own or that of a function it calls, and every branch enters its target
with the tags layout order gives it. -/
namespace Bleach
variable {W : Type} {cx : Context W} {mf : MachineFunction} {addrs : FunctionAddresses}
  {fin : Builder} {minst : MachineInstr} {tags : Finset Register} {spReg : Register}
  {changed : MachineInstr → Finset Register}

/-- An immediate adjustment of a tagged register: the path of stack-pointer
modifications, reached through an explicit operand. -/
def adjusts (cx : Context W) (minst : MachineInstr) (tags : Finset Register) : Bool :=
  dispatch cx minst tags = .stackPointerModification &&
    (minst.uses.filter MachineOperand.isArgument).any fun op => op.reg?.any (· ∈ tags)

theorem mem_eraseDefs {r : Register} : r ∈ eraseDefs tags minst ↔
    r ∈ tags ∧ r ∉ minst.defs.filterMap MachineOperand.reg? := by
  unfold eraseDefs
  generalize minst.defs.filterMap MachineOperand.reg? = regs
  induction regs generalizing tags with
  | nil => simp
  | cons first rest ih =>
    rw [List.foldl_cons, ih, Finset.mem_erase, List.mem_cons]
    tauto

namespace RiscV

end RiscV
end Bleach
