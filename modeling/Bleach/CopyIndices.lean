import Bleach.Lifter.RegisterTransfer

/-! The indices of the register copies. One loop numbers the registers of a class, the others
number the entries of the whole map that are registers of the class. -/
namespace Bleach
variable {stats : RegisterStats} {rclass : RegisterClass}

/-- How many registers of the class are smaller. -/
def RegisterClass.rank (rclass : RegisterClass) (reg : Register) : Nat := rclass.regs.keys.countP (· < reg)

end Bleach
