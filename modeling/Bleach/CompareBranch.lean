import Bleach.AArch64Templates
import Bleach.Base.ConditionFlags

/-! Compare and branch on AArch64. The comparisons add where the architecture subtracts and clear
the carry, `Bcc` tests the carry for both of its conditions, and `CBNZX` branches on zero. -/
namespace Bleach.Templates
open ConditionFlags

/-- The flags as the comparisons pack them. -/
def pack (f : Flags) : NZCV :=
  ((zextBit f.n <<< 31 ||| zextBit f.z <<< 30) ||| zextBit f.c <<< 29) ||| zextBit f.v <<< 28

/-- The code of a condition. -/
def conditionCode : Condition → BitVec 32
  | .eq => 0
  | .ne => 1
  | .cs => 2
  | .cc => 3
  | .mi => 4
  | .pl => 5

/-- The answer of `Bcc` for flags: both conditions on the carry wait for it to be set. -/
def branchTaken (f : Flags) : Condition → Bool
  | .cc => f.c
  | c => c.holds f

/-- The comparisons leave the flags of the sum, with the carry cleared. -/
theorem comparison_run (xn i : BitVec 64) (sh : Bool) (nzcv : NZCV) :
    (comparison xn i sh).run nzcv = some (xn + shiftedOperand i sh,
      pack { (addWithCarry xn (shiftedOperand i sh) false).2 with c := false }) := by
  generalize shifted : shiftedOperand i sh = op2
  have negative : (xn + op2).slt 0 = (addWithCarry xn op2 false).2.n := by
    rw [add_negative]
    exact BitVec.slt_zero_eq_msb
  have zero : (xn + op2 == 0) = (addWithCarry xn op2 false).2.z := by
    rw [Bool.eq_iff_iff, beq_iff_eq, add_zero_iff]
    exact add_eq_zero_iff_eq_neg
  have overflow : xn.saddOverflow op2 = (addWithCarry xn op2 false).2.v := (add_overflow xn op2).symm
  simp only [comparison, shifted, saddWithOverflow, negative, zero, overflow]
  rfl

theorem Bcc_run (tgt : BitVec 32) (cond : Condition) (f : Flags) :
    (Bcc tgt (conditionCode cond)).run (pack f) = some (branchTaken f cond, pack f) := by
  rcases f with ⟨_ | _, _ | _, _ | _, _ | _⟩ <;> cases cond <;> rfl

/-- A comparison and the branch behind it: the value written and whether the branch is taken. -/
def compareAndBranch (compare : BitVec 64 → BitVec 64 → Bool → FlagsM (BitVec 64)) (xn i : BitVec 64)
    (sh : Bool) (tgt cond : BitVec 32) : FlagsM (BitVec 64 × Bool) := do
  let val ← compare xn i sh
  let taken ← Bcc tgt cond
  return (val, taken)

inductive Comparison where
  | SUBSXri | SUBSXrs
  deriving DecidableEq

def Comparison.func : Comparison → BitVec 64 → BitVec 64 → Bool → FlagsM (BitVec 64)
  | SUBSXri => Templates.SUBSXri
  | SUBSXrs => Templates.SUBSXrs

variable (compare : Comparison) (xn i : BitVec 64) (sh : Bool)

/-- The branch is taken exactly when the condition holds for the subtraction. -/
def BranchesRight (cond : Condition) : Prop :=
  ∀ tgt nzcv, ∃ val nzcv', (compareAndBranch compare.func xn i sh tgt (conditionCode cond)).run nzcv =
    some ((val, cond.holds (subtractFlags xn (shiftedOperand i sh))), nzcv')

/-- The value written is the difference. -/
def WritesDifference : Prop :=
  ∀ nzcv, ∃ nzcv', (compare.func xn i sh).run nzcv = some (xn - shiftedOperand i sh, nzcv')

/-- Where sum and difference give the same answer. For the sign, the bits below it carry exactly
where they borrow. -/
def SameAnswer (xn op2 : BitVec 64) : Condition → Prop
  | .eq | .ne => xn = op2 ↔ xn = -op2
  | .cs => xn < op2
  | .cc => op2 ≤ xn
  | .mi | .pl => 2 ^ 63 ≤ xn.toNat % 2 ^ 63 + op2.toNat % 2 ^ 63 ↔
      xn.toNat % 2 ^ 63 < op2.toNat % 2 ^ 63

theorem Comparison.func_run (nzcv : NZCV) : (compare.func xn i sh).run nzcv =
    some (xn + shiftedOperand i sh,
      pack { (addWithCarry xn (shiftedOperand i sh) false).2 with c := false }) := by
  cases compare <;> exact comparison_run xn i sh nzcv

theorem compareAndBranch_run (tgt : BitVec 32) (cond : Condition) (nzcv : NZCV) :
    let f : Flags := { (addWithCarry xn (shiftedOperand i sh) false).2 with c := false }
    (compareAndBranch compare.func xn i sh tgt (conditionCode cond)).run nzcv =
      some ((xn + shiftedOperand i sh, branchTaken f cond), pack f) := by
  intro f
  have branch : (Bcc tgt (conditionCode cond)).run (pack f) = some (branchTaken f cond, pack f) :=
    Bcc_run tgt cond f
  rw [compareAndBranch, StateT.run_bind, compare.func_run xn i sh nzcv, Option.bind_eq_bind,
    Option.bind_some, StateT.run_bind, branch]
  rfl

theorem sameAnswer_iff (xn op2 : BitVec 64) (cond : Condition) :
    branchTaken { (addWithCarry xn op2 false).2 with c := false } cond = cond.holds (subtractFlags xn op2) ↔
      SameAnswer xn op2 cond := by
  have zero : (addWithCarry xn op2 false).2.z = (subtractFlags xn op2).z ↔ (xn = op2 ↔ xn = -op2) := by
    rw [Bool.eq_iff_iff, add_zero_iff, subtract_zero_iff]
    exact iff_comm
  have negative : (addWithCarry xn op2 false).2.n = (subtractFlags xn op2).n ↔
      (2 ^ 63 ≤ xn.toNat % 2 ^ 63 + op2.toNat % 2 ^ 63 ↔ xn.toNat % 2 ^ 63 < op2.toNat % 2 ^ 63) := by
    rw [add_negative, subtract_negative, msb_add_eq_msb_sub_iff (w := 63)]
  have carry := subtract_carry_iff xn op2
  cases cond with
  | eq => exact zero
  | ne => exact Bool.not_inj_iff.trans zero
  | cs =>
    change false = (subtractFlags xn op2).c ↔ xn < op2
    rw [eq_comm, ← Bool.not_eq_true, carry, BitVec.not_le]
  | cc =>
    change false = !(subtractFlags xn op2).c ↔ op2 ≤ xn
    rw [eq_comm, Bool.not_eq_false', carry]
  | mi => exact negative
  | pl => exact Bool.not_inj_iff.trans negative

/-- Sum and difference are equal for the two operands that are their own negation. -/
theorem add_eq_sub_iff (xn op2 : BitVec 64) : xn + op2 = xn - op2 ↔ op2 = 0 ∨ op2 = BitVec.intMin 64 := by
  rw [sub_eq_add_neg, add_right_inj]
  constructor
  · intro own
    have value := congrArg BitVec.toNat own
    have bound := op2.isLt
    rw [BitVec.toNat_neg] at value
    by_cases zero : op2.toNat = 0
    · exact .inl (BitVec.eq_of_toNat_eq zero)
    · rw [Nat.mod_eq_of_lt (by omega)] at value
      refine .inr (BitVec.eq_of_toNat_eq ?_)
      change op2.toNat = 2 ^ 63
      omega
  · rintro (rfl | rfl) <;> decide

/-- When the branches are right, and when the value is; `CBNZX` never is. -/
theorem compare_branch_iff (reg : BitVec 64) :
    (∀ cond, BranchesRight compare xn i sh cond ↔ SameAnswer xn (shiftedOperand i sh) cond) ∧
    (WritesDifference compare xn i sh ↔
      shiftedOperand i sh = 0 ∨ shiftedOperand i sh = BitVec.intMin 64) ∧
    CBNZX reg ≠ (reg != 0) := by
  refine ⟨fun cond => ?_, ?_, by simp [CBNZX, bne]⟩
  · rw [← sameAnswer_iff]
    simp only [BranchesRight, compareAndBranch_run, Option.some.injEq, Prod.mk.injEq]
    constructor
    · intro right
      obtain ⟨-, -, ⟨-, taken⟩, -⟩ := right 0 0
      exact taken
    · intro same _ _
      exact ⟨_, _, ⟨rfl, same⟩, rfl⟩
  · rw [← add_eq_sub_iff xn]
    simp only [WritesDifference, Comparison.func_run, Option.some.injEq, Prod.mk.injEq]
    constructor
    · intro writes
      obtain ⟨-, value, -⟩ := writes 0
      exact value
    · intro same _
      exact ⟨_, same, rfl⟩

theorem equal_not_taken :
    (compareAndBranch SUBSXri 1 1 false 0 (conditionCode .eq)).run 0 = some ((2, false), 0) ∧
    Condition.eq.holds (subtractFlags 1#64 1) = true ∧ CBNZX 0 = true ∧
    ¬BranchesRight .SUBSXri 1 1 false .eq ∧ ¬WritesDifference .SUBSXri 1 1 false := by
  refine ⟨rfl, rfl, rfl, fun right => ?_, fun writes => ?_⟩
  · obtain ⟨_, _, run⟩ := right 0 0
    cases run
  · obtain ⟨_, run⟩ := writes 0
    cases run

end Bleach.Templates
