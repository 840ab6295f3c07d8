import Bleach.ScalarTemplates

/-! Constants and addresses made by an upper and a lower immediate. `LUI` sign-extends its
immediate, `AUIPC` does not. -/
namespace Bleach.Templates
open IntegerOps

variable (c : BitVec 32)

/-- The upper immediate of a constant, an unsigned field of 20 bits. -/
def upper : BitVec 64 := BitVec.ofNat 64 ((c.toNat + 0x800) / 2 ^ 12 % 2 ^ 20)

/-- The lower immediate, the low 12 bits sign-extended. -/
def lower : BitVec 64 := (c.setWidth 12).signExtend 64

/-- The 32-bit value of the upper immediate. -/
def upperValue : BitVec 32 := (upper c).setWidth 32 <<< 12

theorem toNat_upper : (upper c).toNat = (c.toNat + 0x800) / 2 ^ 12 % 2 ^ 20 := by
  rw [upper, BitVec.toNat_ofNat, Nat.mod_eq_of_lt (by omega)]

theorem toNat_upperValue : (upperValue c).toNat = (c.toNat + 0x800) / 2 ^ 12 % 2 ^ 20 * 2 ^ 12 := by
  rw [upperValue, BitVec.toNat_shiftLeft, BitVec.toNat_setWidth, toNat_upper, Nat.shiftLeft_eq]
  omega

theorem toNat_lower : (lower c).toNat =
    if c.toNat % 2 ^ 12 < 0x800 then c.toNat % 2 ^ 12 else c.toNat % 2 ^ 12 + (2 ^ 64 - 2 ^ 12) := by
  rw [lower, toNat_signExtend_of_le _ (by omega), BitVec.toNat_setWidth]
  split <;> split <;> omega

theorem lower_add_upperValue : (lower c).setWidth 32 + upperValue c = c := by
  apply BitVec.eq_of_toNat_eq
  have bound := c.isLt
  rw [BitVec.toNat_add, toNat_upperValue, BitVec.toNat_setWidth, toNat_lower]
  split <;> omega

theorem LUI_eq : LUI (upper c) = some ((upperValue c).signExtend 64) := by
  have small : (upper c).toNat < 2 ^ 20 := by
    rw [toNat_upper]
    omega
  have extended : ((upper c).setWidth 20).signExtend 64 <<< 12 = (upperValue c).signExtend 64 := by
    apply BitVec.eq_of_toNat_eq
    rw [BitVec.toNat_shiftLeft, toNat_signExtend_of_le _ (by omega), toNat_signExtend_of_le _ (by omega),
      BitVec.toNat_setWidth, toNat_upperValue, toNat_upper, Nat.shiftLeft_eq]
    generalize (c.toNat + 0x800) / 2 ^ 12 = u
    split <;> split <;> omega
  rw [LUI, truncNuw, if_pos small]
  exact congrArg some extended

theorem shifted_eq_iff : upper c <<< 12 = (upperValue c).signExtend 64 ↔ (upper c).toNat < 2 ^ 19 := by
  rw [← BitVec.toNat_inj, BitVec.toNat_shiftLeft, toNat_signExtend_of_le _ (by omega), toNat_upperValue,
    toNat_upper, Nat.shiftLeft_eq]
  generalize (c.toNat + 0x800) / 2 ^ 12 = u
  split <;> omega

theorem constant_materialised : (LUI (upper c)).bind (ADDIW · (lower c)) = some (c.signExtend 64) := by
  have word : ((upperValue c).signExtend 64).setWidth 32 = upperValue c :=
    setWidth_signExtend _ (by omega)
  rw [LUI_eq, Option.bind_some, ADDIW, word, lower_add_upperValue]
  rfl

/-- `AUIPC` and `ADDI` make an address relative to the program counter exactly where the upper
immediate is not negative. -/
theorem address_materialised_iff (pc : BitVec 64) :
    (AUIPC (upper c) pc).bind (ADDI · (lower c)) =
        some (pc + (upperValue c).signExtend 64 + lower c) ↔ (upper c).toNat < 2 ^ 19 := by
  have computed : (AUIPC (upper c) pc).bind (ADDI · (lower c)) =
      some (upper c <<< 12 + pc + lower c) := rfl
  rw [computed, ← shifted_eq_iff, BitVec.add_comm (upper c <<< 12), Option.some_inj]
  constructor
  · intro same
    exact add_left_cancel (add_right_cancel same)
  · intro same
    rw [same]

/-- A constant is always made, an address exactly where the upper immediate is below `2 ^ 19`. -/
theorem materialised_iff (c : BitVec 32) (pc : BitVec 64) :
    (LUI (upper c)).bind (ADDIW · (lower c)) = some (c.signExtend 64) ∧
      ((AUIPC (upper c) pc).bind (ADDI · (lower c)) =
          some (pc + (upperValue c).signExtend 64 + lower c) ↔ (upper c).toNat < 2 ^ 19) :=
  ⟨constant_materialised c, address_materialised_iff c pc⟩

/-- Data `0x1000` bytes in front of the instruction is looked for `0x100000000` bytes behind it. -/
theorem address_behind_missed :
    (AUIPC (upper (-0x1000)) 0x20000).bind (ADDI · (lower (-0x1000))) = some 0x10001f000 ∧
      0x20000 + (upperValue (-0x1000)).signExtend 64 + lower (-0x1000) = 0x1f000 ∧
      ¬∀ (c : BitVec 32) (pc : BitVec 64),
        (LUI (upper c)).bind (ADDIW · (lower c)) = some (c.signExtend 64) ∧
          (AUIPC (upper c) pc).bind (ADDI · (lower c)) =
            some (pc + (upperValue c).signExtend 64 + lower c) := by
  refine ⟨by decide, by decide, fun exact_ => ?_⟩
  exact absurd (exact_ (-0x1000) 0x20000).2 (by decide)

end Bleach.Templates
