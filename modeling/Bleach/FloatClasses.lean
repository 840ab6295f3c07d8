import Bleach.FloatTemplates

/-! The class templates. Both test the ten classes and shift the answers to the order of the
architecture; the double one drops the signalling NaNs from the disjunction. -/
namespace Bleach.Templates
open FloatBits

/-- The bit RISC-V has for a class. -/
def classBit : FloatClass → Nat
  | .negInfinity => 0
  | .negNormal => 1
  | .negSubnormal => 2
  | .negZero => 3
  | .posZero => 4
  | .posSubnormal => 5
  | .posNormal => 6
  | .posInfinity => 7
  | .signalingNaN => 8
  | .quietNaN => 9

/-- One bit is set, that of the only class the pattern is of. -/
def Classifies {F : Format} (b : BitVec F.width) (result : BitVec 64) : Prop :=
  ∃ c : FloatClass, c.test b = true ∧ (∀ c' : FloatClass, c'.test b = true → c' = c) ∧
    result = BitVec.twoPow 64 (classBit c)

variable {F : Format} {b : BitVec F.width} {result : BitVec 64}

theorem classifies_iff : Classifies b result ↔ result = BitVec.twoPow 64 (classBit (classOf b)) := by
  simp only [Classifies, test_eq, decide_eq_true_eq]
  constructor
  · rintro ⟨c, rfl, -, bit⟩
    exact bit
  · intro bit
    exact ⟨_, rfl, fun c same => same.symm, bit⟩

theorem Classifies.getLsbD (classifies : Classifies b result) (i : Nat) :
    result.getLsbD i = true ↔ i = classBit (classOf b) := by
  have bound : classBit (classOf b) < 64 := by cases classOf b <;> decide
  rw [classifies_iff.mp classifies, BitVec.getLsbD_twoPow]
  simp [bound, eq_comm]

theorem FCLASS_S_eq (x : BitVec 64) :
    FCLASS_S x = BitVec.twoPow 64 (classBit (classOf (F := single) (x.setWidth 32))) := by
  simp only [FCLASS_S, isFpclass_eq]
  generalize classOf (F := single) (x.setWidth 32) = c
  cases c <;> decide

/-- A signalling double is of no class. -/
theorem FCLASS_D_eq (x : BitVec 64) :
    FCLASS_D x = if classOf (F := double) x = .signalingNaN then 0#64
      else BitVec.twoPow 64 (classBit (classOf (F := double) x)) := by
  simp only [FCLASS_D, isFpclass_eq]
  generalize classOf (F := double) x = c
  cases c <;> decide

/-- The single template classifies every pattern in the low half, the double template every
pattern but the signalling NaNs. -/
theorem class_one_hot_iff (x : BitVec 64) :
    Classifies (F := single) (x.setWidth 32) (FCLASS_S x) ∧
      (Classifies (F := double) x (FCLASS_D x) ↔
        FloatClass.signalingNaN.test (F := double) x = false) := by
  refine ⟨classifies_iff.mpr (FCLASS_S_eq x), ?_⟩
  have signaling := test_eq (F := double) x .signalingNaN
  rw [classifies_iff, FCLASS_D_eq, signaling, decide_eq_false_iff_not]
  split
  · rename_i same
    simp only [same, not_true_eq_false, iff_false]
    decide
  · rename_i other
    simp [other]

/-- The signalling NaN with the least payload has no bit. -/
theorem signaling_dropped :
    FCLASS_D 0x7ff0000000000001 = 0 ∧ FloatClass.signalingNaN.test (F := double) 0x7ff0000000000001 = true ∧
      ¬∀ x : BitVec 64, Classifies (F := single) (x.setWidth 32) (FCLASS_S x) ∧
        Classifies (F := double) x (FCLASS_D x) := by
  refine ⟨by decide, by decide, fun one_hot => ?_⟩
  have bit := classifies_iff.mp (one_hot 0x7ff0000000000001).2
  exact absurd bit (by decide)

end Bleach.Templates
