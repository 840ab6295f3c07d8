import Bleach.FloatTemplates
import Bleach.Base.FloatRounding
import Bleach.Base.IntegerOps

/-! Conversions between integers and floats. Most templates read and return an integer at the
width of the instruction; one reads too few bits, and two return the bits of a box. -/
namespace Bleach.Templates
open FloatBits IntegerOps

namespace Conversions
variable (conv : Conversions) (F : Format) (signed : Bool) (w : Nat)

/-- The float of the integer in the low `w` bits. -/
def fromInteger (x : BitVec 64) : BitVec F.width :=
  conv.ofInteger F (if signed then (x.setWidth w).toInt else (x.setWidth w).toNat)

/-- The integer of `w` bits of the float in the low bits, sign-extended. -/
def toInteger (x : BitVec 64) : BitVec 64 :=
  (if signed then conv.fptosi F w (x.setWidth F.width)
    else conv.fptoui F w (x.setWidth F.width)).signExtend 64

variable {signed w} (x : BitVec 64)

theorem toInteger_single : conv.toInteger single signed w x =
    (if signed then conv.fptosi single w (x.setWidth 32)
      else conv.fptoui single w (x.setWidth 32)).signExtend 64 := rfl

theorem toInteger_double : conv.toInteger double signed w x =
    (if signed then conv.fptosi double w x else conv.fptoui double w x).signExtend 64 := by
  have whole : x.setWidth double.width = x := BitVec.setWidth_eq x
  rw [toInteger, whole]

theorem fromInteger_whole : conv.fromInteger F signed 64 x =
    conv.ofInteger F (if signed then x.toInt else x.toNat) := by
  rw [fromInteger, BitVec.setWidth_eq]

end Conversions

inductive Conversion where
  | FCVT_S_W
  | FCVT_S_L
  | FCVT_S_WU
  | FCVT_W_S
  | FCVT_L_S
  | FCVT_LU_S
  | FCVT_WU_S
  | FCVT_D_LU
  | FCVT_WU_D
  | FCVT_D_WU
  | FCVT_D_W
  | FCVT_W_D
  | FCVT_L_D
  | FCVT_LU_D
  | FCVT_D_L
  deriving DecidableEq

namespace Conversion
variable (conv : Conversions)

/-- The template of an instruction. -/
def func : Conversion → BitVec 64 → BitVec 64
  | .FCVT_S_W => conv.FCVT_S_W
  | .FCVT_S_L => conv.FCVT_S_L
  | .FCVT_S_WU => conv.FCVT_S_WU
  | .FCVT_W_S => conv.FCVT_W_S
  | .FCVT_L_S => conv.FCVT_L_S
  | .FCVT_LU_S => conv.FCVT_LU_S
  | .FCVT_WU_S => conv.FCVT_WU_S
  | .FCVT_D_LU => conv.FCVT_D_LU
  | .FCVT_WU_D => conv.FCVT_WU_D
  | .FCVT_D_WU => conv.FCVT_D_WU
  | .FCVT_D_W => conv.FCVT_D_W
  | .FCVT_W_D => conv.FCVT_W_D
  | .FCVT_L_D => conv.FCVT_L_D
  | .FCVT_LU_D => conv.FCVT_LU_D
  | .FCVT_D_L => conv.FCVT_D_L

/-- What RISC-V gives an instruction: a single in its box, a double, or an integer. -/
def expected : Conversion → BitVec 64 → BitVec 64
  | .FCVT_S_W, x => boxed (conv.fromInteger single true 32 x)
  | .FCVT_S_L, x => boxed (conv.fromInteger single true 64 x)
  | .FCVT_S_WU, x => boxed (conv.fromInteger single false 32 x)
  | .FCVT_W_S, x => conv.toInteger single true 32 x
  | .FCVT_L_S, x => conv.toInteger single true 64 x
  | .FCVT_LU_S, x => conv.toInteger single false 64 x
  | .FCVT_WU_S, x => conv.toInteger single false 32 x
  | .FCVT_D_LU, x => conv.fromInteger double false 64 x
  | .FCVT_WU_D, x => conv.toInteger double false 32 x
  | .FCVT_D_WU, x => conv.fromInteger double false 32 x
  | .FCVT_D_W, x => conv.fromInteger double true 32 x
  | .FCVT_W_D, x => conv.toInteger double true 32 x
  | .FCVT_L_D, x => conv.toInteger double true 64 x
  | .FCVT_LU_D, x => conv.toInteger double false 64 x
  | .FCVT_D_L, x => conv.fromInteger double true 64 x

/-- The source of `FCVT_S_L` fits in 32 bits, and the integers that are boxed have their top
bit set. -/
def Fits (op : Conversion) (x : BitVec 64) : Prop :=
  match op with
  | .FCVT_S_L => -2 ^ 31 ≤ x.toInt ∧ x.toInt < 2 ^ 31
  | .FCVT_WU_S => (conv.fptoui single 32 (x.setWidth 32)).msb = true
  | .FCVT_W_D => (conv.fptosi double 32 x).msb = true
  | _ => True

end Conversion

theorem boxed_eq_signExtend_iff (v : BitVec 32) : boxed v = v.signExtend 64 ↔ v.msb = true := by
  have bound := v.isLt
  have ones : (BitVec.allOnes 32).toNat * 2 ^ 32 = 2 ^ 64 - 2 ^ 32 := by decide
  rw [boxed_eq, ← BitVec.toNat_inj, BitVec.toNat_append, Nat.shiftLeft_eq, ← Nat.shiftLeft_eq,
    ← Nat.shiftLeft_add_eq_or_of_lt bound, Nat.shiftLeft_eq, ones, toNat_signExtend_of_le v (by omega),
    BitVec.msb_eq_true_iff_two_mul_ge]
  split <;> omega

theorem representable_bounds : Representable single 0 ∧ Representable single (2 ^ 31) ∧
    Representable single (2 ^ 32) ∧ Representable single (-2 ^ 31) ∧ Representable single (-2 ^ 32) :=
  ⟨⟨0x00000000, by decide, by decide +kernel⟩, ⟨0x4f000000, by decide, by decide +kernel⟩,
    ⟨0x4f800000, by decide, by decide +kernel⟩, ⟨0xcf000000, by decide, by decide +kernel⟩,
    ⟨0xcf800000, by decide, by decide +kernel⟩⟩

theorem toInt_low (x : BitVec 64) : ∃ k : ℤ, x.toInt = (x.setWidth 32).toInt + k * 2 ^ 32 ∧
    -2 ^ 31 ≤ (x.setWidth 32).toInt ∧ (x.setWidth 32).toInt < 2 ^ 31 := by
  have bound := x.isLt
  refine ⟨(x.toInt - (x.setWidth 32).toInt) / 2 ^ 32, ?_⟩
  rw [BitVec.toInt_eq_toNat_cond, BitVec.toInt_eq_toNat_cond, BitVec.toNat_setWidth]
  split <;> split <;> omega

/-- A rounding to single tells an integer from its truncation where they differ. -/
theorem truncation_kept_iff {round : ℤ → BitVec single.width} (rounds : Rounds round) (x : BitVec 64) :
    round (x.setWidth 32).toInt = round x.toInt ↔ -2 ^ 31 ≤ x.toInt ∧ x.toInt < 2 ^ 31 := by
  obtain ⟨zero, half, whole, negHalf, negWhole⟩ := representable_bounds
  obtain ⟨k, source, lower, upper⟩ := toInt_low x
  constructor
  · intro same
    -- another integer with these low bits is at least `2 ^ 32` away
    by_contra outside
    by_cases above : 0 < k
    · by_cases negative : (x.setWidth 32).toInt < 0
      · exact rounds.separates zero half (by omega) (by norm_num) (by omega) same
      · exact rounds.separates half whole (by omega) (by norm_num) (by omega) same
    · by_cases negative : (x.setWidth 32).toInt < 0
      · exact rounds.separates negWhole negHalf (by omega) (by norm_num) (by omega) same.symm
      · exact rounds.separates negHalf zero (by omega) (by norm_num) (by omega) same.symm
  · rintro ⟨least, greatest⟩
    obtain rfl : k = 0 := by omega
    rw [source, Int.zero_mul, Int.add_zero]

/-- Every conversion respects the width of its integer exactly where the source of `FCVT_S_L`
fits in 32 bits and the integer `FCVT_WU_S` or `FCVT_W_D` boxes has its top bit set. -/
theorem conversion_width_iff (conv : Conversions) (rounds : Rounds (conv.ofInteger single))
    (op : Conversion) (x : BitVec 64) : op.func conv x = op.expected conv x ↔ op.Fits conv x := by
  cases op with
  | FCVT_S_L =>
    simp only [Conversion.expected, Conversions.fromInteger_whole, Conversion.Fits, ← truncation_kept_iff rounds]
    constructor
    · intro same
      exact boxed_inj same
    · intro same
      exact congrArg boxed same
  | FCVT_WU_S => exact boxed_eq_signExtend_iff (conv.fptoui single 32 (x.setWidth 32))
  | FCVT_W_D =>
    rw [Conversion.expected, Conversions.toInteger_double]
    exact boxed_eq_signExtend_iff (conv.fptosi double 32 x)
  | FCVT_S_W | FCVT_S_WU | FCVT_D_WU | FCVT_D_W | FCVT_W_S => exact iff_of_true rfl trivial
  | FCVT_D_LU | FCVT_D_L =>
    refine iff_of_true ?_ trivial
    rw [Conversion.expected, Conversions.fromInteger_whole]
    rfl
  | FCVT_L_S | FCVT_LU_S =>
    refine iff_of_true ?_ trivial
    rw [Conversion.expected, Conversions.toInteger_single, BitVec.signExtend_eq]
    rfl
  | FCVT_L_D | FCVT_LU_D =>
    refine iff_of_true ?_ trivial
    rw [Conversion.expected, Conversions.toInteger_double, BitVec.signExtend_eq]
    rfl
  | FCVT_WU_D =>
    refine iff_of_true ?_ trivial
    rw [Conversion.expected, Conversions.toInteger_double]
    rfl

/-- A finite number without its fraction. -/
def truncated {F : Format} (b : BitVec F.width) : ℤ :=
  if 0 ≤ finiteValue b then (finiteValue b).floor else (finiteValue b).ceil

/-- Integers are rounded down and floats towards zero. -/
noncomputable def towardsZero : Conversions where
  ofInteger := roundDown
  fptosi _ w b := BitVec.ofInt w (truncated b)
  fptoui _ w b := BitVec.ofInt w (truncated b)

theorem small_long_converted :
    Conversion.FCVT_S_L.func towardsZero (-5) = Conversion.FCVT_S_L.expected towardsZero (-5) :=
  (conversion_width_iff towardsZero (rounds_roundDown single) .FCVT_S_L (-5)).mpr ⟨by decide, by decide⟩

/-- `1.0` is converted to `0xffffffff00000001`, unsigned from single and signed from double. -/
theorem converted_one_boxed :
    Conversion.FCVT_WU_S.func towardsZero 0x3f800000 = 0xffffffff00000001 ∧
      Conversion.FCVT_WU_S.expected towardsZero 0x3f800000 = 1 ∧
      Conversion.FCVT_W_D.func towardsZero 0x3ff0000000000000 = 0xffffffff00000001 ∧
      Conversion.FCVT_W_D.expected towardsZero 0x3ff0000000000000 = 1 ∧
      ¬∀ conv : Conversions, Rounds (conv.ofInteger single) → ∀ (op : Conversion) (x : BitVec 64),
        op.func conv x = op.expected conv x := by
  refine ⟨by decide +kernel, by decide +kernel, by decide +kernel, by decide +kernel, fun respects => ?_⟩
  have same := respects towardsZero (rounds_roundDown single) .FCVT_WU_S 0x3f800000
  exact absurd same (by decide +kernel)

end Bleach.Templates
