import Mathlib.Algebra.Group.Int.Defs
import Mathlib.Algebra.Group.Nat.Defs
import Mathlib.Data.Int.DivMod
import Mathlib.Data.Option.Basic

/-! Integer instructions that are not defined everywhere: `none` is undefined behaviour or a
poison value. -/
namespace IntegerOps
variable {w : Nat}

/-- The quotient of the least number by minus one does not fit. -/
def Overflows (a b : BitVec w) : Prop := a = BitVec.intMin w ∧ b = -1#w

instance (a b : BitVec w) : Decidable (Overflows a b) := inferInstanceAs (Decidable (_ ∧ _))

def udiv (a b : BitVec w) : Option (BitVec w) := if b = 0#w then none else some (a / b)

def urem (a b : BitVec w) : Option (BitVec w) := if b = 0#w then none else some (a % b)

def sdiv (a b : BitVec w) : Option (BitVec w) :=
  if b = 0#w ∨ Overflows a b then none else some (a.sdiv b)

def srem (a b : BitVec w) : Option (BitVec w) :=
  if b = 0#w ∨ Overflows a b then none else some (a.srem b)

/-- `trunc nuw`: the bits dropped are zero. -/
def truncNuw (a : BitVec w) (dest : Nat) : Option (BitVec dest) :=
  if a.toNat < 2 ^ dest then some (a.setWidth dest) else none

/-- A shift by the width or more is poison. -/
def shl (a b : BitVec w) : Option (BitVec w) := if b.toNat < w then some (a <<< b) else none

def lshr (a b : BitVec w) : Option (BitVec w) := if b.toNat < w then some (a >>> b) else none

def ashr (a b : BitVec w) : Option (BitVec w) :=
  if b.toNat < w then some (a.sshiftRight b.toNat) else none

/-- `mul nsw`: the signed product fits. -/
def mulNsw (a b : BitVec w) : Option (BitVec w) := if a.smulOverflow b then none else some (a * b)

/-- `mul nuw`: the unsigned product fits. -/
def mulNuw (a b : BitVec w) : Option (BitVec w) := if a.umulOverflow b then none else some (a * b)

variable {a b : BitVec w}

theorem shl_of_lt (small : b.toNat < w) : shl a b = some (a <<< b.toNat) := if_pos small

theorem lshr_of_lt (small : b.toNat < w) : lshr a b = some (a >>> b.toNat) := if_pos small

theorem ashr_of_lt (small : b.toNat < w) : ashr a b = some (a.sshiftRight b.toNat) := if_pos small

/-- Where it is defined, signed division rounds towards zero. -/
theorem sdiv_eq_tdiv (fits : ¬Overflows a b) : a.sdiv b = BitVec.ofInt w (a.toInt.tdiv b.toInt) := by
  have either : a ≠ BitVec.intMin w ∨ b ≠ -1#w := not_and_or.mp fits
  rw [← BitVec.toInt_sdiv_of_ne_or_ne a b either, BitVec.ofInt_toInt]

theorem srem_eq_tmod (a b : BitVec w) : a.srem b = BitVec.ofInt w (a.toInt.tmod b.toInt) := by
  rw [← BitVec.toInt_srem, BitVec.ofInt_toInt]

theorem udiv_eq_div (a b : BitVec w) : a / b = BitVec.ofNat w (a.toNat / b.toNat) := BitVec.udiv_def

theorem umod_eq_mod (a b : BitVec w) : a % b = BitVec.ofNat w (a.toNat % b.toNat) := BitVec.umod_def

theorem mulNsw_of_fits (low : -2 ^ (w - 1) ≤ a.toInt * b.toInt) (high : a.toInt * b.toInt < 2 ^ (w - 1)) :
    mulNsw a b = some (a * b) := by
  have fits : a.smulOverflow b = false := by
    simp only [BitVec.smulOverflow, Bool.or_eq_false_iff, decide_eq_false_iff_not]
    exact ⟨Int.not_le.mpr high, Int.not_lt.mpr low⟩
  simp [mulNsw, fits]

theorem mulNuw_of_fits (high : a.toNat * b.toNat < 2 ^ w) : mulNuw a b = some (a * b) := by
  have fits : a.umulOverflow b = false := by
    simp only [BitVec.umulOverflow, decide_eq_false_iff_not]
    exact Nat.not_le.mpr high
  simp [mulNuw, fits]

theorem toNat_signExtend_of_le {v : Nat} (x : BitVec w) (wide : w ≤ v) : (x.signExtend v).toNat =
    if 2 * x.toNat < 2 ^ w then x.toNat else x.toNat + (2 ^ v - 2 ^ w) := by
  have sign := BitVec.msb_eq_true_iff_two_mul_ge (x := x)
  rw [BitVec.toNat_signExtend, BitVec.toNat_setWidth_of_le wide]
  by_cases low : 2 * x.toNat < 2 ^ w
  · rw [if_pos low, if_neg (fun set => Nat.not_lt.mpr (sign.mp set) low), Nat.add_zero]
  · rw [if_neg low, if_pos (sign.mpr (Nat.not_lt.mp low))]

theorem setWidth_signExtend {v : Nat} (x : BitVec w) (wide : w ≤ v) : (x.signExtend v).setWidth w = x := by
  apply BitVec.eq_of_toNat_eq
  have bound := x.isLt
  obtain ⟨k, rfl⟩ := Nat.exists_eq_add_of_le wide
  rw [BitVec.toNat_setWidth, toNat_signExtend_of_le x wide]
  split
  · exact Nat.mod_eq_of_lt bound
  · have whole : x.toNat + (2 ^ (w + k) - 2 ^ w) = x.toNat + 2 ^ w * (2 ^ k - 1) := by
      rw [Nat.pow_add, Nat.mul_sub, Nat.mul_one]
    rw [whole, Nat.add_mul_mod_self_left, Nat.mod_eq_of_lt bound]

end IntegerOps
