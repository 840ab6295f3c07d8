import Mathlib.Data.BitVec
import Mathlib.Tactic.Common

/-! Condition flags: what an addition with carry sets, and what the conditions on the flags of
a subtraction say about its operands. -/
namespace ConditionFlags
variable {w : Nat}

/-- Negative, zero, carry, overflow. -/
structure Flags where
  n : Bool
  z : Bool
  c : Bool
  v : Bool
  deriving DecidableEq

/-- Carry and overflow say that the result is not the sum, unsigned or signed. -/
def addWithCarry (x y : BitVec w) (carry : Bool) : BitVec w × Flags :=
  let unsignedSum := x.toNat + y.toNat + carry.toNat
  let signedSum := x.toInt + y.toInt + carry.toNat
  let result := BitVec.ofNat w unsignedSum
  (result, ⟨result.msb, result = 0#w, result.toNat ≠ unsignedSum, result.toInt ≠ signedSum⟩)

/-- The flags of a subtraction: the carry is set when nothing is borrowed. -/
def subtractFlags (x y : BitVec w) : Flags := (addWithCarry x (~~~y) true).2

inductive Condition where
  | eq | ne | cs | cc | mi | pl
  deriving DecidableEq

/-- The flag a condition reads, and the value it waits for. -/
def Condition.holds (f : Flags) : Condition → Bool
  | eq => f.z
  | ne => !f.z
  | cs => f.c
  | cc => !f.c
  | mi => f.n
  | pl => !f.n

variable {x y : BitVec w}

theorem addWithCarry_false (x y : BitVec w) : (addWithCarry x y false).1 = x + y := by
  apply BitVec.eq_of_toNat_eq
  simp [addWithCarry]

theorem addWithCarry_not (x y : BitVec w) : (addWithCarry x (~~~y) true).1 = x - y := by
  apply BitVec.eq_of_toNat_eq
  have bound := y.isLt
  rw [addWithCarry, BitVec.toNat_sub, BitVec.toNat_ofNat, BitVec.toNat_not]
  congr 1
  simp only [Bool.toNat_true]
  omega

theorem add_zero_iff (x y : BitVec w) : (addWithCarry x y false).2.z = true ↔ x = -y := by
  change decide ((addWithCarry x y false).1 = 0#w) = true ↔ _
  rw [addWithCarry_false, decide_eq_true_iff]
  exact add_eq_zero_iff_eq_neg

theorem add_negative (x y : BitVec w) : (addWithCarry x y false).2.n = (x + y).msb := by
  rw [← addWithCarry_false]
  rfl

theorem add_overflow (x y : BitVec w) : (addWithCarry x y false).2.v = x.saddOverflow y := by
  change decide ((addWithCarry x y false).1.toInt ≠ x.toInt + y.toInt + (0 : Nat)) = _
  rw [addWithCarry_false, Nat.cast_zero, add_zero]
  by_cases fits : x.saddOverflow y = true
  · rw [fits, decide_eq_true_iff]
    intro same
    have low := BitVec.le_toInt (x + y)
    have high := BitVec.toInt_lt (x := x + y)
    rw [same] at low high
    simp only [BitVec.saddOverflow, Bool.or_eq_true, decide_eq_true_iff] at fits
    omega
  · rw [Bool.not_eq_true] at fits
    rw [fits, decide_eq_false_iff_not, not_not]
    exact BitVec.toInt_add_of_not_saddOverflow (by simp [fits])

theorem subtract_zero_iff (x y : BitVec w) : (subtractFlags x y).z = true ↔ x = y := by
  change decide ((addWithCarry x (~~~y) true).1 = 0#w) = true ↔ _
  rw [addWithCarry_not, decide_eq_true_iff]
  exact sub_eq_zero

theorem subtract_carry_iff (x y : BitVec w) : (subtractFlags x y).c = true ↔ y ≤ x := by
  change decide ((addWithCarry x (~~~y) true).1.toNat ≠ x.toNat + (~~~y).toNat + true.toNat) = true ↔ _
  have boundX := x.isLt
  have boundY := y.isLt
  rw [addWithCarry_not, decide_eq_true_iff, BitVec.toNat_sub, BitVec.toNat_not, BitVec.le_def,
    Bool.toNat_true]
  by_cases below : y.toNat ≤ x.toNat
  · rw [show 2 ^ w - y.toNat + x.toNat = x.toNat - y.toNat + 2 ^ w by omega, Nat.add_mod_right,
      Nat.mod_eq_of_lt (by omega)]
    omega
  · rw [Nat.mod_eq_of_lt (by omega)]
    omega

theorem subtract_negative (x y : BitVec w) : (subtractFlags x y).n = (x - y).msb := by
  rw [← addWithCarry_not]
  rfl

theorem mod_of_lt_double {n p : Nat} (bound : n < 2 * p) : n % p = if n < p then n else n - p := by
  split
  · exact Nat.mod_eq_of_lt ‹_›
  · rw [Nat.mod_eq_sub_mod (by omega), Nat.mod_eq_of_lt (by omega)]

/-- The signs of a sum and of a difference agree when the bits below the sign bit carry exactly
where they borrow. -/
theorem msb_add_eq_msb_sub_iff (x y : BitVec (w + 1)) : (x + y).msb = (x - y).msb ↔
    (2 ^ w ≤ x.toNat % 2 ^ w + y.toNat % 2 ^ w ↔ x.toNat % 2 ^ w < y.toNat % 2 ^ w) := by
  have boundX := x.isLt
  have boundY := y.isLt
  have double : 2 ^ (w + 1) = 2 * 2 ^ w := Nat.pow_succ'
  rw [Bool.eq_iff_iff, BitVec.msb_eq_true_iff_two_mul_ge, BitVec.msb_eq_true_iff_two_mul_ge,
    BitVec.toNat_add, BitVec.toNat_sub, double]
  rw [double] at boundX boundY
  generalize 2 ^ w = p at *
  rw [mod_of_lt_double boundX, mod_of_lt_double boundY,
    mod_of_lt_double (n := x.toNat + y.toNat) (by omega),
    mod_of_lt_double (n := 2 * p - y.toNat + x.toNat) (by omega)]
  split_ifs <;> omega

end ConditionFlags
