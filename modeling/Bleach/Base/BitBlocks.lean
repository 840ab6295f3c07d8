import Mathlib.Tactic.Abel
import Mathlib.Tactic.SplitIfs
import Mathlib.Data.BitVec

/-! Bitwise operations on numbers of two blocks, when the second operand is a small signed
number: what is added to the upper block stays apart. -/
namespace BitBlocks
variable {q p : Nat}

theorem toNat_append_eq (h : BitVec q) (l : BitVec p) : (h ++ l).toNat = h.toNat * 2 ^ p + l.toNat := by
  rw [BitVec.toNat_append, ← Nat.shiftLeft_add_eq_or_of_lt l.isLt, Nat.shiftLeft_eq]

theorem exists_append (x : BitVec (q + p)) : ∃ (h : BitVec q) (l : BitVec p), x = h ++ l := by
  have bound := x.isLt
  rw [Nat.pow_add] at bound
  have upper : x.toNat / 2 ^ p < 2 ^ q := Nat.div_lt_of_lt_mul (by rwa [Nat.mul_comm])
  have lower : x.toNat % 2 ^ p < 2 ^ p := Nat.mod_lt _ (Nat.two_pow_pos p)
  refine ⟨.ofNat q (x.toNat / 2 ^ p), .ofNat p (x.toNat % 2 ^ p), BitVec.eq_of_toNat_eq ?_⟩
  rw [toNat_append_eq, BitVec.toNat_ofNat, BitVec.toNat_ofNat, Nat.mod_eq_of_lt upper,
    Nat.mod_eq_of_lt lower, Nat.div_add_mod']

theorem append_add_upper (h d : BitVec q) (l : BitVec p) : h ++ l + (d ++ 0#p) = (h + d) ++ l := by
  apply BitVec.eq_of_toNat_eq
  have scaled : (h.toNat * 2 ^ p + l.toNat + d.toNat * 2 ^ p) % 2 ^ (q + p) =
      (h.toNat + d.toNat) % 2 ^ q * 2 ^ p + l.toNat := by
    rw [Nat.add_right_comm, ← Nat.add_mul, Nat.add_comm q p, Nat.pow_add, Nat.mod_mul,
      Nat.mul_add_mod_self_right, Nat.mod_eq_of_lt l.isLt, Nat.mul_comm (_ + _), Nat.mul_add_div
      (Nat.two_pow_pos p), Nat.div_eq_of_lt l.isLt, Nat.add_zero, Nat.mul_comm (2 ^ p), Nat.add_comm]
  rw [BitVec.toNat_add, toNat_append_eq, toNat_append_eq, toNat_append_eq, BitVec.toNat_add,
    BitVec.toNat_ofNat, Nat.zero_mod, Nat.add_zero, scaled]

theorem ofNat_append {n : Nat} (small : n < 2 ^ p) : BitVec.ofNat (q + p) n = 0#q ++ BitVec.ofNat p n := by
  apply BitVec.eq_of_toNat_eq
  have fits : n < 2 ^ (q + p) := Nat.lt_of_lt_of_le small (Nat.pow_le_pow_right (by omega) (by omega))
  rw [toNat_append_eq, BitVec.toNat_ofNat, BitVec.toNat_ofNat, BitVec.toNat_ofNat, Nat.zero_mod,
    Nat.zero_mul, Nat.zero_add, Nat.mod_eq_of_lt small, Nat.mod_eq_of_lt fits]

/-- The upper block of a small signed number repeats its sign. -/
theorem ofInt_append {j : Int} (small : -2 ^ p ≤ j ∧ j < 2 ^ p) :
    BitVec.ofInt (q + p) j = (if j < 0 then BitVec.allOnes q else 0#q) ++ BitVec.ofInt p j := by
  obtain ⟨above, below⟩ := small
  cases j with
  | ofNat n =>
    rw [Int.ofNat_eq_natCast] at below ⊢
    have fits : n < 2 ^ p := by exact_mod_cast below
    rw [if_neg (Int.not_lt.mpr (Int.natCast_nonneg n)), BitVec.ofInt_natCast, BitVec.ofInt_natCast,
      ofNat_append fits]
  | negSucc n =>
    have fits : n < 2 ^ p := by
      rw [Int.negSucc_eq] at above
      have cast : ((2 ^ p : Nat) : Int) = 2 ^ p := by push_cast; rfl
      omega
    rw [if_pos (Int.negSucc_lt_zero n), BitVec.ofInt_negSucc_eq_not_ofNat,
      BitVec.ofInt_negSucc_eq_not_ofNat, ofNat_append fits, BitVec.not_append, BitVec.not_zero]

variable {j : Int} (d : BitVec q) (x : BitVec (q + p))

theorem and_add_upper (small : -2 ^ p ≤ j ∧ j < 2 ^ p) : (x + (d ++ 0#p)) &&& BitVec.ofInt (q + p) j =
    (x &&& BitVec.ofInt (q + p) j) + if j < 0 then d ++ 0#p else 0 := by
  obtain ⟨h, l, rfl⟩ := exists_append x
  rw [ofInt_append small, append_add_upper, BitVec.and_append, BitVec.and_append]
  split_ifs
  · rw [BitVec.and_allOnes, BitVec.and_allOnes, append_add_upper]
  · rw [BitVec.and_zero, BitVec.and_zero, add_zero]

theorem or_add_upper (small : -2 ^ p ≤ j ∧ j < 2 ^ p) : (x + (d ++ 0#p)) ||| BitVec.ofInt (q + p) j =
    (x ||| BitVec.ofInt (q + p) j) + if j < 0 then 0 else d ++ 0#p := by
  obtain ⟨h, l, rfl⟩ := exists_append x
  rw [ofInt_append small, append_add_upper, BitVec.or_append, BitVec.or_append]
  split_ifs
  · rw [BitVec.or_allOnes, BitVec.or_allOnes, add_zero]
  · rw [BitVec.or_zero, BitVec.or_zero, append_add_upper]

theorem xor_add_upper (small : -2 ^ p ≤ j ∧ j < 2 ^ p) : (x + (d ++ 0#p)) ^^^ BitVec.ofInt (q + p) j =
    (x ^^^ BitVec.ofInt (q + p) j) + if j < 0 then -d ++ 0#p else d ++ 0#p := by
  obtain ⟨h, l, rfl⟩ := exists_append x
  rw [ofInt_append small, append_add_upper, BitVec.xor_append, BitVec.xor_append]
  split_ifs
  · have flipped : (h + d) ^^^ BitVec.allOnes q = (h ^^^ BitVec.allOnes q) + -d := by
      rw [BitVec.xor_allOnes, BitVec.xor_allOnes, BitVec.not_eq_neg_add, BitVec.not_eq_neg_add]
      abel
    rw [flipped, append_add_upper]
  · rw [BitVec.xor_zero, BitVec.xor_zero, append_add_upper]

end BitBlocks
