import Mathlib.Algebra.Group.Nat.Defs
import Mathlib.Data.List.Basic

/-! Hexadecimal digits, written from the last one on and read from the first one on. -/
namespace HexText

/-- Upper case. -/
def digit (d : Nat) : Char := Char.ofNat (if d < 10 then 48 + d else 55 + d)

def digitValue (c : Char) : Option Nat :=
  if '0' ≤ c ∧ c ≤ '9' then some (c.toNat - 48)
  else if 'A' ≤ c ∧ c ≤ 'F' then some (c.toNat - 55)
  else if 'a' ≤ c ∧ c ≤ 'f' then some (c.toNat - 87)
  else none

/-- At most `fuel` digits of a number, in front of `later`. -/
def digitsFrom : Nat → Nat → List Char → List Char
  | 0, _, later => later
  | fuel + 1, n, later => if n = 0 then later else digitsFrom fuel (n / 16) (digit (n % 16) :: later)

/-- What the digits add behind a number. -/
def valueFrom : Nat → List Char → Option Nat
  | n, [] => some n
  | n, c :: later => (digitValue c).bind fun d => valueFrom (16 * n + d) later

theorem digitValue_digit : ∀ d < 16, digitValue (digit d) = some d := by decide

/-- The digits of a number are read as the number. -/
theorem valueFrom_digitsFrom {fuel n : Nat} (bound : n < 16 ^ fuel) (later : List Char) :
    valueFrom 0 (digitsFrom fuel n later) = valueFrom n later := by
  induction fuel generalizing n later with
  | zero =>
    obtain rfl : n = 0 := by simpa using bound
    rfl
  | succ fuel ih =>
    rw [digitsFrom]
    split
    · next zero => rw [zero]
    · have quotient : n / 16 < 16 ^ fuel := by
        rw [Nat.pow_succ] at bound
        omega
      rw [ih quotient, valueFrom, digitValue_digit _ (Nat.mod_lt _ (by decide)), Option.bind_some,
        Nat.div_add_mod]

theorem digitsFrom_ne_nil {fuel n : Nat} {later : List Char} (nonempty : later ≠ []) :
    digitsFrom fuel n later ≠ [] := by
  induction fuel generalizing n later with
  | zero => exact nonempty
  | succ fuel ih =>
    rw [digitsFrom]
    split
    · exact nonempty
    · exact ih (List.cons_ne_nil _ _)

end HexText
