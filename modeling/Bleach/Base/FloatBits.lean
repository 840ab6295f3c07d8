import Mathlib.Algebra.Order.Field.Rat
import Mathlib.Algebra.Order.Field.Power
import Mathlib.Data.Nat.Log
import Mathlib.Order.WithBot
import Mathlib.Tactic.Linarith
import Mathlib.Tactic.Ring
import Mathlib.Tactic.FieldSimp

/-! Binary interchange formats. A number is its bit pattern; what it stands for, its class
and the exact conversion to a wider format are read off the three fields. -/
namespace FloatBits

structure Format where
  exponentBits : Nat
  fractionBits : Nat
  exponent_pos : 0 < exponentBits

abbrev single : Format := ⟨8, 23, by omega⟩
abbrev double : Format := ⟨11, 52, by omega⟩

namespace Format
variable (F : Format)

abbrev width : Nat := F.fractionBits + F.exponentBits + 1

/-- The exponent of infinities and NaNs. -/
def maxExponent : Nat := 2 ^ F.exponentBits - 1

def bias : Nat := 2 ^ (F.exponentBits - 1) - 1

theorem maxExponent_eq : F.maxExponent = 2 * F.bias + 1 := by
  have positive := F.exponent_pos
  have twice : 2 ^ F.exponentBits = 2 * 2 ^ (F.exponentBits - 1) := by
    rw [← Nat.pow_succ', Nat.succ_eq_add_one, Nat.sub_add_cancel positive]
  have one := Nat.one_le_two_pow (n := F.exponentBits - 1)
  unfold maxExponent bias
  omega

theorem maxExponent_lt : F.maxExponent < 2 ^ F.exponentBits :=
  Nat.sub_lt (Nat.two_pow_pos _) Nat.one_pos

end Format

section Fields
variable {F : Format} (b : BitVec F.width)

def negative : Bool := b.msb

def exponent : Nat := b.toNat / 2 ^ F.fractionBits % 2 ^ F.exponentBits

def fraction : Nat := b.toNat % 2 ^ F.fractionBits

def isNaN : Bool := exponent b = F.maxExponent ∧ fraction b ≠ 0

def isZero : Bool := exponent b = 0 ∧ fraction b = 0

theorem exponent_lt : exponent b < 2 ^ F.exponentBits := Nat.mod_lt _ (Nat.two_pow_pos _)

theorem exponent_le : exponent b ≤ F.maxExponent := Nat.le_sub_one_of_lt (exponent_lt b)

theorem fraction_lt : fraction b < 2 ^ F.fractionBits := Nat.mod_lt _ (Nat.two_pow_pos _)

/-- The fields make up the pattern. -/
theorem toNat_eq_fields : b.toNat =
    (negative b).toNat * 2 ^ (F.fractionBits + F.exponentBits) +
      exponent b * 2 ^ F.fractionBits + fraction b := by
  have high : (negative b).toNat = b.toNat / 2 ^ (F.fractionBits + F.exponentBits) := by
    have bound : b.toNat < 2 ^ (F.fractionBits + F.exponentBits) * 2 :=
      b.isLt.trans_eq (Nat.pow_succ ..)
    have small : b.toNat / 2 ^ (F.fractionBits + F.exponentBits) < 2 := Nat.div_lt_of_lt_mul bound
    rw [negative, BitVec.msb_eq_decide]
    simp only [Format.width, Nat.add_sub_cancel]
    by_cases set : 2 ^ (F.fractionBits + F.exponentBits) ≤ b.toNat
    · have one : 1 ≤ b.toNat / 2 ^ (F.fractionBits + F.exponentBits) :=
        (Nat.one_le_div_iff (Nat.two_pow_pos _)).mpr set
      simp only [set, decide_true, Bool.toNat_true]
      omega
    · rw [Nat.div_eq_of_lt (by omega)]
      simp [set]
  have low := Nat.div_add_mod b.toNat (2 ^ F.fractionBits)
  have middle := Nat.div_add_mod (b.toNat / 2 ^ F.fractionBits) (2 ^ F.exponentBits)
  rw [Nat.div_div_eq_div_mul, ← Nat.pow_add, ← high] at middle
  calc b.toNat
      = 2 ^ F.fractionBits * (2 ^ F.exponentBits * (negative b).toNat + exponent b) + fraction b := by
        rw [exponent, middle, fraction, low]
    _ = _ := by rw [Nat.pow_add]; ring

/-- Patterns with equal fields are equal. -/
theorem eq_of_fields {b c : BitVec F.width} (sign : negative b = negative c)
    (same : exponent b = exponent c) (frac : fraction b = fraction c) : b = c := by
  apply BitVec.eq_of_toNat_eq
  rw [toNat_eq_fields b, toNat_eq_fields c, sign, same, frac]

end Fields

section Pack
variable (F : Format)

def pack (sign : Bool) (exponent fraction : Nat) : BitVec F.width :=
  BitVec.ofNat _ (sign.toNat * 2 ^ (F.fractionBits + F.exponentBits) +
    exponent * 2 ^ F.fractionBits + fraction)

variable {F} {e f : Nat} (sign : Bool) (he : e < 2 ^ F.exponentBits) (hf : f < 2 ^ F.fractionBits)

include he hf

theorem low_lt : e * 2 ^ F.fractionBits + f < 2 ^ (F.fractionBits + F.exponentBits) :=
  calc e * 2 ^ F.fractionBits + f
      < (e + 1) * 2 ^ F.fractionBits := by rw [Nat.add_mul]; omega
    _ ≤ 2 ^ F.exponentBits * 2 ^ F.fractionBits := Nat.mul_le_mul_right _ he
    _ = _ := by rw [Nat.pow_add, Nat.mul_comm]

theorem toNat_pack : (pack F sign e f).toNat =
    sign.toNat * 2 ^ (F.fractionBits + F.exponentBits) + (e * 2 ^ F.fractionBits + f) := by
  have low := low_lt he hf
  rw [pack, BitVec.toNat_ofNat, Nat.add_assoc, Nat.mod_eq_of_lt]
  rw [show F.width = F.fractionBits + F.exponentBits + 1 from rfl, Nat.pow_succ]
  cases sign <;> simp only [Bool.toNat_true, Bool.toNat_false] <;> omega

theorem negative_pack : negative (pack F sign e f) = sign := by
  have low := low_lt he hf
  rw [negative, BitVec.msb_eq_decide, toNat_pack sign he hf]
  simp only [Format.width, Nat.add_sub_cancel]
  cases sign <;> simp only [Bool.toNat_true, Bool.toNat_false, decide_eq_true_eq, decide_eq_false_iff_not] <;>
    omega

theorem exponent_pack : exponent (pack F sign e f) = e := by
  rw [exponent, toNat_pack sign he hf, Nat.pow_add]
  have split : sign.toNat * (2 ^ F.fractionBits * 2 ^ F.exponentBits) + (e * 2 ^ F.fractionBits + f) =
      f + 2 ^ F.fractionBits * (e + 2 ^ F.exponentBits * sign.toNat) := by ring
  rw [split, Nat.add_mul_div_left _ _ (Nat.two_pow_pos _), Nat.div_eq_of_lt hf, Nat.zero_add,
    Nat.add_mul_mod_self_left, Nat.mod_eq_of_lt he]

theorem fraction_pack : fraction (pack F sign e f) = f := by
  rw [fraction, toNat_pack sign he hf, Nat.pow_add]
  have split : sign.toNat * (2 ^ F.fractionBits * 2 ^ F.exponentBits) + (e * 2 ^ F.fractionBits + f) =
      f + 2 ^ F.fractionBits * (e + 2 ^ F.exponentBits * sign.toNat) := by ring
  rw [split, Nat.add_mul_mod_self_left, Nat.mod_eq_of_lt hf]

end Pack

inductive FloatClass where
  | signalingNaN
  | quietNaN
  | negInfinity
  | negNormal
  | negSubnormal
  | negZero
  | posZero
  | posSubnormal
  | posNormal
  | posInfinity
  deriving DecidableEq

/-- Whether a pattern is of a class. -/
def FloatClass.test {F : Format} (b : BitVec F.width) : FloatClass → Bool
  | .signalingNaN => exponent b = F.maxExponent ∧ fraction b ≠ 0 ∧ fraction b < 2 ^ (F.fractionBits - 1)
  | .quietNaN => exponent b = F.maxExponent ∧ 2 ^ (F.fractionBits - 1) ≤ fraction b
  | .negInfinity => negative b ∧ exponent b = F.maxExponent ∧ fraction b = 0
  | .negNormal => negative b ∧ exponent b ≠ 0 ∧ exponent b ≠ F.maxExponent
  | .negSubnormal => negative b ∧ exponent b = 0 ∧ fraction b ≠ 0
  | .negZero => negative b ∧ isZero b
  | .posZero => ¬negative b ∧ isZero b
  | .posSubnormal => ¬negative b ∧ exponent b = 0 ∧ fraction b ≠ 0
  | .posNormal => ¬negative b ∧ exponent b ≠ 0 ∧ exponent b ≠ F.maxExponent
  | .posInfinity => ¬negative b ∧ exponent b = F.maxExponent ∧ fraction b = 0

section Classes
variable {F : Format} (b : BitVec F.width)

/-- The class, decided field by field. -/
def classOf : FloatClass :=
  if exponent b = F.maxExponent then
    if fraction b = 0 then if negative b then .negInfinity else .posInfinity
    else if fraction b < 2 ^ (F.fractionBits - 1) then .signalingNaN else .quietNaN
  else if exponent b = 0 then
    if fraction b = 0 then if negative b then .negZero else .posZero
    else if negative b then .negSubnormal else .posSubnormal
  else if negative b then .negNormal else .posNormal

theorem maxExponent_ne_zero (F : Format) : F.maxExponent ≠ 0 := by
  rw [F.maxExponent_eq]
  omega

/-- Every pattern is of one class and of no other. -/
theorem test_eq (c : FloatClass) : c.test b = decide (classOf b = c) := by
  have some := maxExponent_ne_zero F
  have quiet := Nat.two_pow_pos (F.fractionBits - 1)
  rw [classOf]
  split_ifs with top zero sign small low zero sign sign sign <;>
    cases c <;> simp_all [FloatClass.test, isZero]

end Classes

/-- The rational numbers and both infinities. -/
abbrev Extended := WithBot (WithTop ℚ)

def ofRat (q : ℚ) : Extended := ((q : WithTop ℚ) : WithBot (WithTop ℚ))

def infinity : Bool → Extended
  | true => ⊥
  | false => ((⊤ : WithTop ℚ) : WithBot (WithTop ℚ))

theorem ofRat_inj {p q : ℚ} (same : ofRat p = ofRat q) : p = q :=
  WithTop.coe_injective (WithBot.coe_injective same)

theorem infinity_inj {s t : Bool} (same : infinity s = infinity t) : s = t := by
  cases s <;> cases t <;> simp_all [infinity]

theorem ofRat_ne_infinity (q : ℚ) (s : Bool) : ofRat q ≠ infinity s := by
  cases s with
  | true => exact WithBot.coe_ne_bot
  | false => exact fun same => WithTop.coe_ne_top (WithBot.coe_injective same)

section Values
variable {F : Format} (b : BitVec F.width)

/-- The magnitude the fields of a finite number stand for, in units of the least subnormal one. -/
def unitsOf (F : Format) (exponent fraction : Nat) : Nat :=
  if exponent = 0 then fraction else (2 ^ F.fractionBits + fraction) * 2 ^ (exponent - 1)

def units : Nat := unitsOf F (exponent b) (fraction b)

/-- The least subnormal number. -/
def Format.unit (F : Format) : ℚ := 2 ^ (1 - (F.bias : ℤ) - F.fractionBits)

theorem Format.unit_pos (F : Format) : 0 < F.unit := zpow_pos (by norm_num) _

def finiteValue : ℚ := if negative b then -(units b * F.unit) else units b * F.unit

/-- What a pattern that is no NaN stands for. -/
def value : Extended :=
  if exponent b = F.maxExponent then infinity (negative b) else ofRat (finiteValue b)

theorem value_finite (finite : exponent b ≠ F.maxExponent) : value b = ofRat (finiteValue b) :=
  if_neg finite

theorem value_infinite (top : exponent b = F.maxExponent) : value b = infinity (negative b) :=
  if_pos top

theorem units_lt : units b < 2 ^ (F.fractionBits + exponent b) := by
  have frac := fraction_lt b
  unfold units unitsOf
  split
  · exact frac.trans_le (Nat.pow_le_pow_right (by omega) (by omega))
  · rename_i normal
    obtain ⟨e, he⟩ := Nat.exists_eq_succ_of_ne_zero normal
    rw [he, Nat.succ_eq_add_one, Nat.add_sub_cancel, Nat.pow_add, Nat.pow_succ']
    calc (2 ^ F.fractionBits + fraction b) * 2 ^ e
        < (2 ^ F.fractionBits * 2) * 2 ^ e := Nat.mul_lt_mul_of_pos_right (by omega) (Nat.two_pow_pos _)
      _ = _ := by ring

theorem le_units (normal : exponent b ≠ 0) : 2 ^ (F.fractionBits + (exponent b - 1)) ≤ units b := by
  rw [units, unitsOf, if_neg normal, Nat.pow_add]
  exact Nat.mul_le_mul_right _ (Nat.le_add_right ..)

variable {b} {c : BitVec F.width}

theorem units_lt_units (lower : exponent b < exponent c) : units b < units c := by
  have normal : exponent c ≠ 0 := by omega
  calc units b < 2 ^ (F.fractionBits + exponent b) := units_lt b
    _ ≤ 2 ^ (F.fractionBits + (exponent c - 1)) := Nat.pow_le_pow_right (by omega) (by omega)
    _ ≤ units c := le_units c normal

/-- The magnitude determines exponent and fraction. -/
theorem fields_of_units (same : units b = units c) : exponent b = exponent c ∧ fraction b = fraction c := by
  have equal : exponent b = exponent c := by
    rcases Nat.lt_trichotomy (exponent b) (exponent c) with lower | equal | higher
    · exact absurd same (units_lt_units lower).ne
    · exact equal
    · exact absurd same.symm (units_lt_units higher).ne
  refine ⟨equal, ?_⟩
  rw [units, units, unitsOf, unitsOf, equal] at same
  split at same
  · exact same
  · exact Nat.add_left_cancel (Nat.eq_of_mul_eq_mul_right (Nat.two_pow_pos _) same)

theorem isZero_of_units (none : units b = 0) : isZero b := by
  by_cases low : exponent b = 0
  · rw [units, unitsOf, if_pos low] at none
    simp [isZero, low, none]
  · have positive := Nat.two_pow_pos (F.fractionBits + (exponent b - 1))
    exact absurd none (positive.trans_le (le_units b low)).ne'

theorem value_of_isZero (zero : isZero b) : value b = ofRat 0 := by
  obtain ⟨low, none⟩ : exponent b = 0 ∧ fraction b = 0 := by simpa [isZero] using zero
  have finite : exponent b ≠ F.maxExponent := by
    rw [low]
    exact (maxExponent_ne_zero F).symm
  rw [value_finite b finite, finiteValue, units, unitsOf, if_pos low, none]
  simp

theorem finiteValue_inj (same : finiteValue b = finiteValue c) : b = c ∨ isZero b ∧ isZero c := by
  have unit := F.unit_pos
  have cancel {m n : Nat} (h : (m : ℚ) * F.unit = n * F.unit) : m = n := by
    exact_mod_cast mul_right_cancel₀ unit.ne' h
  have clash {m n : Nat} (h : -((m : ℚ) * F.unit) = n * F.unit) : m = 0 ∧ n = 0 := by
    have first : (0 : ℚ) ≤ m * F.unit := by positivity
    have second : (0 : ℚ) ≤ n * F.unit := by positivity
    have zero : (0 : ℚ) = n * F.unit := by linarith
    have zero' : (0 : ℚ) = m * F.unit := by linarith
    exact ⟨by simpa [unit.ne'] using zero'.symm, by simpa [unit.ne'] using zero.symm⟩
  simp only [finiteValue] at same
  cases left : negative b <;> cases right : negative c <;> simp only [left, right] at same
  · obtain ⟨exp, frac⟩ := fields_of_units (cancel (by simpa using same))
    exact .inl (eq_of_fields (left.trans right.symm) exp frac)
  · obtain ⟨none, none'⟩ := clash (by simpa using same.symm)
    exact .inr ⟨isZero_of_units none', isZero_of_units none⟩
  · obtain ⟨none, none'⟩ := clash (by simpa using same)
    exact .inr ⟨isZero_of_units none, isZero_of_units none'⟩
  · obtain ⟨exp, frac⟩ := fields_of_units (cancel (neg_inj.mp (by simpa using same)))
    exact .inl (eq_of_fields (left.trans right.symm) exp frac)

theorem fraction_of_not_isNaN (number : isNaN b = false) (top : exponent b = F.maxExponent) :
    fraction b = 0 := by
  simpa [isNaN, top] using number

/-- Numbers of one value are one pattern, the two zeros apart. -/
theorem value_inj (left : isNaN b = false) (right : isNaN c = false) (same : value b = value c) :
    b = c ∨ isZero b ∧ isZero c := by
  by_cases top : exponent b = F.maxExponent <;> by_cases top' : exponent c = F.maxExponent
  · have frac := fraction_of_not_isNaN left top
    have frac' := fraction_of_not_isNaN right top'
    rw [value_infinite b top, value_infinite c top'] at same
    exact .inl (eq_of_fields (infinity_inj same) (top.trans top'.symm) (frac.trans frac'.symm))
  · rw [value_infinite b top, value_finite c top'] at same
    exact absurd same.symm (ofRat_ne_infinity _ _)
  · rw [value_finite b top, value_infinite c top'] at same
    exact absurd same (ofRat_ne_infinity _ _)
  · rw [value_finite b top, value_finite c top'] at same
    exact finiteValue_inj (ofRat_inj same)

end Values

/-- The format `G` holds every number of `F`, the subnormal ones as normal ones. -/
structure Widens (F G : Format) : Prop where
  fraction : F.fractionBits ≤ G.fractionBits
  exponent : F.bias + F.fractionBits ≤ G.bias

theorem single_widens : Widens single double := ⟨by decide, by decide⟩

/-- The fields of the exact conversion. A subnormal number is shifted until its leading bit
is implicit. -/
def widenFields (F G : Format) (exponent fraction : Nat) : Nat × Nat :=
  if exponent = F.maxExponent then
    (G.maxExponent, fraction * 2 ^ (G.fractionBits - F.fractionBits))
  else if exponent = 0 then
    if fraction = 0 then (0, 0)
    else
      let k := Nat.log 2 fraction
      (k + 1 + (G.bias - F.bias - F.fractionBits), (fraction - 2 ^ k) * 2 ^ (G.fractionBits - k))
  else (exponent + (G.bias - F.bias), fraction * 2 ^ (G.fractionBits - F.fractionBits))

def widen {F : Format} (G : Format) (b : BitVec F.width) : BitVec G.width :=
  let fields := widenFields F G (exponent b) (fraction b)
  pack G (negative b) fields.1 fields.2

section Widen
variable {F G : Format} {b : BitVec F.width}

theorem shifted_lt {m n : Nat} (bound : m < 2 ^ n) (fits : n ≤ G.fractionBits) :
    m * 2 ^ (G.fractionBits - n) < 2 ^ G.fractionBits := by
  calc m * 2 ^ (G.fractionBits - n)
      < 2 ^ n * 2 ^ (G.fractionBits - n) := Nat.mul_lt_mul_of_pos_right bound (Nat.two_pow_pos _)
    _ = _ := by rw [← Nat.pow_add, Nat.add_sub_cancel' fits]

variable (widens : Widens F G)

include widens

/-- The units of both formats. -/
theorem unit_eq : F.unit = 2 ^ (G.bias + G.fractionBits - F.bias - F.fractionBits) * G.unit := by
  have frac := widens.fraction
  have exp := widens.exponent
  rw [Format.unit, Format.unit, ← zpow_natCast, ← zpow_add₀ (by norm_num)]
  congr 1
  omega

/-- The fields of a finite number become fields of the same magnitude. -/
theorem widenFields_finite {e f : Nat} (below : e < F.maxExponent) (hf : f < 2 ^ F.fractionBits) :
    (widenFields F G e f).1 < G.maxExponent ∧ (widenFields F G e f).2 < 2 ^ G.fractionBits ∧
      unitsOf G (widenFields F G e f).1 (widenFields F G e f).2 =
        unitsOf F e f * 2 ^ (G.bias + G.fractionBits - F.bias - F.fractionBits) := by
  have frac := widens.fraction
  have exp := widens.exponent
  have top := F.maxExponent_eq
  have top' := G.maxExponent_eq
  rw [widenFields, if_neg below.ne]
  by_cases low : e = 0
  · rw [if_pos low]
    by_cases zero : f = 0
    · rw [if_pos zero]
      refine ⟨by omega, Nat.two_pow_pos _, ?_⟩
      rw [unitsOf, unitsOf, if_pos rfl, if_pos low, zero, Nat.zero_mul]
    · -- a subnormal number: its leading bit is bit `k` of the fraction
      rw [if_neg zero]
      have leading := Nat.pow_log_le_self 2 zero
      have bound := Nat.lt_pow_succ_log_self (b := 2) (by omega) f
      have short : Nat.log 2 f < F.fractionBits := Nat.log_lt_of_lt_pow zero hf
      generalize Nat.log 2 f = k at *
      dsimp only
      rw [Nat.pow_succ] at bound
      refine ⟨by omega, shifted_lt (by omega) (by omega), ?_⟩
      have whole : 2 ^ G.fractionBits = 2 ^ k * 2 ^ (G.fractionBits - k) := by
        rw [← Nat.pow_add, Nat.add_sub_cancel' (by omega)]
      have split : G.bias + G.fractionBits - F.bias - F.fractionBits =
          (G.fractionBits - k) + (k + 1 + (G.bias - F.bias - F.fractionBits) - 1) := by omega
      rw [unitsOf, unitsOf, if_neg (by omega), if_pos low, whole, ← Nat.add_mul,
        Nat.add_sub_cancel' leading, split, Nat.pow_add, Nat.mul_assoc]
  · rw [if_neg low]
    refine ⟨by omega, shifted_lt hf frac, ?_⟩
    have whole : 2 ^ G.fractionBits = 2 ^ F.fractionBits * 2 ^ (G.fractionBits - F.fractionBits) := by
      rw [← Nat.pow_add, Nat.add_sub_cancel' frac]
    have split : e - 1 + (G.bias + G.fractionBits - F.bias - F.fractionBits) =
        (G.fractionBits - F.fractionBits) + (e + (G.bias - F.bias) - 1) := by omega
    rw [unitsOf, unitsOf, if_neg (by omega), if_neg low, whole, ← Nat.add_mul, Nat.mul_assoc,
      Nat.mul_assoc, ← Nat.pow_add, ← Nat.pow_add, split]

theorem widenFields_lt {e f : Nat} (he : e ≤ F.maxExponent) (hf : f < 2 ^ F.fractionBits) :
    (widenFields F G e f).1 < 2 ^ G.exponentBits ∧ (widenFields F G e f).2 < 2 ^ G.fractionBits := by
  rcases he.eq_or_lt with rfl | below
  · rw [widenFields, if_pos rfl]
    exact ⟨G.maxExponent_lt, shifted_lt hf widens.fraction⟩
  · obtain ⟨exp, frac, -⟩ := widenFields_finite widens below hf
    exact ⟨exp.trans G.maxExponent_lt, frac⟩

theorem negative_widen : negative (widen G b) = negative b :=
  have ⟨exp, frac⟩ := widenFields_lt widens (exponent_le b) (fraction_lt b)
  negative_pack _ exp frac

theorem exponent_widen : exponent (widen G b) = (widenFields F G (exponent b) (fraction b)).1 :=
  have ⟨exp, frac⟩ := widenFields_lt widens (exponent_le b) (fraction_lt b)
  exponent_pack _ exp frac

theorem fraction_widen : fraction (widen G b) = (widenFields F G (exponent b) (fraction b)).2 :=
  have ⟨exp, frac⟩ := widenFields_lt widens (exponent_le b) (fraction_lt b)
  fraction_pack _ exp frac

theorem exponent_widen_eq_iff : exponent (widen G b) = G.maxExponent ↔ exponent b = F.maxExponent := by
  rw [exponent_widen widens]
  constructor
  · intro top
    by_contra finite
    exact (widenFields_finite widens ((exponent_le b).lt_of_ne finite) (fraction_lt b)).1.ne top
  · intro top
    rw [widenFields, if_pos top]

theorem isNaN_widen (number : isNaN b = false) : isNaN (widen G b) = false := by
  by_cases top : exponent b = F.maxExponent
  · have zero : fraction (widen G b) = 0 := by
      rw [fraction_widen widens, widenFields, if_pos top, fraction_of_not_isNaN number top, Nat.zero_mul]
    simp [isNaN, zero]
  · simp [isNaN, exponent_widen_eq_iff widens, top]

theorem isZero_widen (zero : isZero b) : isZero (widen G b) := by
  obtain ⟨low, none⟩ : exponent b = 0 ∧ fraction b = 0 := by simpa [isZero] using zero
  have fields : widenFields F G 0 0 = (0, 0) := by
    rw [widenFields, if_neg (maxExponent_ne_zero F).symm, if_pos rfl, if_pos rfl]
  simp [isZero, exponent_widen widens, fraction_widen widens, low, none, fields]

/-- The conversion is exact. -/
theorem value_widen : value (widen G b) = value b := by
  by_cases top : exponent b = F.maxExponent
  · rw [value_infinite _ top, value_infinite _ ((exponent_widen_eq_iff widens).mpr top),
      negative_widen widens]
  · obtain ⟨-, -, same⟩ :=
      widenFields_finite widens ((exponent_le b).lt_of_ne top) (fraction_lt b)
    have scaled : (units (widen G b) : ℚ) * G.unit = units b * F.unit := by
      rw [units, exponent_widen widens, fraction_widen widens, same, unit_eq widens, units]
      push_cast
      ring
    rw [value_finite _ top, value_finite _ (mt (exponent_widen_eq_iff widens).mp top), finiteValue,
      finiteValue, negative_widen widens, scaled]

end Widen

section Operations
variable {F : Format} (a b : BitVec F.width)

/-- Comparisons that are false where an operand is a NaN. -/
def fcmpOeq : Bool := ¬isNaN a ∧ ¬isNaN b ∧ value a = value b

def fcmpOlt : Bool := ¬isNaN a ∧ ¬isNaN b ∧ value a < value b

def fcmpOle : Bool := ¬isNaN a ∧ ¬isNaN b ∧ value a ≤ value b

/-- The magnitude of `a` and the sign of `b`. -/
def copysign : BitVec F.width := pack F (negative b) (exponent a) (fraction a)

def fneg : BitVec F.width := pack F (!negative a) (exponent a) (fraction a)

/-- The bit of a class in the mask of a class test. -/
def FloatClass.maskBit : FloatClass → Nat
  | .signalingNaN => 0
  | .quietNaN => 1
  | .negInfinity => 2
  | .negNormal => 3
  | .negSubnormal => 4
  | .negZero => 5
  | .posZero => 6
  | .posSubnormal => 7
  | .posNormal => 8
  | .posInfinity => 9

def FloatClass.all : List FloatClass :=
  [.signalingNaN, .quietNaN, .negInfinity, .negNormal, .negSubnormal, .negZero, .posZero,
    .posSubnormal, .posNormal, .posInfinity]

/-- Whether the pattern is of one of the classes in the mask. -/
def isFpclass (mask : BitVec 32) : Bool :=
  FloatClass.all.any fun c => mask.getLsbD c.maskBit && c.test a

/-- The mask decides through the class alone. -/
theorem isFpclass_eq (mask : BitVec 32) : isFpclass a mask = mask.getLsbD (classOf a).maskBit := by
  simp only [isFpclass, test_eq]
  generalize classOf a = c
  cases c <;> simp [FloatClass.all]

variable {a b} {G : Format} (widens : Widens F G)

include widens

theorem fcmpOeq_widen (left : isNaN a = false) (right : isNaN b = false) :
    fcmpOeq (widen G a) (widen G b) = fcmpOeq a b := by
  simp only [fcmpOeq, isNaN_widen widens left, isNaN_widen widens right, left, right, value_widen widens]

theorem fcmpOlt_widen (left : isNaN a = false) (right : isNaN b = false) :
    fcmpOlt (widen G a) (widen G b) = fcmpOlt a b := by
  simp only [fcmpOlt, isNaN_widen widens left, isNaN_widen widens right, left, right, value_widen widens]

theorem fcmpOle_widen (left : isNaN a = false) (right : isNaN b = false) :
    fcmpOle (widen G a) (widen G b) = fcmpOle a b := by
  simp only [fcmpOle, isNaN_widen widens left, isNaN_widen widens right, left, right, value_widen widens]

/-- The conversion keeps sign and magnitude apart. -/
theorem widen_pack (sign : Bool) :
    widen G (pack F sign (exponent a) (fraction a)) =
      pack G sign (exponent (widen G a)) (fraction (widen G a)) := by
  rw [widen, negative_pack _ (exponent_lt a) (fraction_lt a), exponent_pack _ (exponent_lt a) (fraction_lt a),
    fraction_pack _ (exponent_lt a) (fraction_lt a), exponent_widen widens, fraction_widen widens]

theorem copysign_widen : copysign (widen G a) (widen G b) = widen G (copysign a b) := by
  rw [copysign, copysign, widen_pack widens, negative_widen widens]

theorem fneg_widen : fneg (widen G a) = widen G (fneg a) := by
  rw [fneg, fneg, widen_pack widens, negative_widen widens]

end Operations

section Extrema
variable {F : Format}

/-- The smaller of two numbers; where they are equal, either operand. -/
structure IsMinnum (op : BitVec F.width → BitVec F.width → BitVec F.width) : Prop where
  operand : ∀ {a b}, isNaN a = false → isNaN b = false → op a b = a ∨ op a b = b
  le_left : ∀ {a b}, isNaN a = false → isNaN b = false → value (op a b) ≤ value a
  le_right : ∀ {a b}, isNaN a = false → isNaN b = false → value (op a b) ≤ value b

/-- The larger of two numbers; where they are equal, either operand. -/
structure IsMaxnum (op : BitVec F.width → BitVec F.width → BitVec F.width) : Prop where
  operand : ∀ {a b}, isNaN a = false → isNaN b = false → op a b = a ∨ op a b = b
  left_le : ∀ {a b}, isNaN a = false → isNaN b = false → value a ≤ value (op a b)
  right_le : ∀ {a b}, isNaN a = false → isNaN b = false → value b ≤ value (op a b)

/-- The implementation that returns the first of two equal operands. -/
def minnum (a b : BitVec F.width) : BitVec F.width :=
  if isNaN a then b else if isNaN b then a else if value b < value a then b else a

def maxnum (a b : BitVec F.width) : BitVec F.width :=
  if isNaN a then b else if isNaN b then a else if value a < value b then b else a

theorem isMinnum_minnum : IsMinnum (minnum (F := F)) := by
  constructor <;> intro a b left right <;> simp only [minnum, left, right, Bool.false_eq_true, if_false] <;>
    by_cases less : value b < value a
  · exact .inr (if_pos less)
  · exact .inl (if_neg less)
  · rw [if_pos less]
    exact less.le
  · rw [if_neg less]
  · rw [if_pos less]
  · rw [if_neg less]
    exact not_lt.mp less

theorem isMaxnum_maxnum : IsMaxnum (maxnum (F := F)) := by
  constructor <;> intro a b left right <;> simp only [maxnum, left, right, Bool.false_eq_true, if_false] <;>
    by_cases less : value a < value b
  · exact .inr (if_pos less)
  · exact .inl (if_neg less)
  · rw [if_pos less]
    exact less.le
  · rw [if_neg less]
  · rw [if_pos less]
  · rw [if_neg less]
    exact not_lt.mp less

end Extrema
end FloatBits
