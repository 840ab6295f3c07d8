import Bleach.AddressConstants
import Bleach.Rv64

/-! The integer templates of `rv.yaml` against the architecture: where a template is defined it
computes what the instruction does, and it is undefined only for some divisions. -/
namespace Bleach.Templates
open IntegerOps Rv64

section
variable {xlen : Nat}

def SLT (v0 v1 : BitVec xlen) : Option (BitVec xlen) := do
  let v3 := v0.slt v1
  let v4 := (BitVec.ofBool v3).setWidth xlen
  return v4

def SLTU (v0 v1 : BitVec xlen) : Option (BitVec xlen) := do
  let v3 := v0.ult v1
  let v4 := (BitVec.ofBool v3).setWidth xlen
  return v4

def AND (v0 v1 : BitVec xlen) : Option (BitVec xlen) := do
  let v3 := v1 &&& v0
  return v3

def OR (v0 v1 : BitVec xlen) : Option (BitVec xlen) := do
  let v3 := v1 ||| v0
  return v3

def XOR (v0 v1 : BitVec xlen) : Option (BitVec xlen) := do
  let v3 := v1 ^^^ v0
  return v3

def ADD (v0 v1 : BitVec xlen) : Option (BitVec xlen) := do
  let v3 := v1 + v0
  return v3

def SUB (v0 v1 : BitVec xlen) : Option (BitVec xlen) := do
  let v3 := v0 - v1
  return v3

def MUL (v0 v1 : BitVec xlen) : Option (BitVec xlen) := do
  let v3 := v0 * v1
  return v3

end

def SLL : Word → Word → Option Word := maskedShift IntegerOps.shl

def SRL : Word → Word → Option Word := maskedShift lshr

def SRA : Word → Word → Option Word := maskedShift ashr

/-- The shape of the shifts of the low half. -/
def wordShift (shift : BitVec 32 → BitVec 32 → Option (BitVec 32)) (v0 v1 : Word) : Option Word := do
  let v3 := v1.setWidth 32
  let v4 := v0.setWidth 32
  let v5 := v3 &&& 31
  let v6 ← shift v4 v5
  let v7 := v6.signExtend 64
  return v7

def SLLW : Word → Word → Option Word := wordShift IntegerOps.shl

def SRLW : Word → Word → Option Word := wordShift lshr

def SRAW : Word → Word → Option Word := wordShift ashr

def ADDW : Word → Word → Option Word := wordOperation fun v3 v4 => some (v3 + v4)

def SUBW : Word → Word → Option Word := wordOperation fun v3 v4 => some (v3 - v4)

def MULW : Word → Word → Option Word := wordOperation fun v3 v4 => some (v3 * v4)

/-- The upper half of a product on 128 bits. -/
def upperHalf (mul : BitVec 128 → BitVec 128 → Option (BitVec 128)) (v3 v4 : BitVec 128) :
    Option Word := do
  let v5 ← mul v3 v4
  let v6 ← lshr v5 64
  let v7 ← truncNuw v6 64
  return v7

def MULH (v0 v1 : Word) : Option Word := upperHalf mulNsw (v0.signExtend 128) (v1.signExtend 128)

def MULHU (v0 v1 : Word) : Option Word := upperHalf mulNuw (v0.setWidth 128) (v1.setWidth 128)

def MULHSU (v0 v1 : Word) : Option Word := upperHalf mulNsw (v0.signExtend 128) (v1.setWidth 128)

section
variable {xlen : Nat}

def BNE (v0 v1 : BitVec xlen) : Option (BitVec 1) := do
  let v3 := v0 != v1
  return .ofBool v3

def BEQ (v0 v1 : BitVec xlen) : Option (BitVec 1) := do
  let v3 := v0 == v1
  return .ofBool v3

def BLT (v0 v1 : BitVec xlen) : Option (BitVec 1) := do
  let v3 := v0.slt v1
  return .ofBool v3

def BGE (v0 v1 : BitVec xlen) : Option (BitVec 1) := do
  let v3 := v1.sle v0
  return .ofBool v3

def BLTU (v0 v1 : BitVec xlen) : Option (BitVec 1) := do
  let v3 := v0.ult v1
  return .ofBool v3

def BGEU (v0 v1 : BitVec xlen) : Option (BitVec 1) := do
  let v3 := v1.ule v0
  return .ofBool v3

end

end Bleach.Templates

namespace Rv64
open Bleach IntegerOps

/-- The template of an instruction. -/
def RegOp.template : RegOp → Word → Word → Option Word
  | ADD => Templates.ADD
  | SUB => Templates.SUB
  | SLL => Templates.SLL
  | SLT => Templates.SLT
  | SLTU => Templates.SLTU
  | XOR => Templates.XOR
  | SRL => Templates.SRL
  | SRA => Templates.SRA
  | OR => Templates.OR
  | AND => Templates.AND
  | ADDW => Templates.ADDW
  | SUBW => Templates.SUBW
  | SLLW => Templates.SLLW
  | SRLW => Templates.SRLW
  | SRAW => Templates.SRAW
  | MUL => Templates.MUL
  | MULH => Templates.MULH
  | MULHSU => Templates.MULHSU
  | MULHU => Templates.MULHU
  | MULW => Templates.MULW
  | DIV => Templates.DIV
  | DIVU => Templates.DIVU
  | REM => Templates.REM
  | REMU => Templates.REMU
  | DIVW => Templates.DIVW
  | DIVUW => Templates.DIVUW
  | REMW => Templates.REMW
  | REMUW => Templates.REMUW

def ImmOp.template : ImmOp → Word → Word → Option Word
  | ADDI => Templates.ADDI
  | SLTIU => Templates.SLTIU
  | XORI => Templates.XORI
  | ORI => Templates.ORI
  | ANDI => Templates.ANDI
  | SLLI => Templates.SLLI
  | SRLI => Templates.SRLI
  | SRAI => Templates.SRAI
  | ADDIW => Templates.ADDIW
  | SLLIW => Templates.SLLIW
  | SRLIW => Templates.SRLIW
  | SRAIW => Templates.SRAIW

def BranchOp.template : BranchOp → Word → Word → Option (BitVec 1)
  | BEQ => Templates.BEQ
  | BNE => Templates.BNE
  | BLT => Templates.BLT
  | BGE => Templates.BGE
  | BLTU => Templates.BLTU
  | BGEU => Templates.BGEU

theorem toNat_and_63 (b : Word) : (b &&& 63).toNat = b.toNat % 64 := by
  rw [BitVec.toNat_and]
  exact Nat.and_two_pow_sub_one_eq_mod b.toNat 6

theorem toNat_and_31 (b : Word) : (b.setWidth 32 &&& 31).toNat = (b.setWidth 32).toNat % 32 := by
  rw [BitVec.toNat_and]
  exact Nat.and_two_pow_sub_one_eq_mod _ 5

theorem ofBool_setWidth (c : Bool) : (BitVec.ofBool c).setWidth 64 = if c then 1 else 0 := by
  cases c <;> rfl

/-- The upper half of a product that fits, whatever the factors are taken for. -/
theorem upper_product {p q : Int} {mul : BitVec 128 → BitVec 128 → Option (BitVec 128)}
    (product : mul (.ofInt 128 p) (.ofInt 128 q) = some (.ofInt 128 p * .ofInt 128 q)) :
    Templates.upperHalf mul (.ofInt 128 p) (.ofInt 128 q) = some (.ofInt 64 (p * q / 2 ^ 64)) := by
  have value : (BitVec.ofInt 128 (p * q) >>> (64#128).toNat).toNat = (p * q % 2 ^ 128).toNat / 2 ^ 64 := by
    rw [BitVec.toNat_ushiftRight, BitVec.toNat_ofInt, Nat.shiftRight_eq_div_pow]
    rfl
  have small : (BitVec.ofInt 128 (p * q) >>> (64#128).toNat).toNat < 2 ^ 64 := by
    rw [value]
    omega
  have shifted : lshr (BitVec.ofInt 128 (p * q)) 64 = some (BitVec.ofInt 128 (p * q) >>> (64#128).toNat) :=
    lshr_of_lt (by decide)
  simp only [Templates.upperHalf, product, ← BitVec.ofInt_mul, Option.bind_eq_bind, Option.bind_some, shifted,
    truncNuw, small, if_true, Option.some.injEq]
  apply BitVec.eq_of_toNat_eq
  rw [BitVec.toNat_setWidth, value, BitVec.toNat_ofInt]
  omega

/-- The signed product of a signed factor and one that may be unsigned fits in 128 bits. -/
theorem mulNsw_ofInt {p q : Int} (left : p.natAbs ≤ 2 ^ 63) (right : q.natAbs < 2 ^ 64) :
    mulNsw (.ofInt 128 p) (.ofInt 128 q) = some (.ofInt 128 p * .ofInt 128 q) := by
  have bound : (p * q).natAbs ≤ 2 ^ 63 * (2 ^ 64 - 1) := by
    rw [Int.natAbs_mul]
    exact Nat.mul_le_mul left (by omega)
  have self : (BitVec.ofInt 128 p).toInt = p := BitVec.toInt_ofInt_eq_self (by decide) (by omega) (by omega)
  have self' : (BitVec.ofInt 128 q).toInt = q := BitVec.toInt_ofInt_eq_self (by decide) (by omega) (by omega)
  apply mulNsw_of_fits
  · rw [self, self']
    omega
  · rw [self, self']
    omega

theorem mulNuw_ofInt {m n : Nat} (left : m < 2 ^ 64) (right : n < 2 ^ 64) :
    mulNuw (.ofInt 128 m) (.ofInt 128 n) = some (.ofInt 128 m * .ofInt 128 n) := by
  have bound : m * n ≤ (2 ^ 64 - 1) * (2 ^ 64 - 1) := Nat.mul_le_mul (by omega) (by omega)
  apply mulNuw_of_fits
  rw [BitVec.ofInt_natCast, BitVec.ofInt_natCast, BitVec.toNat_ofNat, BitVec.toNat_ofNat,
    Nat.mod_eq_of_lt (by omega), Nat.mod_eq_of_lt (by omega)]
  omega

theorem natAbs_toInt_le (a : Word) : a.toInt.natAbs ≤ 2 ^ 63 := by
  have low := BitVec.le_toInt a
  have high := BitVec.toInt_lt (x := a)
  omega

theorem setWidth_eq_ofInt (a : Word) : a.setWidth 128 = .ofInt 128 a.toNat :=
  BitVec.eq_of_toNat_eq (by simp)

theorem MULH_eq (a b : Word) : Templates.MULH a b = some (RegOp.MULH.value a b) := by
  have small := natAbs_toInt_le b
  exact upper_product (mulNsw_ofInt (natAbs_toInt_le a) (by omega))

theorem MULHSU_eq (a b : Word) : Templates.MULHSU a b = some (RegOp.MULHSU.value a b) := by
  rw [Templates.MULHSU, setWidth_eq_ofInt]
  exact upper_product (mulNsw_ofInt (natAbs_toInt_le a) b.isLt)

theorem MULHU_eq (a b : Word) : Templates.MULHU a b = some (RegOp.MULHU.value a b) := by
  rw [Templates.MULHU, setWidth_eq_ofInt, setWidth_eq_ofInt]
  exact upper_product (mulNuw_ofInt a.isLt b.isLt)

theorem maskedShift_of {shift : Word → Word → Option Word} {result : Word → Nat → Word}
    (below : ∀ a b : Word, b.toNat < 64 → shift a b = some (result a b.toNat)) (a b : Word) :
    Templates.maskedShift shift a b = some (result a (b.toNat % 64)) := by
  rw [Templates.maskedShift_eq, below a _ (by rw [toNat_and_63]; omega), toNat_and_63]

theorem SLL_eq (a b : Word) : Templates.SLL a b = some (a <<< (b.toNat % 64)) :=
  maskedShift_of (fun _ _ => shl_of_lt) a b

theorem SRL_eq (a b : Word) : Templates.SRL a b = some (a >>> (b.toNat % 64)) :=
  maskedShift_of (fun _ _ => lshr_of_lt) a b

theorem SRA_eq (a b : Word) : Templates.SRA a b = some (a.sshiftRight (b.toNat % 64)) := by
  have below : ∀ a b : Word, b.toNat < 64 → ashr a b = some (BitVec.sshiftRight a b.toNat) :=
    fun _ _ => ashr_of_lt
  exact maskedShift_of below a b

theorem wordShift_of {shift : BitVec 32 → BitVec 32 → Option (BitVec 32)}
    {result : BitVec 32 → Nat → BitVec 32}
    (below : ∀ a b : BitVec 32, b.toNat < 32 → shift a b = some (result a b.toNat)) (a b : Word) :
    Templates.wordShift shift a b = some (onWords (fun a b => result a (b.toNat % 32)) a b) := by
  simp only [Templates.wordShift, Option.bind_eq_bind,
    below _ (b.setWidth 32 &&& 31) (by rw [toNat_and_31]; omega), Option.bind_some, toNat_and_31]
  rfl

theorem SRAW_eq (a b : Word) : Templates.SRAW a b = some (RegOp.SRAW.value a b) := by
  have below : ∀ a b : BitVec 32, b.toNat < 32 → ashr a b = some (BitVec.sshiftRight a b.toNat) :=
    fun _ _ => ashr_of_lt
  exact wordShift_of below a b

theorem wordOperation_total (operation : BitVec 32 → BitVec 32 → BitVec 32) (a b : Word) :
    Templates.wordOperation (fun a b => some (operation a b)) a b = some (onWords operation a b) := rfl

/-- A template is defined exactly where the division is, and computes what the instruction does. -/
theorem RegOp.template_eq (op : RegOp) (a b : Word) :
    op.template a b = if op.Divisible a b then some (op.value a b) else none := by
  have total : (∀ a b, op.Divisible a b) → op.template a b = some (op.value a b) →
      op.template a b = if op.Divisible a b then some (op.value a b) else none :=
    fun always equal => by rw [equal, if_pos (always a b)]
  cases op with
  | ADD => exact total (fun _ _ => trivial) (congrArg some (BitVec.add_comm b a))
  | SUB => exact total (fun _ _ => trivial) rfl
  | SLL => exact total (fun _ _ => trivial) (SLL_eq a b)
  | SLT =>
    refine total (fun _ _ => trivial) (congrArg some ?_)
    rw [ofBool_setWidth]
    simp [value, BitVec.slt]
  | SLTU =>
    refine total (fun _ _ => trivial) (congrArg some ?_)
    rw [ofBool_setWidth]
    simp [value, BitVec.ult]
  | XOR => exact total (fun _ _ => trivial) (congrArg some (BitVec.xor_comm b a))
  | SRL => exact total (fun _ _ => trivial) (SRL_eq a b)
  | SRA => exact total (fun _ _ => trivial) (SRA_eq a b)
  | OR => exact total (fun _ _ => trivial) (congrArg some (BitVec.or_comm b a))
  | AND => exact total (fun _ _ => trivial) (congrArg some (BitVec.and_comm b a))
  | ADDW => exact total (fun _ _ => trivial) (wordOperation_total _ a b)
  | SUBW => exact total (fun _ _ => trivial) (wordOperation_total _ a b)
  | SLLW => exact total (fun _ _ => trivial) (wordShift_of (fun _ _ => shl_of_lt) a b)
  | SRLW => exact total (fun _ _ => trivial) (wordShift_of (fun _ _ => lshr_of_lt) a b)
  | SRAW => exact total (fun _ _ => trivial) (SRAW_eq a b)
  | MUL =>
    refine total (fun _ _ => trivial) (congrArg some ?_)
    rw [value, BitVec.ofInt_mul, BitVec.ofInt_toInt, BitVec.ofInt_toInt]
  | MULH => exact total (fun _ _ => trivial) (MULH_eq a b)
  | MULHSU => exact total (fun _ _ => trivial) (MULHSU_eq a b)
  | MULHU => exact total (fun _ _ => trivial) (MULHU_eq a b)
  | MULW =>
    refine total (fun _ _ => trivial) ((wordOperation_total _ a b).trans (congrArg some ?_))
    rw [value, onWords, onWords, BitVec.ofInt_mul, BitVec.ofInt_toInt, BitVec.ofInt_toInt]
  | DIV => exact Templates.sdiv_eq a b
  | DIVU => exact Templates.udiv_eq a b
  | REM => exact Templates.srem_eq a b
  | REMU => exact Templates.urem_eq a b
  | DIVW => exact Templates.wordOperation_eq Templates.sdiv_eq a b
  | DIVUW => exact Templates.wordOperation_eq Templates.udiv_eq a b
  | REMW => exact Templates.wordOperation_eq Templates.srem_eq a b
  | REMUW => exact Templates.wordOperation_eq Templates.urem_eq a b

/-- A shift amount is what is left of it under either mask. -/
theorem amount_toNat {v : Int} {n : Nat} (low : 0 ≤ v) (high : v < n) (small : n ≤ 64) :
    (BitVec.ofInt 64 v).toNat = v.toNat ∧ ((BitVec.ofInt 64 v).setWidth 32).toNat = v.toNat := by
  have here : (BitVec.ofInt 64 v).toNat = v.toNat := by
    rw [BitVec.toNat_ofInt, Int.emod_eq_of_lt low (by omega)]
  refine ⟨here, ?_⟩
  rw [BitVec.toNat_setWidth, here]
  omega

theorem maskedWordShift_of {shift : BitVec 32 → BitVec 32 → Option (BitVec 32)}
    {result : BitVec 32 → Nat → BitVec 32}
    (below : ∀ a b : BitVec 32, b.toNat < 32 → shift a b = some (result a b.toNat)) (a : Word) {v : Int}
    (low : 0 ≤ v) (high : v < 32) : Templates.maskedWordShift shift a (.ofInt 64 v) =
      some ((result (a.setWidth 32) v.toNat).signExtend 64) := by
  have amount := (amount_toNat (n := 32) low high (by decide)).2
  have masked : ((BitVec.ofInt 64 v).setWidth 32 &&& 63).toNat = v.toNat := by
    rw [BitVec.toNat_and, amount]
    exact (Nat.and_two_pow_sub_one_eq_mod v.toNat 6).trans (Nat.mod_eq_of_lt (by omega))
  rw [Templates.maskedWordShift_map, below _ _ (by omega), masked, Option.map_some]

/-- On the immediates of its encoding a template computes what the instruction does. -/
theorem ImmOp.template_eq {op : ImmOp} {v : Int} (immediate : op.Immediate v) (a : Word) :
    op.template a (.ofInt 64 v) = some (op.value a v) := by
  have shifted : 0 ≤ v → v < 64 → (BitVec.ofInt 64 v).toNat % 64 = v.toNat := by
    intro low high
    rw [(amount_toNat (n := 64) low high (by decide)).1]
    omega
  cases op with
  | ADDI => rfl
  | SLTIU =>
    refine congrArg some ?_
    rw [ofBool_setWidth]
    simp [value, BitVec.ult]
  | XORI => exact congrArg some (BitVec.xor_comm ..)
  | ORI => exact congrArg some (BitVec.or_comm ..)
  | ANDI => exact congrArg some (BitVec.and_comm ..)
  | SLLI =>
    refine (SLL_eq a _).trans (congrArg some ?_)
    rw [shifted immediate.1 immediate.2]
    rfl
  | SRLI =>
    refine (SRL_eq a _).trans (congrArg some ?_)
    rw [shifted immediate.1 immediate.2]
    rfl
  | SRAI =>
    refine (SRA_eq a _).trans (congrArg some ?_)
    rw [shifted immediate.1 immediate.2]
    rfl
  | ADDIW =>
    have low : (BitVec.ofInt 64 v).setWidth 32 = .ofInt 32 v := by
      apply BitVec.eq_of_toNat_eq
      simp only [BitVec.toNat_setWidth, BitVec.toNat_ofInt]
      omega
    refine congrArg some ?_
    rw [value, low, BitVec.add_comm]
  | SLLIW => exact maskedWordShift_of (fun _ _ => shl_of_lt) a immediate.1 immediate.2
  | SRLIW => exact maskedWordShift_of (fun _ _ => lshr_of_lt) a immediate.1 immediate.2
  | SRAIW =>
    have amount := (amount_toNat (n := 32) immediate.1 immediate.2 (by decide)).2
    have bound := immediate.2
    rw [template, Templates.SRAIW, Templates.wordOperation_map, ashr_of_lt (by omega), amount]
    rfl

theorem BranchOp.template_eq (op : BranchOp) (a b : Word) :
    op.template a b = some (.ofBool (op.taken a b)) := by
  cases op <;> rfl

theorem LUI_eq_upperValue {v : Int} (low : 0 ≤ v) (high : v < 2 ^ 20) :
    Templates.LUI (.ofInt 64 v) = some (upperValue v) := by
  have wide : (BitVec.ofInt 64 v).toNat = v.toNat := by
    rw [BitVec.toNat_ofInt, Int.emod_eq_of_lt low (by omega)]
  have field : (BitVec.ofInt 20 v).toNat = v.toNat := by
    rw [BitVec.toNat_ofInt]
    omega
  have zeros : (BitVec.ofInt 20 v ++ 0#12).toNat = v.toNat * 2 ^ 12 := by
    rw [BitVec.toNat_append, field, BitVec.toNat_ofNat, Nat.shiftLeft_eq]
    exact Nat.or_zero _
  have small : (BitVec.ofInt 64 v).toNat < 2 ^ 20 := by omega
  rw [Templates.LUI, truncNuw, if_pos small]
  refine congrArg some ?_
  apply BitVec.eq_of_toNat_eq
  rw [upperValue, BitVec.toNat_shiftLeft, toNat_signExtend_of_le _ (by omega),
    toNat_signExtend_of_le _ (by omega), BitVec.toNat_setWidth, zeros, wide, Nat.shiftLeft_eq]
  split <;> split <;> omega

/-- The integer templates compute what the architecture specifies, on two registers exactly where
no division is by zero or overflows, and on immediates on all that are encoded. -/
theorem templates_exact :
    (∀ (op : RegOp) (a b : Word), op.template a b = if op.Divisible a b then some (op.value a b) else none) ∧
    (∀ (op : ImmOp) (v : Int), op.Immediate v → ∀ a, op.template a (.ofInt 64 v) = some (op.value a v)) ∧
    (∀ (op : BranchOp) (a b : Word), op.template a b = some (.ofBool (op.taken a b))) ∧
    ∀ v : Int, 0 ≤ v → v < 2 ^ 20 → Templates.LUI (.ofInt 64 v) = some (upperValue v) :=
  ⟨RegOp.template_eq, fun _ _ immediate a => ImmOp.template_eq immediate a, BranchOp.template_eq,
    fun _ low high => LUI_eq_upperValue low high⟩

theorem templates_exact_here : RegOp.MULHSU.template (-1) 3 = some (-1) ∧
    RegOp.REM.template (-7) 2 = some (-1) ∧ RegOp.DIVW.template 5 (1 <<< 32) = none ∧ ImmOp.SRAIW.template 0x80000000 (.ofInt 64 31) = some (-1) ∧
    Templates.LUI (.ofInt 64 0x80000) = some 0xffffffff80000000 := by
  obtain ⟨registers, immediates, -, lui⟩ := templates_exact
  refine ⟨(registers .MULHSU (-1) 3).trans (by decide), (registers .REM (-7) 2).trans (by decide),
    (registers .DIVW 5 (1 <<< 32)).trans (by decide),
    (immediates .SRAIW 31 (by decide) 0x80000000).trans (by decide),
    (lui 0x80000 (by decide) (by decide)).trans (by decide)⟩

end Rv64
