import Bleach.ScalarTemplates

/-! Division and remainder against the M extension: where the instruction of the IR is defined
the templates return what the extension specifies, and elsewhere they return nothing. -/
namespace Bleach.Templates
open IntegerOps

section
variable {w : Nat}

/-- `DIV` and `DIVU` of the extension: all ones for a zero divisor, the dividend on overflow. -/
def mQuotient (signed : Bool) (a b : BitVec w) : BitVec w :=
  if b = 0#w then BitVec.allOnes w
  else if signed then if Overflows a b then a else BitVec.ofInt w (a.toInt.tdiv b.toInt)
  else BitVec.ofNat w (a.toNat / b.toNat)

/-- `REM` and `REMU` of the extension: the dividend for a zero divisor, `0` on overflow. -/
def mRemainder (signed : Bool) (a b : BitVec w) : BitVec w :=
  if b = 0#w then a
  else if signed then if Overflows a b then 0#w else BitVec.ofInt w (a.toInt.tmod b.toInt)
  else BitVec.ofNat w (a.toNat % b.toNat)

/-- Where the division of the IR is defined. -/
def Divides (signed : Bool) (a b : BitVec w) : Prop := b ≠ 0#w ∧ ¬(signed ∧ Overflows a b)

instance (signed : Bool) (a b : BitVec w) : Decidable (Divides signed a b) :=
  inferInstanceAs (Decidable (_ ∧ _))

variable (a b : BitVec w)

theorem sdiv_eq : sdiv a b = if Divides true a b then some (mQuotient true a b) else none := by
  by_cases zero : b = 0#w
  · simp [sdiv, Divides, zero]
  · by_cases overflows : Overflows a b
    · simp [sdiv, Divides, overflows]
    · simp [sdiv, Divides, mQuotient, zero, overflows, sdiv_eq_tdiv overflows]

theorem srem_eq : srem a b = if Divides true a b then some (mRemainder true a b) else none := by
  by_cases zero : b = 0#w
  · simp [srem, Divides, zero]
  · by_cases overflows : Overflows a b
    · simp [srem, Divides, overflows]
    · simp [srem, Divides, mRemainder, zero, overflows, srem_eq_tmod]

theorem udiv_eq : udiv a b = if Divides false a b then some (mQuotient false a b) else none := by
  by_cases zero : b = 0#w
  · simp [udiv, Divides, zero]
  · simp [udiv, Divides, mQuotient, zero, udiv_eq_div]

theorem urem_eq : urem a b = if Divides false a b then some (mRemainder false a b) else none := by
  by_cases zero : b = 0#w
  · simp [urem, Divides, zero]
  · simp [urem, Divides, mRemainder, zero, umod_eq_mod]

end

inductive Division where
  | DIV
  | DIVW
  | DIVU
  | DIVUW
  | REM
  | REMW
  | REMU
  | REMUW
  deriving DecidableEq

namespace Division

/-- The function an architecture has for an instruction, if any. -/
def func : Division → (arch : Arch) →
    Option (BitVec arch.xlen → BitVec arch.xlen → Option (BitVec arch.xlen))
  | .DIV, _ => some Templates.DIV
  | .REM, _ => some Templates.REM
  | .DIVW, .rv64 => some Templates.DIVW
  | .DIVU, .rv64 => some Templates.DIVU
  | .DIVUW, .rv64 => some Templates.DIVUW
  | .REMW, .rv64 => some Templates.REMW
  | .REMU, .rv64 => some Templates.REMU
  | .REMUW, .rv64 => some Templates.REMUW
  | _, .rv32 => none

def signed : Division → Bool
  | .DIV | .DIVW | .REM | .REMW => true
  | _ => false

def isRemainder : Division → Bool
  | .REM | .REMW | .REMU | .REMUW => true
  | _ => false

/-- The bits of the operands an instruction reads. -/
def operandWidth (arch : Arch) : Division → Nat
  | .DIVW | .DIVUW | .REMW | .REMUW => 32
  | _ => arch.xlen

/-- What the extension specifies; results on 32 bits are sign-extended. -/
def expected (op : Division) (arch : Arch) (a b : BitVec arch.xlen) : BitVec arch.xlen :=
  let a := a.setWidth (op.operandWidth arch)
  let b := b.setWidth (op.operandWidth arch)
  (if op.isRemainder then mRemainder op.signed a b else mQuotient op.signed a b).signExtend _

/-- The divisor is not zero, and a signed quotient fits. -/
def Defined (op : Division) (arch : Arch) (a b : BitVec arch.xlen) : Prop :=
  Divides op.signed (a.setWidth (op.operandWidth arch)) (b.setWidth (op.operandWidth arch))

instance (op : Division) (arch : Arch) (a b : BitVec arch.xlen) : Decidable (op.Defined arch a b) :=
  inferInstanceAs (Decidable (Divides ..))

end Division

section
variable {w : Nat} {signed : Bool}

theorem wholeOperation_eq {operation : BitVec w → BitVec w → Option (BitVec w)}
    {result : BitVec w → BitVec w → BitVec w}
    (eq : ∀ a b, operation a b = if Divides signed a b then some (result a b) else none) (a b : BitVec w) :
    operation a b = if Divides signed (a.setWidth w) (b.setWidth w) then
      some ((result (a.setWidth w) (b.setWidth w)).signExtend w) else none := by
  simp only [BitVec.setWidth_eq, BitVec.signExtend_eq]
  exact eq a b

theorem wordOperation_eq {operation : BitVec 32 → BitVec 32 → Option (BitVec 32)}
    {result : BitVec 32 → BitVec 32 → BitVec 32}
    (eq : ∀ a b, operation a b = if Divides signed a b then some (result a b) else none) (a b : BitVec 64) :
    wordOperation operation a b = if Divides signed (a.setWidth 32) (b.setWidth 32) then
      some ((result (a.setWidth 32) (b.setWidth 32)).signExtend 64) else none := by
  rw [wordOperation, eq]
  split <;> rfl

end

/-- Every template is defined on one set of operands and there returns the specified value. -/
theorem Division.func_eq {op : Division} {arch : Arch}
    {f : BitVec arch.xlen → BitVec arch.xlen → Option (BitVec arch.xlen)} (there : op.func arch = some f)
    (a b : BitVec arch.xlen) :
    f a b = if op.Defined arch a b then some (op.expected arch a b) else none := by
  cases arch with
  | rv32 =>
    cases op with
    | DIV =>
      obtain rfl := Option.some.inj there
      exact wholeOperation_eq sdiv_eq a b
    | REM =>
      obtain rfl := Option.some.inj there
      exact wholeOperation_eq srem_eq a b
    | _ => cases there
  | rv64 =>
    cases op with
    | DIV =>
      obtain rfl := Option.some.inj there
      exact wholeOperation_eq sdiv_eq a b
    | REM =>
      obtain rfl := Option.some.inj there
      exact wholeOperation_eq srem_eq a b
    | DIVU =>
      obtain rfl := Option.some.inj there
      exact wholeOperation_eq udiv_eq a b
    | REMU =>
      obtain rfl := Option.some.inj there
      exact wholeOperation_eq urem_eq a b
    | DIVW =>
      obtain rfl := Option.some.inj there
      exact wordOperation_eq sdiv_eq a b
    | DIVUW =>
      obtain rfl := Option.some.inj there
      exact wordOperation_eq udiv_eq a b
    | REMW =>
      obtain rfl := Option.some.inj there
      exact wordOperation_eq srem_eq a b
    | REMUW =>
      obtain rfl := Option.some.inj there
      exact wordOperation_eq urem_eq a b

/-- A template returns what the M extension specifies exactly where its divisor, at the width of
the operation, is not zero and, for the signed ones, the quotient does not overflow. -/
theorem division_specified_iff (op : Division) (arch : Arch)
    (f : BitVec arch.xlen → BitVec arch.xlen → Option (BitVec arch.xlen)) (there : op.func arch = some f)
    (a b : BitVec arch.xlen) : f a b = some (op.expected arch a b) ↔ op.Defined arch a b := by
  rw [Division.func_eq there]
  by_cases defined : op.Defined arch a b
  · simp [defined]
  · simp [defined]

/-- `-7` divided by `2` on 32 bits is `-3`. -/
theorem divw_rounds : DIVW (-7) 2 = some (Division.DIVW.expected .rv64 (-7) 2) :=
  (division_specified_iff .DIVW .rv64 DIVW rfl (-7) 2).mpr (by decide)

/-- Division by zero and the overflowing division are undefined, and the extension gives them
results. -/
theorem division_undefined :
    DIV 5#64 0 = none ∧ Division.DIV.expected .rv64 5#64 0#64 = BitVec.allOnes 64 ∧
      REM (BitVec.intMin 64) (-1) = none ∧
      Division.REM.expected .rv64 (BitVec.intMin 64) (-1#64) = 0#64 ∧
      REMUW 5 0x100000000 = none ∧ Division.REMUW.expected .rv64 5#64 0x100000000#64 = 5#64 ∧
      ¬∀ (op : Division) (arch : Arch) f, op.func arch = some f → ∀ a b,
        f a b = some (op.expected arch a b) := by
  refine ⟨by decide, rfl, by decide, rfl, by decide, rfl, ?_⟩
  intro specified
  have undefined : DIV 5#64 0 = none := by decide
  cases undefined.symm.trans (specified .DIV .rv64 Templates.DIV rfl 5#64 0#64)

end Bleach.Templates
