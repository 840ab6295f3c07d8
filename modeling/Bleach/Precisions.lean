import Bleach.FloatTemplates

/-! The exact operations in both precisions. The templates agree under the conversion from
single to double, minimum and maximum of singles apart, which return the first operand. -/
namespace Bleach.Templates
open FloatBits

inductive ExactOperation where
  | FMIN
  | FMAX
  | FEQ
  | FLT
  | FLE
  | FSGNJ
  | FSGNJN
  deriving DecidableEq

/-- The calls of `llvm.minnum` and `llvm.maxnum` in both precisions. -/
structure Extrema where
  minnum32 : BitVec single.width → BitVec single.width → BitVec single.width
  maxnum32 : BitVec single.width → BitVec single.width → BitVec single.width
  minnum64 : BitVec double.width → BitVec double.width → BitVec double.width
  maxnum64 : BitVec double.width → BitVec double.width → BitVec double.width

/-- Equal, the two zeros considered equal. -/
def SameNumber (x y : BitVec double.width) : Prop := x = y ∨ isZero x ∧ isZero y

/-- The operation on singles in boxes, then converted, is the operation on the converted ones. -/
def ExactOperation.Agrees (calls : Extrema) (op : ExactOperation) (a b : BitVec single.width) : Prop :=
  let a' : BitVec double.width := widen double a
  let b' : BitVec double.width := widen double b
  match op with
  | .FMIN => ∃ r : BitVec single.width, FMIN_S calls.minnum32 (boxed a) (boxed b) = boxed r ∧
      SameNumber (widen double r) (FMIN_D calls.minnum64 a' b')
  | .FMAX => ∃ r : BitVec single.width, FMAX_S calls.maxnum32 (boxed a) (boxed b) = boxed r ∧
      SameNumber (widen double r) (FMAX_D calls.maxnum64 a' b')
  | .FEQ => FEQ_S (boxed a) (boxed b) = FEQ_D a' b'
  | .FLT => FLT_S (boxed a) (boxed b) = FLT_D a' b'
  | .FLE => FLE_S (boxed a) (boxed b) = FLE_D a' b'
  | .FSGNJ => ∃ r : BitVec single.width, FSGNJ_S (boxed a) (boxed b) = boxed r ∧
      widen double r = FSGNJ_D a' b'
  | .FSGNJN => ∃ r : BitVec single.width, FSGNJN_S (boxed a) (boxed b) = boxed r ∧
      widen double r = FSGNJN_D a' b'

/-- The first operand is a minimum, or a maximum. -/
def ExactOperation.FirstDecides (op : ExactOperation) (a b : BitVec single.width) : Prop :=
  match op with
  | .FMIN => value a ≤ value b
  | .FMAX => value b ≤ value a
  | _ => True

instance (op : ExactOperation) (a b : BitVec single.width) : Decidable (op.FirstDecides a b) := by
  cases op <;> unfold ExactOperation.FirstDecides <;> infer_instance

variable {a b : BitVec single.width} {x y : BitVec double.width}

theorem SameNumber.value_eq (same : SameNumber x y) : value x = value y := by
  obtain rfl | ⟨left, right⟩ := same
  · rfl
  · rw [value_of_isZero left, value_of_isZero right]

/-- Singles of one value become the same number. -/
theorem sameNumber_widen (left : isNaN a = false) (right : isNaN b = false) (same : value a = value b) :
    SameNumber (widen double a) (widen double b) := by
  obtain rfl | ⟨zero, zero'⟩ := value_inj left right same
  · exact .inl rfl
  · exact .inr ⟨isZero_widen single_widens zero, isZero_widen single_widens zero'⟩

theorem FMIN_S_eq (minnum32 : BitVec single.width → BitVec single.width → BitVec single.width)
    (a b : BitVec single.width) : FMIN_S minnum32 (boxed a) (boxed b) = boxed a := by
  rw [FMIN_S, setWidth_boxed]

theorem FMAX_S_eq (maxnum32 : BitVec single.width → BitVec single.width → BitVec single.width)
    (a b : BitVec single.width) : FMAX_S maxnum32 (boxed a) (boxed b) = boxed a := by
  rw [FMAX_S, setWidth_boxed]

/-- One of the operands that is no further than either is the first one exactly where that one is
no further than the second. -/
theorem first_iff {r : Extended → Extended → Prop} (antisymm : ∀ x y, r x y → r y x → x = y)
    (left : isNaN a = false) (right : isNaN b = false)
    (operand : x = widen double a ∨ x = widen double b) (first : r (value x) (value (widen double a)))
    (second : r (value x) (value (widen double b))) :
    SameNumber (widen double a) x ↔ r (value a) (value b) := by
  simp only [value_widen single_widens] at first second
  constructor
  · intro same
    rwa [← same.value_eq, value_widen single_widens] at second
  · intro before
    obtain rfl | rfl := operand
    · exact .inl rfl
    · rw [value_widen single_widens] at first
      exact sameNumber_widen left right (antisymm _ _ before first)

theorem minnum_first_iff {minnum64 : BitVec double.width → BitVec double.width → BitVec double.width}
    (minimum : IsMinnum minnum64) (left : isNaN a = false) (right : isNaN b = false) :
    SameNumber (widen double a) (minnum64 (widen double a) (widen double b)) ↔ value a ≤ value b := by
  have left' := isNaN_widen single_widens left
  have right' := isNaN_widen single_widens right
  exact first_iff (fun _ _ => le_antisymm) left right (minimum.operand left' right')
    (minimum.le_left left' right') (minimum.le_right left' right')

theorem maxnum_first_iff {maxnum64 : BitVec double.width → BitVec double.width → BitVec double.width}
    (maximum : IsMaxnum maxnum64) (left : isNaN a = false) (right : isNaN b = false) :
    SameNumber (widen double a) (maxnum64 (widen double a) (widen double b)) ↔ value b ≤ value a := by
  have left' := isNaN_widen single_widens left
  have right' := isNaN_widen single_widens right
  exact first_iff (r := fun x y => y ≤ x) (fun _ _ => ge_antisymm) left right
    (maximum.operand left' right') (maximum.left_le left' right') (maximum.right_le left' right')

theorem exists_boxed_iff {P : BitVec single.width → Prop} : (∃ r, boxed a = boxed r ∧ P r) ↔ P a := by
  constructor
  · rintro ⟨r, same, holds⟩
    exact boxed_inj same ▸ holds
  · intro holds
    exact ⟨a, rfl, holds⟩

/-- Both precisions agree on an exact operation exactly where, for a minimum or a maximum, the
first operand is one. -/
theorem precisions_agree_iff (calls : Extrema) (minimum : IsMinnum calls.minnum64)
    (maximum : IsMaxnum calls.maxnum64) (op : ExactOperation) (a b : BitVec single.width)
    (left : isNaN a = false) (right : isNaN b = false) :
    op.Agrees calls a b ↔ op.FirstDecides a b := by
  cases op with
  | FMIN =>
    simp only [ExactOperation.Agrees, ExactOperation.FirstDecides, FMIN_S_eq, FMIN_D]
    exact exists_boxed_iff.trans (minnum_first_iff minimum left right)
  | FMAX =>
    simp only [ExactOperation.Agrees, ExactOperation.FirstDecides, FMAX_S_eq, FMAX_D]
    exact exists_boxed_iff.trans (maxnum_first_iff maximum left right)
  | FEQ =>
    refine iff_of_true ?_ trivial
    simp only [ExactOperation.Agrees, FEQ_S, FEQ_D, compareSingle, compareDouble, setWidth_boxed,
      fcmpOeq_widen single_widens left right]
  | FLT =>
    refine iff_of_true ?_ trivial
    simp only [ExactOperation.Agrees, FLT_S, FLT_D, compareSingle, compareDouble, setWidth_boxed,
      fcmpOlt_widen single_widens left right]
  | FLE =>
    refine iff_of_true ?_ trivial
    simp only [ExactOperation.Agrees, FLE_S, FLE_D, compareSingle, compareDouble, setWidth_boxed,
      fcmpOle_widen single_widens left right]
  | FSGNJ =>
    refine iff_of_true ⟨copysign a b, ?_, ?_⟩ trivial
    · simp only [FSGNJ_S, setWidth_boxed]
    · simp only [FSGNJ_D, copysign_widen single_widens]
  | FSGNJN =>
    refine iff_of_true ⟨copysign a (fneg b), ?_, ?_⟩ trivial
    · simp only [FSGNJN_S, setWidth_boxed]
    · simp only [FSGNJN_D, fneg_widen single_widens, copysign_widen single_widens]

/-- The calls with the first operand on ties. -/
def firstOnTies : Extrema := ⟨minnum, maxnum, minnum, maxnum⟩

/-- The smaller of `1` and `2` is the same in both precisions. -/
theorem minimum_first : ExactOperation.FMIN.Agrees firstOnTies 0x3f800000 0x40000000 :=
  (precisions_agree_iff firstOnTies isMinnum_minnum isMaxnum_maxnum .FMIN 0x3f800000 0x40000000
    (by decide) (by decide)).mpr (by decide +kernel)

/-- The smaller of `2` and `1` is `2` for singles and `1` for doubles. -/
theorem minimum_second :
    FMIN_S minnum (boxed 0x40000000) (boxed 0x3f800000) = boxed 0x40000000 ∧
      FMIN_D minnum (widen double (F := single) 0x40000000) (widen double (F := single) 0x3f800000) =
        0x3ff0000000000000 ∧
      ¬∀ calls : Extrema, IsMinnum calls.minnum64 → IsMaxnum calls.maxnum64 →
        ∀ (op : ExactOperation) (a b : BitVec single.width), isNaN a = false → isNaN b = false →
          op.Agrees calls a b := by
  refine ⟨FMIN_S_eq .., by decide +kernel, fun agrees => ?_⟩
  obtain ⟨r, same, number⟩ := agrees firstOnTies isMinnum_minnum isMaxnum_maxnum .FMIN 0x40000000 0x3f800000
    (by decide) (by decide)
  obtain rfl := boxed_inj ((FMIN_S_eq ..).symm.trans same)
  have smaller := (minnum_first_iff (a := 0x40000000) (b := 0x3f800000) isMinnum_minnum (by decide)
    (by decide)).mp number
  exact absurd smaller (by decide +kernel)

end Bleach.Templates
