import Bleach.LoadStore
import Bleach.Base.FloatBits

/-! The floating-point templates. A value of type `float` or `double` is its pattern, so that a
`bitcast` changes nothing; what LLVM leaves to the target is a parameter. The argument `%rm`,
which no body reads, is left out. -/
namespace Bleach.Templates
open FloatBits

/-- The end of the single-precision templates: a single in a register has ones above it. -/
def boxed (v : BitVec 32) : BitVec 64 :=
  let v10 := v.setWidth 64
  let v11 := 4294967295#64 <<< 32#64
  v10 ||| v11

theorem boxed_eq (v : BitVec 32) : boxed v = BitVec.allOnes 32 ++ v := nan_boxed v

theorem setWidth_boxed (v : BitVec 32) : (boxed v).setWidth 32 = v := by
  rw [boxed_eq, BitVec.setWidth_append]
  simp

theorem boxed_inj {v v' : BitVec 32} (same : boxed v = boxed v') : v = v' := by
  rw [← setWidth_boxed v, same, setWidth_boxed]

/-- `zext i1`. -/
def zextBit (bit : Bool) : BitVec 64 := (BitVec.ofBool bit).setWidth 64

section
variable (minnum32 maxnum32 : BitVec single.width → BitVec single.width → BitVec single.width)
  (minnum64 maxnum64 : BitVec double.width → BitVec double.width → BitVec double.width)

/-- The result of the call is dropped. -/
def FMIN_S (v0 v1 : BitVec 64) : BitVec 64 :=
  let v4 := v0.setWidth 32
  let v5 := v1.setWidth 32
  let v6 : BitVec single.width := v4
  let v7 : BitVec single.width := v5
  let _v8 := minnum32 v6 v7
  let v9 : BitVec 32 := v6
  boxed v9

def FMAX_S (v0 v1 : BitVec 64) : BitVec 64 :=
  let v4 := v0.setWidth 32
  let v5 := v1.setWidth 32
  let v6 : BitVec single.width := v4
  let v7 : BitVec single.width := v5
  let _v8 := maxnum32 v6 v7
  let v9 : BitVec 32 := v6
  boxed v9

def FMIN_D (v0 v1 : BitVec 64) : BitVec 64 :=
  let v4 : BitVec double.width := v0
  let v5 : BitVec double.width := v1
  let v6 := minnum64 v4 v5
  v6

def FMAX_D (v0 v1 : BitVec 64) : BitVec 64 :=
  let v4 : BitVec double.width := v0
  let v5 : BitVec double.width := v1
  let v6 := maxnum64 v4 v5
  v6

end

/-- The comparisons of singles. -/
def compareSingle (fcmp : BitVec single.width → BitVec single.width → Bool) (v0 v1 : BitVec 64) :
    BitVec 64 :=
  let v4 := v0.setWidth 32
  let v5 := v1.setWidth 32
  let v6 : BitVec single.width := v4
  let v7 : BitVec single.width := v5
  let v8 := fcmp v6 v7
  zextBit v8

def FEQ_S : BitVec 64 → BitVec 64 → BitVec 64 := compareSingle fcmpOeq

def FLT_S : BitVec 64 → BitVec 64 → BitVec 64 := compareSingle fcmpOlt

def FLE_S : BitVec 64 → BitVec 64 → BitVec 64 := compareSingle fcmpOle

/-- The comparisons of doubles. -/
def compareDouble (fcmp : BitVec double.width → BitVec double.width → Bool) (v0 v1 : BitVec 64) :
    BitVec 64 :=
  let v4 : BitVec double.width := v0
  let v5 : BitVec double.width := v1
  let v6 := fcmp v4 v5
  zextBit v6

def FEQ_D : BitVec 64 → BitVec 64 → BitVec 64 := compareDouble fcmpOeq

def FLT_D : BitVec 64 → BitVec 64 → BitVec 64 := compareDouble fcmpOlt

def FLE_D : BitVec 64 → BitVec 64 → BitVec 64 := compareDouble fcmpOle

def FSGNJ_S (v0 v1 : BitVec 64) : BitVec 64 :=
  let v4 := v0.setWidth 32
  let v5 := v1.setWidth 32
  let v6 : BitVec single.width := v4
  let v7 : BitVec single.width := v5
  let v8 := copysign v6 v7
  boxed v8

def FSGNJN_S (v0 v1 : BitVec 64) : BitVec 64 :=
  let v4 := v0.setWidth 32
  let v5 := v1.setWidth 32
  let v6 : BitVec single.width := v4
  let v7 : BitVec single.width := v5
  let v8 := fneg v7
  let v9 := copysign v6 v8
  boxed v9

def FSGNJ_D (v0 v1 : BitVec 64) : BitVec 64 :=
  let v4 : BitVec double.width := v0
  let v5 : BitVec double.width := v1
  let v6 := copysign v4 v5
  v6

def FSGNJN_D (v0 v1 : BitVec 64) : BitVec 64 :=
  let v4 : BitVec double.width := v0
  let v5 : BitVec double.width := v1
  let v6 := fneg v5
  let v7 := copysign v4 v6
  v7

def FCLASS_S (v0 : BitVec 64) : BitVec 64 :=
  let v3 := v0.setWidth 32
  let v4 : BitVec single.width := v3
  let isSnan := isFpclass v4 1
  let isQnan := isFpclass v4 2
  let isNeginf := isFpclass v4 4
  let isNegnorm := isFpclass v4 8
  let isNegsub := isFpclass v4 16
  let isNegzero := isFpclass v4 32
  let isPoszero := isFpclass v4 64
  let isPossub := isFpclass v4 128
  let isPosnorm := isFpclass v4 256
  let isPosinf := isFpclass v4 512
  let isNeginfShifted := zextBit isNeginf
  let isNegnormShifted := zextBit isNegnorm <<< 1
  let isNegsubShifted := zextBit isNegsub <<< 2
  let isNegzeroShifted := zextBit isNegzero <<< 3
  let isPoszeroShifted := zextBit isPoszero <<< 4
  let isPossubShifted := zextBit isPossub <<< 5
  let isPosnormShifted := zextBit isPosnorm <<< 6
  let isPosinfShifted := zextBit isPosinf <<< 7
  let isSnanShifted := zextBit isSnan <<< 8
  let isQnanShifted := zextBit isQnan <<< 9
  let v5 := isNeginfShifted ||| isNegnormShifted
  let v6 := v5 ||| isNegsubShifted
  let v7 := v6 ||| isNegzeroShifted
  let v8 := v7 ||| isPoszeroShifted
  let v9 := v8 ||| isPossubShifted
  let v10 := v9 ||| isPosnormShifted
  let v11 := v10 ||| isPosinfShifted
  let v12 := v11 ||| isSnanShifted
  let v13 := v12 ||| isQnanShifted
  v13

/-- `%11`, with the bit of the signalling NaNs, is read by nothing. -/
def FCLASS_D (v0 : BitVec 64) : BitVec 64 :=
  let v3 : BitVec double.width := v0
  let isSnan := isFpclass v3 1
  let isQnan := isFpclass v3 2
  let isNeginf := isFpclass v3 4
  let isNegnorm := isFpclass v3 8
  let isNegsub := isFpclass v3 16
  let isNegzero := isFpclass v3 32
  let isPoszero := isFpclass v3 64
  let isPossub := isFpclass v3 128
  let isPosnorm := isFpclass v3 256
  let isPosinf := isFpclass v3 512
  let isNeginfShifted := zextBit isNeginf
  let isNegnormShifted := zextBit isNegnorm <<< 1
  let isNegsubShifted := zextBit isNegsub <<< 2
  let isNegzeroShifted := zextBit isNegzero <<< 3
  let isPoszeroShifted := zextBit isPoszero <<< 4
  let isPossubShifted := zextBit isPossub <<< 5
  let isPosnormShifted := zextBit isPosnorm <<< 6
  let isPosinfShifted := zextBit isPosinf <<< 7
  let isSnanShifted := zextBit isSnan <<< 8
  let isQnanShifted := zextBit isQnan <<< 9
  let v4 := isNeginfShifted ||| isNegnormShifted
  let v5 := v4 ||| isNegsubShifted
  let v6 := v5 ||| isNegzeroShifted
  let v7 := v6 ||| isPoszeroShifted
  let v8 := v7 ||| isPossubShifted
  let v9 := v8 ||| isPosnormShifted
  let v10 := v9 ||| isPosinfShifted
  let _v11 := v10 ||| isSnanShifted
  let v12 := v10 ||| isQnanShifted
  v12

/-- The conversions of the target: an integer to the float it is rounded to, and a float to the
integer of a width that `fptosi` and `fptoui` give. -/
structure Conversions where
  ofInteger : (F : Format) → ℤ → BitVec F.width
  fptosi : (F : Format) → (w : Nat) → BitVec F.width → BitVec w
  fptoui : (F : Format) → (w : Nat) → BitVec F.width → BitVec w

namespace Conversions
variable (conv : Conversions) (F : Format) {w : Nat}

def sitofp (v : BitVec w) : BitVec F.width := conv.ofInteger F v.toInt

def uitofp (v : BitVec w) : BitVec F.width := conv.ofInteger F v.toNat

def FCVT_S_W (v0 : BitVec 64) : BitVec 64 :=
  let v3 := v0.setWidth 32
  let v4 := conv.sitofp single v3
  boxed v4

/-- The source is truncated as in `FCVT_S_W`. -/
def FCVT_S_L (v0 : BitVec 64) : BitVec 64 :=
  let v3 := v0.setWidth 32
  let v4 := conv.sitofp single v3
  boxed v4

def FCVT_S_WU (v0 : BitVec 64) : BitVec 64 :=
  let v3 := v0.setWidth 32
  let v4 := conv.uitofp single v3
  boxed v4

def FCVT_W_S (v0 : BitVec 64) : BitVec 64 :=
  let v3 := v0.setWidth 32
  let v4 : BitVec single.width := v3
  let v5 := conv.fptosi single 32 v4
  let v6 := v5.signExtend 64
  v6

def FCVT_L_S (v0 : BitVec 64) : BitVec 64 :=
  let v3 := v0.setWidth 32
  let v4 : BitVec single.width := v3
  let v5 := conv.fptosi single 64 v4
  v5

def FCVT_LU_S (v0 : BitVec 64) : BitVec 64 :=
  let v3 := v0.setWidth 32
  let v4 : BitVec single.width := v3
  let v5 := conv.fptoui single 64 v4
  v5

/-- The integer is boxed like a single. -/
def FCVT_WU_S (v0 : BitVec 64) : BitVec 64 :=
  let v3 := v0.setWidth 32
  let v4 : BitVec single.width := v3
  let v5 := conv.fptoui single 32 v4
  boxed v5

def FCVT_D_LU (v0 : BitVec 64) : BitVec 64 :=
  let v3 := conv.uitofp double v0
  v3

def FCVT_WU_D (v0 : BitVec 64) : BitVec 64 :=
  let v3 : BitVec double.width := v0
  let v4 := conv.fptoui double 32 v3
  let v5 := v4.signExtend 64
  v5

def FCVT_D_WU (v0 : BitVec 64) : BitVec 64 :=
  let v3 := v0.setWidth 32
  let v4 := conv.uitofp double v3
  v4

def FCVT_D_W (v0 : BitVec 64) : BitVec 64 :=
  let v3 := v0.setWidth 32
  let v4 := conv.sitofp double v3
  v4

/-- The integer is boxed like a single. -/
def FCVT_W_D (v0 : BitVec 64) : BitVec 64 :=
  let v3 : BitVec double.width := v0
  let v4 := conv.fptosi double 32 v3
  boxed v4

def FCVT_L_D (v0 : BitVec 64) : BitVec 64 :=
  let v3 : BitVec double.width := v0
  let v4 := conv.fptosi double 64 v3
  v4

def FCVT_LU_D (v0 : BitVec 64) : BitVec 64 :=
  let v3 : BitVec double.width := v0
  let v4 := conv.fptoui double 64 v3
  v4

def FCVT_D_L (v0 : BitVec 64) : BitVec 64 :=
  let v3 := conv.sitofp double v0
  v3

end Conversions
end Bleach.Templates
