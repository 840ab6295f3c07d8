import Bleach.Machine

/-! The fragment of LLVM IR the lifter emits. Address computations
(`getelementptr`) are folded into the pointer operands; every other emitted
instruction has a constructor of its own. -/
namespace Bleach

/-- An integer with its bit width. -/
structure APInt where
  width : Nat
  bits : BitVec width
  deriving DecidableEq

namespace APInt

def ofInt (width : Nat) (v : Int) : APInt := ⟨width, BitVec.ofInt width v⟩

/-- `CreateSExtOrTrunc`. -/
def sextOrTrunc (v : APInt) (width : Nat) : APInt := ⟨width, v.bits.signExtend width⟩

@[simp] theorem ofInt_width (w : Nat) (v : Int) : (ofInt w v).width = w := rfl
@[simp] theorem sextOrTrunc_width (v : APInt) (w : Nat) : (v.sextOrTrunc w).width = w := rfl

theorem sextOrTrunc_self (v : APInt) : v.sextOrTrunc v.width = v := by
  simp [sextOrTrunc, BitVec.signExtend_eq]

end APInt

/-- The function body a config gives for one instruction. `ret = 0` is `void`.
`eval` is its meaning over the state `W` that lifted code shares with its
environment; it is partial where the body has undefined behaviour. -/
structure InstrFunction (W : Type) where
  params : List Nat
  ret : Nat
  eval : List APInt → W → Option (BitVec ret × W)

/-- The local variable `materialize_registers` allocates for register `reg` of
register class `cls`. -/
structure Cell where
  cls : Nat
  reg : Register
  deriving DecidableEq

/-- Element `idx` of member `cls` of `register_state`. -/
structure Slot where
  cls : Nat
  idx : Nat
  deriving DecidableEq

/-- Results of emitted instructions, named by the machine instruction
(block and index in it) they are emitted for. -/
inductive ValueId where
  | operand (b i k : Nat)
  | cast (b i k : Nat)
  | sp (b i : Nat)
  | index (b i : Nat)
  | result (b i : Nat)
  | callee (b i : Nat)
  | copy (c : Cell)
  deriving DecidableEq

inductive Value where
  | const (c : APInt)
  | ssa (id : ValueId)
  deriving DecidableEq

inductive Ptr where
  | cell (c : Cell)
  | slot (s : Slot)
  | stack (idx : Value)
  deriving DecidableEq

/-- IR basic blocks: the clone of a machine block, or the block
`get_if_false_block` creates behind conditional branch `i` of block `b`. -/
inductive Label where
  | mbb (b : BlockId)
  | split (b : BlockId) (i : Nat)
  deriving DecidableEq

inductive Inst where
  | alloca (c : Cell)
  | load (dst : ValueId) (width : Nat) (src : Ptr)
  | store (val : Value) (dst : Ptr)
  | sextOrTrunc (dst : ValueId) (val : Value) (width : Nat)
  | add (dst : ValueId) (lhs rhs : Value)
  | callInstr (dst : ValueId) (name : String) (args : List Value)
  | symtabAdd (addr : BitVec 64) (func : FuncId)
  | symtabLookup (dst : ValueId) (addr : Value)
  | call (callee : FuncId)
  | callPtr (callee : ValueId)
  | br (dest : Label)
  | condBr (cond : Value) (ifTrue ifFalse : Label)
  | retVoid
  deriving DecidableEq

namespace Inst

def targets : Inst → List Label
  | .br dest => [dest]
  | .condBr _ ifTrue ifFalse => [ifTrue, ifFalse]
  | _ => []

/-- Instructions that neither leave the block nor enter another function. -/
def isPlain : Inst → Bool
  | .call _ | .callPtr _ | .br _ | .condBr .. | .retVoid => false
  | _ => true

/-- The stack index an instruction accesses. -/
def stackIndex? : Inst → Option Value
  | .load _ _ (.stack idx) | .store _ (.stack idx) => some idx
  | _ => none

/-- The value an instruction defines. -/
def dst? : Inst → Option ValueId
  | .load dst .. | .sextOrTrunc dst .. | .add dst .. | .callInstr dst .. | .symtabLookup dst _ => some dst
  | _ => none

def isTerminator : Inst → Bool
  | .br _ | .condBr .. | .retVoid => true
  | _ => false

end Inst

/-- The part of a block that can be executed: nothing in front of it ends the block. -/
def live (code : List Inst) : List Inst := code.takeWhile (!Inst.isTerminator ·)

/-- A lifted function; without a body it is a declaration. -/
structure LiftedFunction where
  name : String
  body : Option (Label → List Inst)

/-- A lifted module together with the functions of the config linked into it. -/
structure IRModule (W : Type) where
  /-- Bit width of the registers of each register class. -/
  widths : Nat → Nat
  stackElemBits : Nat
  stackCount : Nat
  getFunction : String → Option (InstrFunction W)
  funcs : List LiftedFunction

/-- `func.front()`. -/
def entryLabel : Label := .mbb 0

end Bleach
