import Bleach.Base.Transition
import Bleach.Base.ByteMemory
import Bleach.IR

/-! Execution of lifted modules. Every register-state slot and every local has
the width of its register class in its type; the inline stack is a byte array. -/
namespace Bleach
open ByteMemory (Memory)

inductive RuntimeValue where
  | int (v : APInt)
  | func (f : FuncId)
  deriving DecidableEq

abbrev Locals (w : Nat → Nat) := (c : Cell) → BitVec (w c.cls)
abbrev Slots (w : Nat → Nat) := (s : Slot) → BitVec (w s.cls)
abbrev Env := ValueId → Option RuntimeValue

/-- What survives a call: `register_state`, the run-time symbol table and
everything instruction functions can reach. -/
structure Shared (w : Nat → Nat) (W : Type) where
  slots : Slots w
  stack : Memory Nat
  symtab : List (BitVec 64 × FuncId)
  world : W

structure Data (w : Nat → Nat) (W : Type) where
  env : Env
  locals : Locals w
  shared : Shared w W

structure Frame (w : Nat → Nat) where
  func : FuncId
  label : Label
  /-- What is left to execute of block `label`. -/
  code : List Inst
  env : Env
  locals : Locals w

structure Config (w : Nat → Nat) (W : Type) where
  frames : List (Frame w)
  shared : Shared w W

/-- Write a value to the low end of a variable; wider values do not fit. -/
def overwrite (old : BitVec w) (v : APInt) : Option (BitVec w) :=
  if v.width ≤ w then some ((old >>> v.width) <<< v.width ||| v.bits.setWidth w) else none

/-- Read the low end of a variable. -/
def readLow (old : BitVec w) (width : Nat) : Option APInt :=
  if width ≤ w then some ⟨width, old.setWidth width⟩ else none

@[simp] theorem overwrite_full (old v : BitVec w) : overwrite old ⟨w, v⟩ = some v := by
  simp [overwrite]

@[simp] theorem readLow_full (old : BitVec w) : readLow old w = some ⟨w, old⟩ := by
  simp [readLow]

variable {W : Type} {w : Nat → Nat}

def evalValue (env : Env) : Value → Option RuntimeValue
  | .const c => some (.int c)
  | .ssa id => env id

def evalInt (env : Env) (v : Value) : Option APInt :=
  match evalValue env v with
  | some (.int c) => some c
  | _ => none

/-- Element address of the inline stack, if an access of `width` bits there
stays inside the array. -/
def stackAddress (M : IRModule W) (idx : APInt) (width : Nat) : Option Nat :=
  let addr := idx.bits.toNat * (M.stackElemBits / 8)
  if 8 ∣ width ∧ addr + width / 8 ≤ M.stackCount * (M.stackElemBits / 8) then some addr else none

def loadPtr (M : IRModule W) (width : Nat) (d : Data M.widths W) : Ptr → Option APInt
  | .cell c => readLow (d.locals c) width
  | .slot s => readLow (d.shared.slots s) width
  | .stack idx => do
    let i ← evalInt d.env idx
    let addr ← stackAddress M i width
    some ⟨width, (ByteMemory.load d.shared.stack addr (width / 8)).setWidth width⟩

def storePtr (M : IRModule W) (v : APInt) (d : Data M.widths W) : Ptr → Option (Data M.widths W)
  | .cell c => do
    let new ← overwrite (d.locals c) v
    some { d with locals := Function.update d.locals c new }
  | .slot s => do
    let new ← overwrite (d.shared.slots s) v
    some { d with shared := { d.shared with slots := Function.update d.shared.slots s new } }
  | .stack idx => do
    let i ← evalInt d.env idx
    let addr ← stackAddress M i v.width
    some { d with shared := { d.shared with
      stack := ByteMemory.store d.shared.stack addr v.bits (v.width / 8) } }

def Data.bind (d : Data w W) (id : ValueId) (v : RuntimeValue) : Data w W :=
  { d with env := Function.update d.env id (some v) }

/-- `std::unordered_map::try_emplace`. -/
def symtabAdd (symtab : List (BitVec 64 × FuncId)) (addr : BitVec 64) (f : FuncId) :
    List (BitVec 64 × FuncId) :=
  if (symtab.lookup addr).isSome then symtab else (addr, f) :: symtab

def symtabLookup (symtab : List (BitVec 64 × FuncId)) (addr : APInt) : Option FuncId :=
  if addr.width = 64 then symtab.lookup (addr.bits.setWidth 64) else none

/-- Execute one plain instruction; `none` where it is undefined or ill typed. -/
def execInst (M : IRModule W) (d : Data M.widths W) : Inst → Option (Data M.widths W)
  | .alloca c => some { d with locals := Function.update d.locals c 0 }
  | .load dst width src => do
    let v ← loadPtr M width d src
    some (d.bind dst (.int v))
  | .store val dst => do
    let v ← evalInt d.env val
    storePtr M v d dst
  | .sextOrTrunc dst val width => do
    let v ← evalInt d.env val
    some (d.bind dst (.int (v.sextOrTrunc width)))
  | .add dst lhs rhs => do
    let a ← evalInt d.env lhs
    let b ← evalInt d.env rhs
    if a.width = b.width then
      some (d.bind dst (.int ⟨a.width, a.bits + b.bits.setWidth a.width⟩))
    else none
  | .callInstr dst name args => do
    let f ← M.getFunction name
    let vs ← args.mapM (evalInt d.env)
    if vs.map APInt.width = f.params then
      let (r, world) ← f.eval vs d.shared.world
      let d := { d with shared := { d.shared with world := world } }
      -- a `void` call has no value
      some (if f.ret = 0 then d else d.bind dst (.int ⟨f.ret, r⟩))
    else none
  | .symtabAdd addr f =>
    some { d with shared := { d.shared with symtab := symtabAdd d.shared.symtab addr f } }
  | .symtabLookup dst addr => do
    let a ← evalInt d.env addr
    let f ← symtabLookup d.shared.symtab a
    some (d.bind dst (.func f))
  | _ => none

def execCode (M : IRModule W) : List Inst → Data M.widths W → Option (Data M.widths W)
  | [], d => some d
  | i :: rest, d => (execInst M d i).bind (execCode M rest)

theorem execCode_append (M : IRModule W) (first second : List Inst) (d : Data M.widths W) :
    execCode M (first ++ second) d = (execCode M first d).bind (execCode M second) := by
  induction first generalizing d with
  | nil => rfl
  | cons i rest ih =>
    simp only [List.cons_append, execCode, Option.bind_assoc]
    exact congrArg _ (funext ih)

theorem execInst_plain {M : IRModule W} {d d' : Data M.widths W} {i : Inst}
    (done : execInst M d i = some d') : i.isPlain = true := by
  cases i <;> simp_all [execInst, Inst.isPlain]

namespace Frame

def data (fr : Frame w) (shared : Shared w W) : Data w W := ⟨fr.env, fr.locals, shared⟩

def withData (fr : Frame w) (d : Data w W) : Frame w := { fr with env := d.env, locals := d.locals }

end Frame

namespace IRModule

def body (M : IRModule W) (f : FuncId) : Option (Label → List Inst) :=
  (M.funcs[f]?).bind LiftedFunction.body

/-- A new activation of a function, at the start of its first block. -/
def entryFrame (M : IRModule W) (f : FuncId) (blocks : Label → List Inst) : Frame M.widths :=
  ⟨f, entryLabel, blocks entryLabel, fun _ => none, fun _ => 0⟩

def jump (M : IRModule W) (fr : Frame M.widths) (dest : Label) : Option (Frame M.widths) :=
  (M.body fr.func).map fun blocks => { fr with label := dest, code := blocks dest }

def enter (M : IRModule W) (f : FuncId) (callers : List (Frame M.widths))
    (shared : Shared M.widths W) : Option (Config M.widths W) :=
  (M.body f).map fun blocks => ⟨M.entryFrame f blocks :: callers, shared⟩

def step (M : IRModule W) (c : Config M.widths W) : Option (Config M.widths W) :=
  match c.frames with
  | [] => none
  | fr :: rest =>
    match fr.code with
    | [] => none
    | i :: code =>
      let here := { fr with code := code }
      match i with
      | .retVoid => some { c with frames := rest }
      | .br dest => (M.jump here dest).map fun fr' => { c with frames := fr' :: rest }
      | .condBr cond ifTrue ifFalse => do
        let v ← evalInt fr.env cond
        if v.width = 1 then
          let fr' ← M.jump here (if v.bits.toNat = 1 then ifTrue else ifFalse)
          some { c with frames := fr' :: rest }
        else none
      | .call callee => M.enter callee (here :: rest) c.shared
      | .callPtr callee =>
        match fr.env callee with
        | some (.func f) => M.enter f (here :: rest) c.shared
        | _ => none
      | plain => do
        let d ← execInst M (fr.data c.shared) plain
        some ⟨here.withData d :: rest, d.shared⟩

variable {M : IRModule W} {fr : Frame M.widths} {rest : List (Frame M.widths)}
  {shared : Shared M.widths W} {code : List Inst}

theorem step_plain {i : Inst} {d : Data M.widths W} (at_ : fr.code = i :: code)
    (done : execInst M (fr.data shared) i = some d) :
    M.step ⟨fr :: rest, shared⟩ = some ⟨{ fr with code := code }.withData d :: rest, d.shared⟩ := by
  have plain := execInst_plain done
  cases i <;> simp_all [step, Inst.isPlain]

theorem step_ret (at_ : fr.code = .retVoid :: code) :
    M.step ⟨fr :: rest, shared⟩ = some ⟨rest, shared⟩ := by
  simp [step, at_]

theorem step_br {dest : Label} {blocks : Label → List Inst} (at_ : fr.code = .br dest :: code)
    (body : M.body fr.func = some blocks) :
    M.step ⟨fr :: rest, shared⟩ =
      some ⟨{ fr with label := dest, code := blocks dest } :: rest, shared⟩ := by
  simp [step, at_, jump, body]

theorem step_condBr {cond : Value} {ifTrue ifFalse : Label} {blocks : Label → List Inst}
    {v : BitVec 1} (at_ : fr.code = .condBr cond ifTrue ifFalse :: code)
    (body : M.body fr.func = some blocks) (value : evalInt fr.env cond = some ⟨1, v⟩) :
    M.step ⟨fr :: rest, shared⟩ =
      some ⟨{ fr with label := if v.toNat = 1 then ifTrue else ifFalse,
                      code := blocks (if v.toNat = 1 then ifTrue else ifFalse) } :: rest, shared⟩ := by
  simp [step, at_, jump, body, value]

theorem step_call {callee : FuncId} {blocks : Label → List Inst} (at_ : fr.code = .call callee :: code)
    (body : M.body callee = some blocks) :
    M.step ⟨fr :: rest, shared⟩ =
      some ⟨M.entryFrame callee blocks :: { fr with code := code } :: rest, shared⟩ := by
  simp [step, at_, enter, body]

/-- Straight-line code executes without touching the frames below. -/
theorem run_plain (rest : List (Frame M.widths)) {d : Data M.widths W} (at_ : fr.code = first ++ code)
    (done : execCode M first (fr.data shared) = some d) :
    Transition.iterate M.step first.length ⟨fr :: rest, shared⟩ =
      some ⟨{ fr with code := code }.withData d :: rest, d.shared⟩ := by
  induction first generalizing fr shared with
  | nil =>
    obtain rfl := Option.some.inj done
    obtain ⟨func, label, _, env, locals⟩ := fr
    obtain rfl : _ = code := at_
    rfl
  | cons i later ih =>
    obtain ⟨middle, one, tail⟩ := Option.bind_eq_some_iff.mp done
    rw [List.length_cons, Transition.iterate_succ, step_plain at_ one, Option.bind_some]
    have start : ({ fr with code := later ++ code }.withData middle).data middle.shared = middle := rfl
    exact ih rfl (start ▸ tail)

end IRModule
end Bleach
