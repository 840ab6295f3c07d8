import Bleach.CompareBranch
import Bleach.Lifter.BranchEraser
import Bleach.RegisterWrites
import Bleach.Subregisters

/-! Shifted immediates on AArch64. The shift amount is an operand of 64 bits and the parameter a
flag, so that the cast keeps the lowest bit of the amount. -/
namespace Bleach
open Templates (NZCV FlagsM)
variable {W : Type} {cx : Context W} {M : IRModule W} {s : Site} {st st' : Builder} {minst : MachineInstr}
  {addr : Option (BitVec 64)}

/-- What an instruction appends, its operand loads first. -/
def Builder.instructionCode (s : Site) (st st' : Builder) : List Inst :=
  (if st.cur = s.label then [] else (st'.blocks s.label).drop (st.blocks s.label).length) ++ st.newCode st'

/-- Everything up to the stores leaves a value for the result. -/
def Computes (M : IRModule W) (s : Site) (code : List Inst) (d : Data M.widths W) (v : APInt) : Prop :=
  ∃ d', execCode M (code.takeWhile fun i => i.dst?.isSome) d = some d' ∧
    evalInt d'.env (.ssa (.result s.block s.idx)) = some v

theorem Computes.unique {code : List Inst} {d : Data M.widths W} {v v' : APInt}
    (computes : Computes M s code d v) (computes' : Computes M s code d v') : v = v' := by
  obtain ⟨d₁, run, value⟩ := computes
  obtain ⟨d₂, run', value'⟩ := computes'
  obtain rfl := Option.some.inj (run.symm.trans run')
  exact Option.some.inj (value.symm.trans value')

theorem instructionCode_append (loads rest : List Inst) (sptrack : StackPointerTracker) :
    Builder.instructionCode s st { (st.insert s.label loads).emit rest with sptrack := sptrack } =
      loads ++ rest := by
  by_cases own : st.cur = s.label
  · simp [Builder.instructionCode, Builder.newCode, Builder.emit, Builder.insert, own]
  · simp [Builder.instructionCode, Builder.newCode, Builder.emit, Builder.insert, own, Ne.symm own]

theorem exec_callInstr {name : String} {f : InstrFunction W} (found : M.getFunction name = some f)
    {args : List Value} {vs : List APInt} {d : Data M.widths W} {r : BitVec f.ret} {world : W}
    (values : args.map (evalInt d.env) = vs.map some) (params : vs.map APInt.width = f.params)
    (returns : f.eval vs d.shared.world = some (r, world)) (positive : 0 < f.ret) (id : ValueId) :
    ∃ d', execInst M d (.callInstr id name args) = some d' ∧
      evalInt d'.env (.ssa id) = some ⟨f.ret, r⟩ := by
  let called : Data M.widths W := { d with shared := { d.shared with world := world } }
  refine ⟨called.bind id (.int ⟨f.ret, r⟩), ?_, by simp [evalInt, evalValue, Data.bind]⟩
  simp only [execInst, found, mapM_of_map values, params, returns, Option.bind_eq_bind, Option.bind_some,
    if_true, positive.ne', if_false]
  rfl

/-- Arguments without a parameter are dropped, every parameter has one. -/
theorem zipWith_sextOrTrunc_append {vs : List APInt} {tys : List Nat} (extra : List APInt)
    (enough : tys.length ≤ vs.length) :
    List.zipWith APInt.sextOrTrunc (vs ++ extra) tys = List.zipWith APInt.sextOrTrunc vs tys ∧
      (List.zipWith APInt.sextOrTrunc vs tys).map APInt.width = tys := by
  induction tys generalizing vs with
  | nil => simp
  | cons ty tys ih =>
    cases vs with
    | nil => cases enough
    | cons v rest =>
      obtain ⟨same, widths⟩ := ih (Nat.le_of_succ_le_succ enough)
      simp [same, widths]

theorem pcArgument_values {pc : List Value} (done : pcArgument cx minst addr = .ok pc) (env : Env) :
    (∃ counter : List APInt, pc.map (evalInt env) = counter.map some) ∧
      ∀ v ∈ pc, ∀ n, v ≠ .ssa (.cast s.block s.idx n) := by
  have const := fun v member => pcArgument_const done (v := v) member
  refine ⟨?_, fun v member n same => ?_⟩
  · clear done
    induction pc with
    | nil => exact ⟨[], rfl⟩
    | cons v rest ih =>
      obtain ⟨⟨c, rfl⟩, others⟩ := List.forall_mem_cons.mp const
      obtain ⟨counter, values⟩ := ih others
      exact ⟨c :: counter, by simp [values, evalInt, evalValue]⟩
  · obtain ⟨c, rfl⟩ := const v member
    cases same

theorem takeWhile_written {front writes : List Inst} {id : ValueId} {defs : List MachineOperand}
    (defines : ∀ i ∈ front, i.dst?.isSome = true) (written : writeDefs cx (.ssa id) defs = .ok writes) :
    (front ++ writes).takeWhile (fun i => i.dst?.isSome) = front := by
  have back : writes.takeWhile (fun i => i.dst?.isSome) = [] := by
    cases writes with
    | nil => rfl
    | cons i rest => simp [(resultStores_writeDefs written).no_values i List.mem_cons_self]
  rw [List.takeWhile_append_of_pos defines, back, List.append_nil]

/-- The generic path applies the function to the operands, each cast to the type of its
parameter. -/
theorem generic_computes (widths : M.widths = cx.stats.widths)
    (functions : M.getFunction = cx.instrs.getFunction) {f : InstrFunction W}
    (found : cx.instrs.getFunction minst.desc.name = some f)
    (done : generateGeneric cx s minst addr st = .ok st') {d : Data M.widths W} {vs : List APInt}
    (values : (minst.uses.filter MachineOperand.isArgument).map (argumentValue cx d.locals) = vs.map some)
    (enough : f.params.length ≤ vs.length) {r : BitVec f.ret} {world : W}
    (returns : f.eval (List.zipWith APInt.sextOrTrunc vs f.params) d.shared.world = some (r, world))
    (positive : 0 < f.ret) : Computes M s (Builder.instructionCode s st st') d ⟨f.ret, r⟩ := by
  obtain ⟨f', loads, args, pc, writes, function, operands, counter, written, rfl⟩ := generateGeneric_ok done
  obtain rfl := Option.some.inj (function.symm.trans found)
  have defines := operands_define operands s.label
  rw [if_pos rfl] at defines
  obtain ⟨vals, loading, required⟩ := operands
  obtain rfl := required_values required
  obtain ⟨d₁, loaded, state⟩ := exec_operands widths loading d
  obtain ⟨evaluated, own⟩ := state.arguments
  obtain ⟨⟨extra, counts⟩, ownPc⟩ := pcArgument_values (s := s) counter d₁.env
  have passed : (args ++ pc).map (evalInt d₁.env) = (vs ++ extra).map some := by
    rw [List.map_append, List.map_append, evaluated, values, counts]
  obtain ⟨d₂, cast, -, shared, -, casted⟩ :=
    exec_castArgs f'.params 0 passed (List.forall_mem_append.mpr ⟨own, ownPc⟩)
  obtain ⟨dropped, full⟩ := zipWith_sextOrTrunc_append extra enough
  rw [dropped] at casted
  have unchanged : d₂.shared = d.shared := shared.trans state.shared
  rw [← unchanged] at returns
  obtain ⟨d₃, call, result⟩ := exec_callInstr ((congrFun functions _).trans found) casted
    full returns positive (.result s.block s.idx)
  refine ⟨d₃, ?_, result⟩
  let casts := (castArgs s (args ++ pc) f'.params 0).1
  let last := Inst.callInstr (.result s.block s.idx) minst.desc.name (castArgs s (args ++ pc) f'.params 0).2
  have front : ∀ i ∈ loads ++ casts ++ [last], i.dst?.isSome = true := by
    refine List.forall_mem_append.mpr ⟨List.forall_mem_append.mpr ⟨defines, fun i member => ?_⟩, ?_⟩
    · obtain ⟨n, arg, width, rfl⟩ := castArgs_casts s _ _ _ i member
      rfl
    · simp [last, Inst.dst?]
  have split : loads ++ (casts ++ last :: writes) = (loads ++ casts ++ [last]) ++ writes := by simp
  rw [instructionCode_append, split, takeWhile_written front written, execCode_append,
    execCode_append, loaded, Option.bind_some, cast, Option.bind_some, execCode, call]
  rfl

inductive ShiftedImmediate where
  | ADDXri | SUBXri | SUBSXri
  deriving DecidableEq

namespace ShiftedImmediate

def name : ShiftedImmediate → String
  | ADDXri => "ADDXri"
  | SUBXri => "SUBXri"
  | SUBSXri => "SUBSXri"

def template : ShiftedImmediate → BitVec 64 → BitVec 64 → Bool → FlagsM (BitVec 64)
  | ADDXri => fun xn i sh => pure (Templates.ADDXri xn i sh)
  | SUBXri => fun xn i sh => pure (Templates.SUBXri xn i sh)
  | SUBSXri => Templates.SUBSXri

/-- The function of the config, over the flags and whatever else lifted code shares. -/
def func (op : ShiftedImmediate) : InstrFunction (NZCV × W) where
  params := [64, 64, 1]
  ret := 64
  eval
    | [xn, i, sh], (nzcv, world) =>
      ((op.template (xn.bits.setWidth 64) (i.bits.setWidth 64) (sh.bits.getLsbD 0)).run nzcv).map
        fun (res, nzcv) => (res, nzcv, world)
    | _, _ => none

/-- A destination, a register, an immediate and the amount; what follows is implicit. -/
def instr (op : ShiftedImmediate) (rd rn : Register) (imm : BitVec 12) (amount : Nat)
    (implicit : List (Register × Bool)) : MachineInstr where
  desc := { name := op.name, numDefs := 1 }
  operands := .reg rd true false :: .reg rn false false :: .imm imm.toNat :: .imm amount ::
    implicit.map fun (reg, isDef) => .reg reg isDef true

/-- What the architecture computes. -/
def expected (op : ShiftedImmediate) (xn : BitVec 64) (imm : BitVec 12) (amount : Nat) : BitVec 64 :=
  match op with
  | ADDXri => xn + imm.setWidth 64 <<< amount
  | SUBXri | SUBSXri => xn - imm.setWidth 64 <<< amount

/-- Where nothing is lost. -/
def Keeps (op : ShiftedImmediate) (imm : BitVec 12) (amount : Nat) : Prop :=
  match op with
  | ADDXri | SUBXri => amount = 0 ∨ imm = 0
  | SUBSXri => imm = 0

/-- What the lifted instruction computes: the shift is dropped, and `SUBSXri` adds. -/
def lifted (op : ShiftedImmediate) (xn : BitVec 64) (imm : BitVec 12) : BitVec 64 :=
  match op with
  | ADDXri | SUBSXri => xn + imm.setWidth 64
  | SUBXri => xn - imm.setWidth 64

theorem template_run (op : ShiftedImmediate) (xn : BitVec 64) (imm : BitVec 12) (nzcv : NZCV) :
    ∃ nzcv', (op.template xn (imm.setWidth 64) false).run nzcv = some (op.lifted xn imm, nzcv') := by
  cases op with
  | ADDXri | SUBXri => exact ⟨nzcv, rfl⟩
  | SUBSXri => exact ⟨_, Templates.comparison_run xn (imm.setWidth 64) false nzcv⟩

/-- An immediate shifted by twelve is another one, unless it is zero. -/
theorem shifted_eq_iff (imm : BitVec 12) :
    (imm.setWidth 64 : BitVec 64) <<< 12 = imm.setWidth 64 ↔ imm = 0 := by
  have bound := imm.isLt
  constructor
  · intro same
    have value := congrArg BitVec.toNat same
    rw [BitVec.toNat_shiftLeft, BitVec.toNat_setWidth, Nat.shiftLeft_eq, Nat.mod_eq_of_lt (by omega),
      Nat.mod_eq_of_lt (by omega)] at value
    apply BitVec.eq_of_toNat_eq
    change imm.toNat = 0
    omega
  · rintro rfl
    rfl

theorem add_shifted_iff (imm : BitVec 12) {amount : Nat} (shift : amount = 0 ∨ amount = 12) :
    (imm.setWidth 64 : BitVec 64) + imm.setWidth 64 <<< amount = 0 ↔ imm = 0 := by
  have bound := imm.isLt
  constructor
  · intro zero
    have value := congrArg BitVec.toNat zero
    apply BitVec.eq_of_toNat_eq
    change imm.toNat = 0
    have short : imm.toNat * 2 ^ amount < 2 ^ 24 := by rcases shift with rfl | rfl <;> omega
    rw [BitVec.toNat_add, BitVec.toNat_shiftLeft, BitVec.toNat_setWidth, Nat.shiftLeft_eq,
      Nat.mod_eq_of_lt (show imm.toNat < 2 ^ 64 by omega), Nat.mod_eq_of_lt (by omega),
      Nat.mod_eq_of_lt (by omega)] at value
    exact (Nat.add_eq_zero_iff.mp value).1
  · rintro rfl
    rcases shift with rfl | rfl <;> rfl

theorem expected_eq_lifted_iff (op : ShiftedImmediate) (xn : BitVec 64) (imm : BitVec 12) {amount : Nat}
    (shift : amount = 0 ∨ amount = 12) :
    op.expected xn imm amount = op.lifted xn imm ↔ op.Keeps imm amount := by
  have kept : (imm.setWidth 64 : BitVec 64) <<< amount = imm.setWidth 64 ↔ amount = 0 ∨ imm = 0 := by
    rcases shift with rfl | rfl
    · simp
    · simp [shifted_eq_iff]
  cases op with
  | ADDXri => exact add_right_inj xn |>.trans kept
  | SUBXri => exact sub_right_inj.trans kept
  | SUBSXri =>
    change xn - _ = xn + _ ↔ imm = 0
    rw [sub_eq_add_neg, add_right_inj, neg_eq_iff_add_eq_zero, add_comm, add_shifted_iff imm shift]

theorem instr_arguments (op : ShiftedImmediate) (rd rn : Register) (imm : BitVec 12) (amount : Nat)
    (implicit : List (Register × Bool)) :
    (op.instr rd rn imm amount implicit).uses.filter MachineOperand.isArgument =
      [.reg rn false false, .imm imm.toNat, .imm amount] := by
  have none : (implicit.map fun (reg, isDef) => MachineOperand.reg reg isDef true).filter
      MachineOperand.isArgument = [] := by
    refine List.filter_eq_nil_iff.mpr fun op member => ?_
    obtain ⟨⟨reg, isDef⟩, -, rfl⟩ := List.mem_map.mp member
    simp [MachineOperand.isArgument]
  simp only [MachineInstr.uses, instr, List.drop_succ_cons, List.drop_zero, MachineOperand.isArgument,
    List.filter_cons, none]
  rfl

end ShiftedImmediate

variable {cx : Context (NZCV × W)} {M : IRModule (NZCV × W)} {rd rn : Register} {imm : BitVec 12}
  {amount : Nat} {implicit : List (Register × Bool)} {xn : BitVec 64}

theorem lifted_computed (widths : M.widths = cx.stats.widths)
    (functions : M.getFunction = cx.instrs.getFunction) (op : ShiftedImmediate)
    (found : cx.instrs.getFunction op.name = some op.func)
    (done : generateGeneric cx s (op.instr rd rn imm amount implicit) addr st = .ok st')
    (shift : amount = 0 ∨ amount = 12) {d : Data M.widths (NZCV × W)}
    (value : argumentValue cx d.locals (.reg rn false false) = some ⟨64, xn⟩) :
    Computes M s (Builder.instructionCode s st st') d ⟨64, op.lifted xn imm⟩ := by
  obtain ⟨nzcv', run⟩ := op.template_run xn imm d.shared.world.1
  have flag : ((BitVec.ofInt 64 amount).signExtend 1).getLsbD 0 = false := by
    rcases shift with rfl | rfl <;> rfl
  have values : ((op.instr rd rn imm amount implicit).uses.filter MachineOperand.isArgument).map
      (argumentValue cx d.locals) =
        [⟨64, xn⟩, APInt.ofInt 64 imm.toNat, APInt.ofInt 64 amount].map some := by
    rw [op.instr_arguments, List.map_cons, value]
    rfl
  have operand : ((BitVec.ofInt 64 imm.toNat).signExtend 64).setWidth 64 = imm.setWidth 64 := by
    rw [BitVec.signExtend_eq, BitVec.setWidth_eq, BitVec.ofInt_natCast, BitVec.ofNat_toNat]
  have returns : op.func.eval (List.zipWith APInt.sextOrTrunc
      [⟨64, xn⟩, APInt.ofInt 64 imm.toNat, APInt.ofInt 64 amount] [64, 64, 1]) d.shared.world =
        some (op.lifted xn imm, nzcv', d.shared.world.2) := by
    change ((op.template ((xn.signExtend 64).setWidth 64)
      (((BitVec.ofInt 64 imm.toNat).signExtend 64).setWidth 64)
      (((BitVec.ofInt 64 amount).signExtend 1).getLsbD 0)).run d.shared.world.1).map _ = _
    rw [flag, operand, BitVec.signExtend_eq, BitVec.setWidth_eq, run]
    rfl
  exact generic_computes widths functions (f := op.func) found done values (Nat.le_refl 3) returns
    (Nat.zero_lt_succ 63)

/-- The lifted instruction computes what the architecture does exactly for unshifted immediates
and for zero, and `SUBSXri` for zero only. -/
theorem shifted_immediate_iff (widths : M.widths = cx.stats.widths)
    (functions : M.getFunction = cx.instrs.getFunction) (op : ShiftedImmediate)
    (found : cx.instrs.getFunction op.name = some op.func)
    (done : generateGeneric cx s (op.instr rd rn imm amount implicit) addr st = .ok st')
    (shift : amount = 0 ∨ amount = 12) {d : Data M.widths (NZCV × W)}
    (value : argumentValue cx d.locals (.reg rn false false) = some ⟨64, xn⟩) :
    Computes M s (Builder.instructionCode s st st') d ⟨64, op.expected xn imm amount⟩ ↔
      op.Keeps imm amount := by
  have computed := lifted_computed widths functions op found done shift value
  rw [← op.expected_eq_lifted_iff xn imm shift]
  constructor
  · intro computes
    have same := computes.unique computed
    simpa using same
  · intro same
    rw [same]
    exact computed

namespace AArch64

/-- `X0` and the stack pointer. -/
def xRegisters : RegisterClass where
  name := "GPR64"
  bitsize := 64
  regs := ⟨[(5, []), (X0, [])], by decide⟩

/-- The three functions. -/
def context : Context (NZCV × Unit) where
  instrs :=
    { instrs := [.ADDXri, .SUBXri, .SUBSXri].map fun op : ShiftedImmediate =>
        { name := op.name, irModule := some op.func }
      stackPointer := "SP" }
  tm := rinfo.toTargetMachine
  stats := [xRegisters]

theorem context_function (op : ShiftedImmediate) : context.instrs.getFunction op.name = some op.func := by
  cases op <;> rfl

/-- An instruction on `X0`, alone in its block. -/
def site (op : ShiftedImmediate) (imm : BitVec 12) (amount : Nat) : Site :=
  ⟨1, 0, [op.instr X0 X0 imm amount []], 0⟩

def empty : Builder := ⟨fun _ => [], .mbb 0, {5}⟩

def generated (op : ShiftedImmediate) (imm : BitVec 12) (amount : Nat) : Lift Builder :=
  generateGeneric context (site op imm amount) (op.instr X0 X0 imm amount []) none empty

/-- Every register holds one. -/
def ones : Data (linkedModule context).widths (NZCV × Unit) :=
  ⟨fun _ => none, fun _ => 1, ⟨fun _ => 0, fun _ => 0, [], (0, ())⟩⟩

/-- The lifted code leaves a value when `X0` is one. -/
def ComputesOnOne (op : ShiftedImmediate) (imm : BitVec 12) (amount : Nat) (v : BitVec 64) : Prop :=
  ∃ st', generated op imm amount = .ok st' ∧ Computes (linkedModule context) (site op imm amount)
    (Builder.instructionCode (site op imm amount) empty st') ones ⟨64, v⟩

end AArch64

/-- `ADDXri X0, X0, 1, 12` adds one, and so does `SUBSXri X0, X0, 1, 0`. -/
theorem shift_amount_lost :
    AArch64.ComputesOnOne .ADDXri 1 12 2 ∧ ¬AArch64.ComputesOnOne .ADDXri 1 12 0x1001 ∧
    AArch64.ComputesOnOne .SUBSXri 1 0 2 ∧ ¬AArch64.ComputesOnOne .SUBSXri 1 0 0 := by
  have computed : ∀ (op : ShiftedImmediate) (amount : Nat), amount = 0 ∨ amount = 12 →
      ∃ st', AArch64.generated op 1 amount = .ok st' ∧
        Computes (linkedModule AArch64.context) (AArch64.site op 1 amount)
          (Builder.instructionCode (AArch64.site op 1 amount) AArch64.empty st') AArch64.ones
            ⟨64, op.lifted 1 1⟩ := by
    intro op amount shift
    have generates : ∃ st', AArch64.generated op 1 amount = .ok st' := by cases op <;> exact ⟨_, rfl⟩
    obtain ⟨st', done⟩ := generates
    exact ⟨st', done, lifted_computed rfl rfl op (AArch64.context_function op) done shift rfl⟩
  have other : ∀ (op : ShiftedImmediate) (amount : Nat) (v : BitVec 64), amount = 0 ∨ amount = 12 →
      AArch64.ComputesOnOne op 1 amount v → v = op.lifted 1 1 := by
    rintro op amount v shift ⟨st', done, computes⟩
    obtain ⟨st'', done', computes'⟩ := computed op amount shift
    obtain rfl := Except.ok.inj (done.symm.trans done')
    simpa using computes.unique computes'
  refine ⟨computed .ADDXri 12 (.inr rfl), fun shifted => ?_, computed .SUBSXri 0 (.inl rfl), fun zero => ?_⟩
  · exact absurd (other .ADDXri 12 _ (.inr rfl) shifted) (by decide)
  · exact absurd (other .SUBSXri 0 _ (.inl rfl) zero) (by decide)

theorem unshifted_added : AArch64.ComputesOnOne .ADDXri 5 0 6 := by
  obtain ⟨st', done⟩ : ∃ st', AArch64.generated .ADDXri 5 0 = .ok st' := ⟨_, rfl⟩
  refine ⟨st', done, ?_⟩
  have value : argumentValue AArch64.context AArch64.ones.locals (.reg AArch64.X0 false false) =
      some ⟨64, 1⟩ := rfl
  exact (shifted_immediate_iff rfl rfl .ADDXri (AArch64.context_function _) done (.inl rfl) value).mpr
    (.inl rfl)

end Bleach
