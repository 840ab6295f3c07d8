import Bleach.Lifter.Shape
import Bleach.Lifter.Emitted
import Bleach.Lifter.Operands

/-! Functions of instructions with one 64-bit result, returns, jumps and conditional
branches: what they mean on the machine, and that they can be lifted, calls between them
included. -/
namespace Bleach
variable {W : Type} {w : Nat → Nat} {cx : Context W} {mf : MachineFunction}
  {addrs : FunctionAddresses} {spReg : Register} {b i : Nat} {mbb : MachineBasicBlock}
  {minst : MachineInstr} {T : StackPointerTracker} {s : Site} {st st' : Builder}

/-- The machine in front of an instruction, or behind a return. -/
structure Guest (w : Nat → Nat) (W : Type) where
  place : Option (BlockId × Nat)
  regs : Locals w
  world : W

namespace MachineInstr

/-- The explicit uses, blocks aside. -/
def inputs (minst : MachineInstr) : List MachineOperand :=
  (minst.uses.filter MachineOperand.isArgument).filter (!·.isMBB)

/-- What the instruction function gives for the values of the inputs. -/
def result (cx : Context W) (minst : MachineInstr) (regs : Locals w) (world : W) :
    Option (APInt × W) := do
  let f ← cx.instrs.getFunction minst.desc.name
  let vs ← minst.inputs.mapM (argumentValue cx regs)
  let (r, world) ← f.eval vs world
  some (⟨f.ret, r⟩, world)

end MachineInstr

/-- What a register holds behind a write; a constant one keeps its constant. -/
def writtenValue (cx : Context W) (r : Register) (v : APInt) (width : Nat) : BitVec width :=
  match cx.instrs.constReg? cx.tm r with
  | some k => .ofInt width k.value
  | none => v.bits.setWidth width

def writeRegister (cx : Context W) (regs : Locals w) (r : Register) (v : APInt) : Locals w :=
  match cx.rmap.find r with
  | some c => Function.update regs c (writtenValue cx r v (w c.cls))
  | none => regs

/-- Every explicit definition receives the result. -/
def writeResult (cx : Context W) (regs : Locals w) (minst : MachineInstr) (v : APInt) : Locals w :=
  (minst.defs.filterMap MachineOperand.reg?).foldl (fun regs r => writeRegister cx regs r v) regs

/-- The place behind an instruction. -/
def fallthrough (mbb : MachineBasicBlock) (b i : Nat) : BlockId × Nat :=
  if i + 1 < mbb.length then (b, i + 1) else (b + 1, 0)

def guestStep (cx : Context W) (mf : MachineFunction) (g : Guest w W) : Option (Guest w W) := do
  let (b, i) ← g.place
  let mbb ← mf.blocks[b]?
  let minst ← mbb[i]?
  if isReturn cx minst then some { g with place := none }
  else if minst.isConditionalBranch then
    let (taken, world) ← minst.result cx g.regs g.world
    if taken.bits.toNat = 1 then
      let t ← (minst.operands[2]?).bind MachineOperand.mbb?
      some ⟨some (t, 0), g.regs, world⟩
    else some ⟨some (fallthrough mbb b i), g.regs, world⟩
  else if minst.isUnconditionalBranch then
    let t ← (minst.operands[0]?).bind MachineOperand.mbb?
    some { g with place := some (t, 0) }
  else
    let (v, world) ← minst.result cx g.regs g.world
    some ⟨some (fallthrough mbb b i), writeResult cx g.regs minst v, world⟩

/-- A register of 64 bits. -/
def Word (cx : Context W) (r : Register) : Prop :=
  ∃ c, cx.rmap.find r = some c ∧ cx.stats.widths c.cls = 64

/-- An immediate, a constant register or a register of 64 bits. -/
inductive WordOperand (cx : Context W) : MachineOperand → Prop where
  | imm {v} : WordOperand cx (.imm v)
  | constant {r} (constant : (cx.instrs.constReg? cx.tm r).isSome = true) :
      WordOperand cx (.reg r false false)
  | register {r} (word : Word cx r) : WordOperand cx (.reg r false false)

/-- The stack pointers known in front of instruction `i` of block `b`. -/
def layoutTracker (cx : Context W) (mf : MachineFunction) (spReg : Register) (b i : Nat) :
    StackPointerTracker :=
  (layoutBefore mf b i).foldl (fun T minst => nextTracker cx minst T) {spReg}

/-- A block of the function other than the first. -/
def Target (mf : MachineFunction) (t : BlockId) : Prop := 0 < t ∧ t < mf.blocks.length

/-- An unconditional branch to such a block. -/
structure Jump (cx : Context W) (mf : MachineFunction) (minst : MachineInstr) (t : BlockId) : Prop where
  jumps : minst.isUnconditionalBranch = true
  noReturn : isReturn cx minst = false
  direct : isIndirectBranch cx minst = false
  operand : minst.operands[0]? = some (.mbb t)
  target : Target mf t

inductive SubInstr (cx : Context W) (mf : MachineFunction) (T : StackPointerTracker) (b : BlockId)
    (mbb : MachineBasicBlock) (i : Nat) (minst : MachineInstr) : Prop where
  | generic {f} (path : dispatch cx minst T = .generic)
      (function : cx.instrs.getFunction minst.desc.name = some f)
      (inputs : ∀ op ∈ minst.uses, op.isArgument = true → WordOperand cx op)
      (params : f.params = List.replicate minst.inputs.length 64)
      (output : ∀ op ∈ minst.defs, f.ret = 64 ∧ ∃ r isDef isImplicit, op = .reg r isDef isImplicit ∧
        Word cx r)
      (absolute : isPcRelative cx minst = false)
      (straight : minst.desc.isBranch = false)
      (ending : i + 1 = mbb.length → b + 1 < mf.blocks.length)
  | ret (returns : isReturn cx minst = true) (noCall : isCall minst = false)
      (last : i + 1 = mbb.length)
  | jump {t} (jump : Jump cx mf minst t) (last : i + 1 = mbb.length)
  | branch {f r r' t} (branches : minst.isConditionalBranch = true)
      (noReturn : isReturn cx minst = false) (direct : isIndirectBranch cx minst = false)
      (function : cx.instrs.getFunction minst.desc.name = some f) (params : f.params = [64, 64])
      (output : f.ret = 1) (noDefs : minst.desc.numDefs = 0)
      (operands : minst.operands = [.reg r false false, .reg r' false false, .mbb t])
      (left : WordOperand cx (.reg r false false)) (right : WordOperand cx (.reg r' false false))
      (target : Target mf t)
      (ending : i + 1 = mbb.length ∧ b + 1 < mf.blocks.length ∨
        ∃ next t', mbb[i + 1]? = some next ∧ Jump cx mf next t' ∧ i + 2 = mbb.length)

structure Sublanguage (cx : Context W) (mf : MachineFunction) (spReg : Register) : Prop where
  stackPointer : cx.stackPointer? = some spReg
  function : mf.blocks ≠ []
  nonempty : ∀ mbb ∈ mf.blocks, mbb ≠ []
  instr : ∀ {b mbb i minst}, mf.blocks[b]? = some mbb → mbb[i]? = some minst →
    SubInstr cx mf (layoutTracker cx mf spReg b i) b mbb i minst
  /-- The constant registers of the config are registers of the target. -/
  constants : ∀ k ∈ cx.instrs.constRegs, ∃ r, findRegisterByName cx.tm k.name = some r
  /-- Register names are unique. -/
  named : ∀ {r k}, cx.instrs.constReg? cx.tm r = some k → findRegisterByName cx.tm k.name = some r

/-- An instruction of the sublanguage, a direct call behind which its block goes on, or a tail
call: a direct call that the target marks as a jump, at the end of its block. -/
inductive ProgramInstr (cx : Context W) (mf : MachineFunction) (T : StackPointerTracker) (b : BlockId)
    (mbb : MachineBasicBlock) (i : Nat) (minst : MachineInstr) : Prop where
  | own (instr : SubInstr cx mf T b mbb i minst)
  | call {callee} (call : isDirectCall cx minst = true) (operand : minst.globalOperand = some callee)
      (straight : minst.desc.isBranch = false) (inside : i + 1 < mbb.length)
  | tail {callee} (call : isDirectCall cx minst = true) (operand : minst.globalOperand = some callee)
      (jumps : minst.isUnconditionalBranch = true) (last : i + 1 = mbb.length)

/-- A function of the sublanguage that may call others. -/
structure ProgramFunction (cx : Context W) (mf : MachineFunction) (spReg : Register) : Prop where
  stackPointer : cx.stackPointer? = some spReg
  function : mf.blocks ≠ []
  nonempty : ∀ mbb ∈ mf.blocks, mbb ≠ []
  instr : ∀ {b mbb i minst}, mf.blocks[b]? = some mbb → mbb[i]? = some minst →
    ProgramInstr cx mf (layoutTracker cx mf spReg b i) b mbb i minst
  constants : ∀ k ∈ cx.instrs.constRegs, ∃ r, findRegisterByName cx.tm k.name = some r
  named : ∀ {r k}, cx.instrs.constReg? cx.tm r = some k → findRegisterByName cx.tm k.name = some r

theorem Sublanguage.program (sub : Sublanguage cx mf spReg) : ProgramFunction cx mf spReg where
  stackPointer := sub.stackPointer
  function := sub.function
  nonempty := sub.nonempty
  instr block here := .own (sub.instr block here)
  constants := sub.constants
  named := sub.named

theorem ProgramFunction.first_instr (sub : ProgramFunction cx mf spReg) :
    ∃ mbb minst, mf.blocks[0]? = some mbb ∧ mbb[0]? = some minst := by
  have block := List.getElem?_eq_getElem (List.length_pos_of_ne_nil sub.function)
  have nonempty := sub.nonempty _ (List.mem_of_getElem? block)
  exact ⟨_, _, block, List.getElem?_eq_getElem (List.length_pos_of_ne_nil nonempty)⟩

theorem Jump.dispatch_eq {t : BlockId} (jump : Jump cx mf minst t) (T : StackPointerTracker) :
    dispatch cx minst T = .jump := by
  have unconditional := MachineInstr.not_conditional_of_unconditional jump.jumps
  have flagged := jump.jumps
  simp only [MachineInstr.isUnconditionalBranch, Bool.and_eq_true] at flagged
  have named : minst.operands.any MachineOperand.isMBB = true :=
    List.any_eq_true.mpr ⟨_, List.mem_of_getElem? jump.operand, rfl⟩
  simp [dispatch, jump.noReturn, jump.direct, isBranch, flagged, named, unconditional]

theorem dispatch_conditional (branches : minst.isConditionalBranch = true)
    (noReturn : isReturn cx minst = false) (direct : isIndirectBranch cx minst = false)
    (named : minst.operands.any MachineOperand.isMBB = true) (T : StackPointerTracker) :
    dispatch cx minst T = .branch := by
  have flagged := branches
  simp only [MachineInstr.isConditionalBranch, Bool.and_eq_true] at flagged
  simp [dispatch, noReturn, direct, isBranch, flagged, named, branches]

theorem operandToValue_lifts {op : MachineOperand} (word : WordOperand cx op) (id : ValueId) :
    ∃ load val, operandToValue cx id op = .ok (load, some val) := by
  cases word with
  | imm => exact ⟨_, _, rfl⟩
  | @constant r constant =>
    obtain ⟨k, found⟩ := Option.isSome_iff_exists.mp constant
    exact ⟨_, _, operandToValue_ok.mpr (.constant found)⟩
  | @register r word =>
    obtain ⟨c, found, -⟩ := word
    obtain ⟨rclass, -, classed⟩ := class_of_find found
    cases constant : cx.instrs.constReg? cx.tm r with
    | some k => exact ⟨_, _, operandToValue_ok.mpr (.constant constant)⟩
    | none => exact ⟨_, _, operandToValue_ok.mpr (.register constant found classed)⟩

theorem operandsToValues_lifts {ops : List MachineOperand} (words : ∀ op ∈ ops, WordOperand cx op)
    (k : Nat) : ∃ loads vals, operandsToValues cx s ops k = .ok (loads, vals) ∧
      ∃ args, requireArgs vals = .ok args := by
  induction ops generalizing k with
  | nil => exact ⟨[], [], rfl, [], rfl⟩
  | cons op rest ih =>
    obtain ⟨word, others⟩ := List.forall_mem_cons.mp words
    obtain ⟨load, val, first⟩ := operandToValue_lifts word (.operand s.block s.idx k)
    obtain ⟨loads, vals, later, args, required⟩ := ih others (k + 1)
    exact ⟨load ++ loads, some val :: vals, by simp [operandsToValues, first, later, bind, Except.bind],
      val :: args, by simp [requireArgs, required, bind, Except.bind]⟩

theorem constRegsVals_lifts {regs : List ConstantReg}
    (constants : ∀ k ∈ regs, ∃ r, findRegisterByName cx.tm k.name = some r) :
    ∃ vals, constRegsVals cx regs = .ok vals := by
  induction regs with
  | nil => exact ⟨[], rfl⟩
  | cons k rest ih =>
    obtain ⟨⟨r, found⟩, others⟩ := List.forall_mem_cons.mp constants
    obtain ⟨vals, later⟩ := ih others
    exact ⟨(r, k.value) :: vals, by simp [constRegsVals, found, later, bind, Except.bind]⟩

theorem writeValueToRegister_lifts (sub : ProgramFunction cx mf spReg) {r : Register} (word : Word cx r)
    (val : Value) : ∃ code, writeValueToRegister cx val r = .ok code := by
  obtain ⟨c, found, -⟩ := word
  obtain ⟨rclass, -, classed⟩ := class_of_find found
  obtain ⟨vals, constants⟩ := constRegsVals_lifts sub.constants
  have address : regAddr cx r = .ok c := by simp [regAddr, found]
  have class_ : getRegisterClassFor cx r = .ok rclass := by simp [getRegisterClassFor, classed]
  cases constant : cx.instrs.constReg? cx.tm r with
  | none =>
    exact ⟨_, by simp [writeValueToRegister, address, constants, class_, constant, bind, Except.bind]; rfl⟩
  | some k =>
    have recorded := constRegsVals_lookup constants constant (sub.named constant)
    exact ⟨_, by simp [writeValueToRegister, address, constants, class_, constant, recorded, bind,
      Except.bind]; rfl⟩

theorem writeDefs_lifts (sub : ProgramFunction cx mf spReg) {defs : List MachineOperand}
    (words : ∀ op ∈ defs, ∃ r isDef isImplicit, op = .reg r isDef isImplicit ∧ Word cx r) (val : Value) :
    ∃ code, writeDefs cx val defs = .ok code := by
  induction defs with
  | nil => exact ⟨[], rfl⟩
  | cons op rest ih =>
    obtain ⟨⟨r, isDef, isImplicit, rfl, word⟩, others⟩ := List.forall_mem_cons.mp words
    obtain ⟨code, first⟩ := writeValueToRegister_lifts sub word val
    obtain ⟨codes, later⟩ := ih others
    exact ⟨code ++ codes, by simp [writeDefs, first, later, bind, Except.bind]⟩

theorem SubInstr.lifts (sub : ProgramFunction cx mf spReg)
    (instr : SubInstr cx mf st.sptrack b mbb i minst) (addr : Option (BitVec 64)) :
    ∃ st', generateInstruction cx (mf.site b mbb i) addr minst st = .ok st' := by
  have inside : ∀ {t}, Target mf t → (mf.site b mbb i).m2b t = .ok (.mbb t) := by
    intro t target
    exact if_pos target.2
  rw [generateInstruction_eq]
  cases instr with
  | @generic f path function inputs params output absolute straight ending =>
    have words : ∀ op ∈ minst.uses.filter MachineOperand.isArgument, WordOperand cx op :=
      fun op member => inputs op (List.mem_filter.mp member).1 (List.mem_filter.mp member).2
    obtain ⟨loads, vals, values, args, required⟩ := operandsToValues_lifts (s := mf.site b mbb i) words 0
    obtain ⟨writes, written⟩ : ∃ writes,
        writeDefs cx (.ssa (.result (mf.site b mbb i).block (mf.site b mbb i).idx)) minst.defs =
          .ok writes := writeDefs_lifts sub (fun op member => (output op member).2) _
    simp [path, pcArgument, absolute, findFunction, function, generateGeneric, values, required,
      written, bind, Except.bind]
  | ret returns noCall last =>
    simp [dispatch, returns, generateReturn]
  | @jump t jump last =>
    rw [jump.dispatch_eq]
    have operand : minst.mbbOperand = some t := mbbOperand_first (by simp [jump.operand, MachineOperand.mbb?])
    simp only [generateJump, operand, inside jump.target]
    split_ifs
    · exact ⟨_, rfl⟩
    · exact ⟨_, rfl⟩
  | @branch f r r' t branches noReturn direct function params output noDefs operands left right target
      ending =>
    rw [dispatch_conditional branches noReturn direct (by simp [operands, MachineOperand.isMBB])]
    have uses : minst.uses.filter (!·.isMBB) = [.reg r false false, .reg r' false false] := by
      simp [MachineInstr.uses, noDefs, operands, MachineOperand.isMBB]
    have words : ∀ op ∈ minst.uses.filter (!·.isMBB), WordOperand cx op := by
      simp only [uses, List.forall_mem_cons]
      exact ⟨left, right, by simp⟩
    obtain ⟨loads, vals, values, args, required⟩ := operandsToValues_lifts (s := mf.site b mbb i) words 0
    have taken : getIfTrueBlock (mf.site b mbb i) minst = .ok (.mbb t) := by
      simp [getIfTrueBlock, operands, MachineOperand.mbb?, inside target]
    obtain ⟨untaken, otherwise⟩ : ∃ l, getIfFalseBlock (mf.site b mbb i) minst = .ok l := by
      obtain ⟨last, after⟩ | ⟨next, t', found, jump, -⟩ := ending
      · have none : (mf.site b mbb i).next = none := List.getElem?_eq_none_iff.mpr last.ge
        have follows : (mf.site b mbb i).m2b ((mf.site b mbb i).block + 1) = .ok (.mbb (b + 1)) :=
          if_pos after
        exact ⟨.mbb (b + 1), by simp [getIfFalseBlock, operands, none, follows]⟩
      · have some_ : (mf.site b mbb i).next = some next := found
        exact ⟨.mbb t', by simp [getIfFalseBlock, operands, some_, jump.jumps, jump.operand,
          MachineOperand.mbb?, inside jump.target]⟩
    simp [generateBranch, findFunction, function, values, required, taken, otherwise, bind, Except.bind]

theorem ProgramInstr.lifts (sub : ProgramFunction cx mf spReg)
    (instr : ProgramInstr cx mf st.sptrack b mbb i minst) (addr : Option (BitVec 64)) :
    ∃ st', generateInstruction cx (mf.site b mbb i) addr minst st = .ok st' := by
  have calls : ∀ {callee}, isDirectCall cx minst = true → minst.globalOperand = some callee →
      ∃ st', generateInstruction cx (mf.site b mbb i) addr minst st = .ok st' := by
    intro callee call operand
    rw [generateInstruction_eq, dispatch_call call]
    simp [generateCall, operand]
  cases instr with
  | own instr => exact instr.lifts sub addr
  | call call operand => exact calls call operand
  | tail call operand => exact calls call operand

theorem layoutTracker_instr (block : mf.blocks[b]? = some mbb) (here : mbb[i]? = some minst) :
    layoutTracker cx mf spReg b (i + 1) = nextTracker cx minst (layoutTracker cx mf spReg b i) := by
  simp [layoutTracker, layoutBefore_instr block here]

theorem layoutTracker_next (block : mf.blocks[b]? = some mbb) :
    layoutTracker cx mf spReg (b + 1) 0 = layoutTracker cx mf spReg b mbb.length := by
  rw [layoutTracker, layoutTracker, layoutBefore_next block]

/-- The tracker of the lifter is the one of layout order. -/
theorem tracker_eq_layout {fin : Builder} (whole : finalBuilder cx mf addrs = .ok fin)
    (named : cx.stackPointer? = some spReg) (block : mf.blocks[b]? = some mbb) (bound : i ≤ mbb.length)
    (at_ : builderAt cx mf addrs b i = .ok st) : st.sptrack = layoutTracker cx mf spReg b i := by
  refine builder_induction whole (P := fun b i st => st.sptrack = layoutTracker cx mf spReg b i)
    ?_ ?_ ?_ block bound at_
  · intro st start
    have blocks : mf.blocks ≠ [] := fun empty => by simp [empty] at block
    obtain ⟨spReg', named', builder⟩ := builderAt_zero whole blocks
    obtain rfl := Option.some.inj (named.symm.trans named')
    obtain rfl := Except.ok.inj (builder.symm.trans start)
    simp [layoutTracker, initialBuilder]
  · intro b mbb i minst st st' code block here lifting before
    rw [lifting.tracker, before, layoutTracker_instr block here]
  · intro b mbb st st' block inside terminator before
    exact (terminator_sptrack terminator).trans (before.trans (layoutTracker_next block).symm)

/-- If the input has addresses, every instruction has one. -/
def Addressed (mf : MachineFunction) (addrs : FunctionAddresses) : Prop :=
  ∀ bs, addrs = some bs → ∀ (b : BlockId) (mbb : MachineBasicBlock), mf.blocks[b]? = some mbb →
    ∃ as : List (BitVec 64), bs[b]? = some as ∧ mbb.length ≤ as.length

theorem fillInstrs_lifts (sub : ProgramFunction cx mf spReg) (block : mf.blocks[b]? = some mbb)
    {as : BlockAddresses} (addressed : ∀ l, as = some l → mbb.length ≤ l.length)
    (bound : i ≤ mbb.length) (tracked : st.sptrack = layoutTracker cx mf spReg b i) :
    ∃ st', fillInstrs cx (mf.site b mbb i) as (mbb.drop i) st = .ok st' ∧
      st'.sptrack = layoutTracker cx mf spReg b mbb.length := by
  obtain ⟨n, left⟩ : ∃ n, mbb.length = i + n := ⟨mbb.length - i, by omega⟩
  induction n generalizing i st with
  | zero =>
    obtain rfl : i = mbb.length := left.symm
    exact ⟨st, by simp [fillInstrs], tracked⟩
  | succ n ih =>
    have inside : i < mbb.length := by omega
    have here := List.getElem?_eq_getElem inside
    obtain ⟨addr, address⟩ : ∃ addr, instrAddress as i = .ok addr := by
      cases as with
      | none => exact ⟨none, rfl⟩
      | some l =>
        have bound := addressed l rfl
        exact ⟨some l[i], by simp [instrAddress, List.getElem?_eq_getElem (Nat.lt_of_lt_of_le inside bound)]⟩
    have instr := sub.instr block here
    rw [← tracked] at instr
    obtain ⟨st₁, first⟩ := instr.lifts sub addr
    have next := (generateInstruction_ok first).2
    rw [tracked, ← layoutTracker_instr block here] at next
    obtain ⟨st', later, final⟩ := ih inside next (by omega)
    refine ⟨st', ?_, final⟩
    rw [List.drop_eq_getElem_cons inside]
    simp only [fillInstrs, MachineFunction.site, address, bind, Except.bind]
    simp only [MachineFunction.site] at first
    rw [first]
    exact later

theorem fillTerminator_lifts (sub : ProgramFunction cx mf spReg) (block : mf.blocks[b]? = some mbb) :
    ∃ st', fillTerminator cx (mf.site b mbb 0) st = .ok st' ∧ st'.sptrack = st.sptrack := by
  have nonempty := sub.nonempty mbb (List.mem_of_getElem? block)
  have inside := Nat.sub_lt (List.length_pos_of_ne_nil nonempty) Nat.one_pos
  have here := List.getElem?_eq_getElem inside
  have last : (mf.site b mbb 0).mbb.getLast? = some mbb[mbb.length - 1] := by
    rw [← here]
    exact List.getLast?_eq_getElem?
  unfold fillTerminator
  simp only [last]
  split_ifs with leaves call
  · exact ⟨_, rfl, rfl⟩
  · obtain after : b + 1 < mf.blocks.length := by
      simp only [Bool.and_eq_true, Bool.not_eq_true'] at leaves
      cases sub.instr block here with
      | own instr =>
        cases instr with
        | generic path function inputs params output absolute straight ending => exact ending (by omega)
        | ret returns => simp [returns] at leaves
        | jump jump =>
          have branch := (dispatch_jump (jump.dispatch_eq ∅)).1
          simp [branch] at leaves
        | branch branches noReturn direct function params output noDefs operands =>
          have branch := (dispatch_branch (dispatch_conditional branches noReturn direct
            (by simp [operands, MachineOperand.isMBB]) ∅)).1
          simp [branch] at leaves
      | call direct operand straight inside => omega
      | tail direct operand jumps last => simp [(directCall_flags direct).1] at call
    have follows : (mf.site b mbb 0).m2b ((mf.site b mbb 0).block + 1) = .ok (.mbb (b + 1)) :=
      if_pos after
    exact ⟨st.emit [.br (.mbb (b + 1))], by simp [follows, bind, Except.bind], rfl⟩
  · exact ⟨_, rfl, rfl⟩

theorem fillBlocks_lifts (sub : ProgramFunction cx mf spReg) (addressed : Addressed mf addrs)
    (bound : b ≤ mf.blocks.length) (tracked : st.sptrack = layoutTracker cx mf spReg b 0) :
    ∃ st', fillBlocks cx mf.blocks.length addrs (mf.blocks.drop b) b st = .ok st' := by
  obtain ⟨n, left⟩ : ∃ n, mf.blocks.length = b + n := ⟨mf.blocks.length - b, by omega⟩
  induction n generalizing b st with
  | zero =>
    obtain rfl : b = mf.blocks.length := left.symm
    exact ⟨st, by simp [fillBlocks]⟩
  | succ n ih =>
    have inside : b < mf.blocks.length := by omega
    have block := List.getElem?_eq_getElem inside
    obtain ⟨as, address, enough⟩ : ∃ as, blockAddresses addrs b = .ok as ∧
        ∀ l, as = some l → mf.blocks[b].length ≤ l.length := by
      cases addrs with
      | none => exact ⟨none, rfl, by simp⟩
      | some bs =>
        obtain ⟨as, found, enough⟩ := addressed bs rfl b _ block
        exact ⟨some as, by simp [blockAddresses, found], by rintro l ⟨⟩; exact enough⟩
    have start : ({ st with cur := .mbb b } : Builder).sptrack = layoutTracker cx mf spReg b 0 := tracked
    obtain ⟨last, instrs, tracked'⟩ := fillInstrs_lifts sub block enough (Nat.zero_le _) start
    obtain ⟨after, terminator, same⟩ : ∃ after,
        fillTerminator cx (mf.site b mf.blocks[b] 0) last = .ok after ∧ after.sptrack = last.sptrack :=
      fillTerminator_lifts sub block
    rw [tracked', ← layoutTracker_next block] at same
    obtain ⟨st', later⟩ := ih inside same (by omega)
    have nonempty := sub.nonempty _ (List.mem_of_getElem? block)
    refine ⟨st', ?_⟩
    rw [List.drop_eq_getElem_cons inside]
    simp only [fillBlocks, fillIrForBb, address, bind, Except.bind, List.isEmpty_iff, nonempty, if_false]
    simp only [MachineFunction.site, List.drop_zero] at instrs terminator
    simp only [Site.label, instrs, terminator]
    exact later

theorem ProgramFunction.lifts (sub : ProgramFunction cx mf spReg) (addressed : Addressed mf addrs) :
    ∃ blocks, generateFunction cx mf addrs = .ok (some blocks) := by
  have start : (initialBuilder cx spReg).sptrack = layoutTracker cx mf spReg 0 0 := by
    simp [layoutTracker, initialBuilder]
  obtain ⟨st, filled⟩ := fillBlocks_lifts sub addressed (Nat.zero_le _) start
  rw [List.drop_zero] at filled
  exact ⟨_, by simp [generateFunction, getStackPointer, sub.stackPointer, filled, sub.function, bind,
    Except.bind]; rfl⟩

/-- A function of the sublanguage can be lifted. -/
theorem Sublanguage.lifts (sub : Sublanguage cx mf spReg) (addressed : Addressed mf addrs) :
    ∃ blocks, generateFunction cx mf addrs = .ok (some blocks) :=
  sub.program.lifts addressed

end Bleach
