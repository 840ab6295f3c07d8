import Mathlib.Data.List.Chain
import Bleach.Mctomir.CodeMachine
import Bleach.Lifter.ReturnFlags
import Bleach.Simulation
import Bleach.Base.Lockstep

/-! The translation of decoded code to machine functions preserves its meaning: the machine
that fetches at addresses and the one that runs through blocks make the same steps. -/
namespace Bleach.Mctomir
open Transition
variable {W : Type} {w : Nat → Nat}

section
variable (cx : Context W) (mia : MCInstrAnalysis) (opcodes : Nat → InstrDesc) (disp : MCInst → Address)
  (spReg : Register)

/-- What is asked of an instruction; the first one stands at `first`. -/
inductive CodeInstr (first : Option Address) (t : TranslatedInst) : Prop where
  | generic {f} (straight : mia.isBranch t.inst = false) (noReturn : mia.isReturn t.inst = false)
      (liftedNoReturn : isReturn cx (machineInstr mia opcodes t.inst) = false)
      (path : dispatch cx (machineInstr mia opcodes t.inst) ∅ = .generic)
      (apart : usesStackPointer (machineInstr mia opcodes t.inst) {spReg} = false)
      (defs : (opcodes t.inst.opcode).numDefs = (mia.get t.inst.opcode).numDefs)
      (function : cx.instrs.getFunction (opcodes t.inst.opcode).name = some f)
      (inputs : ∀ op ∈ (machineInstr mia opcodes t.inst).uses, op.isArgument = true → WordOperand cx op)
      (params : f.params = List.replicate (machineInstr mia opcodes t.inst).inputs.length 64)
      (output : ∀ op ∈ (machineInstr mia opcodes t.inst).defs, f.ret = 64 ∧
        ∃ r isDef isImplicit, op = .reg r isDef isImplicit ∧ Word cx r)
      (absolute : isPcRelative cx (machineInstr mia opcodes t.inst) = false)
      (noBranch : (opcodes t.inst.opcode).isBranch = false)
  | ret (straight : mia.isBranch t.inst = false) (returns : mia.isReturn t.inst = true)
      (lifted : isReturn cx (machineInstr mia opcodes t.inst) = true)
  | jump {v} (branch : mia.isBranch t.inst = true) (always : mia.isUnconditionalBranch t.inst = true)
      (operands : t.inst.operands = [.imm v])
      (lifted : ∀ b, (branchInstr mia opcodes t.inst b).isUnconditionalBranch = true)
      (noReturn : ∀ b, isReturn cx (branchInstr mia opcodes t.inst b) = false)
      (direct : ∀ b, isIndirectBranch cx (branchInstr mia opcodes t.inst b) = false)
      (target : first ≠ some (t.address + disp t.inst))
  | branch {f r r' v} (branch : mia.isBranch t.inst = true)
      (sometimes : mia.isUnconditionalBranch t.inst = false)
      (operands : t.inst.operands = [.reg r, .reg r', .imm v])
      (lifted : ∀ b, (branchInstr mia opcodes t.inst b).isConditionalBranch = true)
      (noReturn : ∀ b, isReturn cx (branchInstr mia opcodes t.inst b) = false)
      (direct : ∀ b, isIndirectBranch cx (branchInstr mia opcodes t.inst b) = false)
      (noDefs : (opcodes t.inst.opcode).numDefs = 0) (noDefs' : (mia.get t.inst.opcode).numDefs = 0)
      (function : cx.instrs.getFunction (opcodes t.inst.opcode).name = some f)
      (params : f.params = [64, 64]) (output : f.ret = 1)
      (left : WordOperand cx (.reg r false false)) (right : WordOperand cx (.reg r' false false))
      (target : first ≠ some (t.address + disp t.inst))

/-- A function that calls nothing, does not run over its end, and neither reads its stack
pointer nor branches back to its first instruction. -/
structure LiftableCode (insts : List TranslatedInst) : Prop where
  stackPointer : cx.stackPointer? = some spReg
  nonempty : insts ≠ []
  noCalls : ∀ t ∈ insts, mia.isCall t.inst = false
  instr : ∀ t ∈ insts, CodeInstr cx mia opcodes disp spReg (insts.head?.map TranslatedInst.address) t
  closed : ∀ last, insts.getLast? = some last → fallsThrough mia last = false
  constants : ∀ k ∈ cx.instrs.constRegs, ∃ r, findRegisterByName cx.tm k.name = some r
  named : ∀ {r k}, cx.instrs.constReg? cx.tm r = some k → findRegisterByName cx.tm k.name = some r

end

variable {cx : Context W} {mia : MCInstrAnalysis} {opcodes : Nat → InstrDesc} {disp : MCInst → Address}
  {spReg : Register} {funcs : List DecodedFunction} {k : FuncId} {d : DecodedFunction}
  {func : TranslatedFunction}

theorem split_at {α : Type} {l : List α} {i : Nat} {a : α} (here : l[i]? = some a) :
    ∃ before after, l = before ++ a :: after ∧ before.length = i := by
  obtain ⟨inside, rfl⟩ := List.getElem?_eq_some_iff.mp here
  refine ⟨l.take i, l.drop (i + 1), ?_, List.length_take_of_le (Nat.le_of_lt inside)⟩
  rw [← List.drop_eq_getElem_cons inside, List.take_append_drop]

/-- The instruction behind the one at a position, if there is one, is the next of the block
or the first of the next block. -/
theorem flatMap_behind {α β : Type} {f : α → List β} {l : List α} (nonempty : ∀ a ∈ l, f a ≠ [])
    {b i : Nat} {a : α} {t : β} (block : l[b]? = some a) (here : (f a)[i]? = some t) :
    (∃ u before after, (f a)[i + 1]? = some u ∧ l.flatMap f = before ++ t :: u :: after) ∨
      (i + 1 = (f a).length ∧ ∃ a' u before after, l[b + 1]? = some a' ∧ (f a')[0]? = some u ∧
        l.flatMap f = before ++ t :: u :: after) ∨
      (i + 1 = (f a).length ∧ b + 1 = l.length ∧ (l.flatMap f).getLast? = some t) := by
  obtain ⟨pre, post, rfl, rfl⟩ := split_at block
  obtain ⟨front, back, shape, rfl⟩ := split_at here
  cases back with
  | cons u back =>
    refine .inl ⟨u, pre.flatMap f ++ front, back ++ post.flatMap f, ?_, ?_⟩
    · simp [shape]
    · simp [shape]
  | nil =>
    cases post with
    | cons a' post =>
      obtain ⟨u, rest, shape'⟩ := List.exists_cons_of_ne_nil (nonempty a' (by simp))
      refine .inr (.inl ⟨by simp [shape], a', u, pre.flatMap f ++ front, rest ++ post.flatMap f, ?_, ?_, ?_⟩)
      · simp
      · simp [shape']
      · simp [shape, shape']
    | nil => exact .inr (.inr ⟨by simp [shape], by simp, by simp [shape]⟩)

/-- The machine instruction a decoded one became. -/
inductive Became (mia : MCInstrAnalysis) (opcodes : Nat → InstrDesc) (disp : MCInst → Address)
    (func : TranslatedFunction) (t : TranslatedInst) : MachineInstr → Prop where
  | straight (straight : mia.isBranch t.inst = false) :
      Became mia opcodes disp func t (machineInstr mia opcodes t.inst)
  | branch {j : Nat} {block : TranslatedBlock} (branch : mia.isBranch t.inst = true)
      (target : func.blocks[j]? = some block) (start : block.startAddress = t.address + disp t.inst) :
      Became mia opcodes disp func t (branchInstr mia opcodes t.inst j)

theorem Finalized.start_block (result : Finalized mia funcs k d func) {j : Nat} {a : Address}
    (start : (blockStarts mia d)[j]? = some a) :
    ∃ block, func.blocks[j]? = some block ∧ block.startAddress = a := by
  rw [blockStarts, ← result.split.starts, List.getElem?_map] at start
  exact Option.map_eq_some_iff.mp start

theorem became_of_made (code : PlainCode mia disp funcs) (found : funcs[k]? = some d)
    (result : Finalized mia funcs k d func) {t : TranslatedInst} (inside : t ∈ d.insts)
    (noCall : mia.isCall t.inst = false) {i : Nat} {instr : BuiltInstr} {successor : Option BlockRef}
    (made : createMachineInstr mia (blockMap mia funcs) ⟨k, i⟩ t = .ok (instr, successor)) :
    Became mia opcodes disp func t (instr.toMachine opcodes) := by
  have member := List.mem_of_getElem? found
  by_cases branch : mia.isBranch t.inst = true
  · obtain ⟨j, start, owned⟩ := code.branch_owner found inside branch
    obtain ⟨offset, evaluated⟩ := Option.isSome_iff_exists.mp (code.direct d member t inside branch 0 4)
    have target : operandTarget mia t = some (offset + t.address) := by rw [operandTarget, evaluated]; rfl
    have at_a := code.operandTarget_eq member inside target
    rw [at_a] at target
    obtain ⟨block, at_j, begins⟩ := result.start_block start
    rw [branchInstr_of_found target owned (by simp [isCall, isTailCall, noCall]) made]
    exact .branch branch at_j begins
  · have straight : mia.isBranch t.inst = false := by simpa using branch
    have none : operandTarget mia t = none := by
      rw [operandTarget, Option.map_eq_none_iff]
      cases evaluated : mia.evaluateBranch t.inst 0 4 with
      | none => rfl
      | some a =>
        have kind := (code.evaluated d member t inside _ _ _ evaluated).2.1
        simp [straight, noCall] at kind
    rw [machineInstr_of_straight none made]
    exact .straight straight

/-- What is used of a translated function: its machine blocks are its blocks, instruction by
instruction. -/
structure TranslatedBy (mia : MCInstrAnalysis) (opcodes : Nat → InstrDesc)
    (R : TranslatedInst → MachineInstr → Prop) (d : DecodedFunction) (func : TranslatedFunction) : Prop where
  split : Split (leaders mia d.insts) d.insts func.blocks
  length : (func.toMachine opcodes).blocks.length = func.blocks.length
  became : ∀ {b : Nat} {block : TranslatedBlock}, func.blocks[b]? = some block →
    ∃ mbb, (func.toMachine opcodes).blocks[b]? = some mbb ∧ List.Forall₂ R block.instrs mbb

theorem Finalized.translatedBy (code : PlainCode mia disp funcs) (found : funcs[k]? = some d)
    (result : Finalized mia funcs k d func) {R : TranslatedInst → MachineInstr → Prop}
    (became : ∀ t ∈ d.insts, ∀ (i : Nat) (instr : BuiltInstr) (successor : Option BlockRef),
      createMachineInstr mia (blockMap mia funcs) ⟨k, i⟩ t = .ok (instr, successor) →
        R t (instr.toMachine opcodes)) : TranslatedBy mia opcodes R d func := by
  have length : func.mfunc.length = func.blocks.length := by
    rw [result.length, code.created_nil found, List.length_nil, Nat.add_zero]
  refine ⟨result.split, by simp [TranslatedFunction.toMachine, length], fun {b block} at_block => ?_⟩
  have bound := (List.getElem?_eq_some_iff.mp at_block).1
  have at_built := List.getElem?_eq_getElem (length ▸ bound)
  refine ⟨_, by simp [TranslatedFunction.toMachine, at_built]; rfl, ?_⟩
  rw [BuiltBlock.toMachine, List.forall₂_map_right_iff]
  have inside : ∀ t ∈ block.instrs, t ∈ d.insts := fun t at_t =>
    result.split.mem_iff.mpr ⟨block, List.mem_of_getElem? at_block, at_t⟩
  have all := (List.forall₂_and_left _ _).mpr ⟨inside, result.instrs_built at_block at_built⟩
  refine all.imp fun t instr here => ?_
  obtain ⟨inside, successor, made⟩ := here
  exact became t inside b instr successor made

/-- A function without calls. -/
abbrev Translated (mia : MCInstrAnalysis) (opcodes : Nat → InstrDesc) (disp : MCInst → Address)
    (d : DecodedFunction) (func : TranslatedFunction) : Prop :=
  TranslatedBy mia opcodes (Became mia opcodes disp func) d func

theorem Finalized.translated (code : PlainCode mia disp funcs) (found : funcs[k]? = some d)
    (result : Finalized mia funcs k d func) (noCalls : ∀ t ∈ d.insts, mia.isCall t.inst = false) :
    Translated mia opcodes disp d func :=
  result.translatedBy code found fun t inside _ _ _ made =>
    became_of_made code found result inside (noCalls t inside) made

namespace TranslatedBy
variable {R : TranslatedInst → MachineInstr → Prop} {t : TranslatedInst} {b i : Nat}
  {block : TranslatedBlock} {mbb : MachineBasicBlock}
  {minst : MachineInstr}

/-- The instruction the machine block has for a decoded one. -/
theorem instr_at (tr : TranslatedBy mia opcodes R d func) (at_block : func.blocks[b]? = some block)
    (here : block.instrs[i]? = some t) :
    ∃ mbb minst, (func.toMachine opcodes).blocks[b]? = some mbb ∧ mbb.length = block.instrs.length ∧
      mbb[i]? = some minst ∧ R t minst := by
  obtain ⟨mbb, found, all⟩ := tr.became at_block
  obtain ⟨minst, there, became⟩ := forall₂_get all here
  exact ⟨mbb, minst, found, all.length_eq.symm, there, became⟩

theorem inst_of (tr : TranslatedBy mia opcodes R d func)
    (found : (func.toMachine opcodes).blocks[b]? = some mbb) (there : mbb[i]? = some minst) :
    ∃ block t, func.blocks[b]? = some block ∧ block.instrs[i]? = some t ∧
      mbb.length = block.instrs.length ∧ R t minst := by
  have bound := (List.getElem?_eq_some_iff.mp found).1
  rw [tr.length] at bound
  have at_block := List.getElem?_eq_getElem bound
  obtain ⟨mbb', found', all⟩ := tr.became at_block
  obtain rfl := Option.some.inj (found.symm.trans found')
  obtain ⟨t, here, became⟩ := forall₂_get all.flip there
  exact ⟨_, t, at_block, here, all.length_eq.symm, became⟩

theorem inside (tr : TranslatedBy mia opcodes R d func) (at_block : func.blocks[b]? = some block)
    (here : block.instrs[i]? = some t) : t ∈ d.insts :=
  tr.split.mem_iff.mpr ⟨block, List.mem_of_getElem? at_block, List.mem_of_getElem? here⟩

/-- A branch is the last instruction of its block. -/
theorem last_of_ends (tr : TranslatedBy mia opcodes R d func) (at_block : func.blocks[b]? = some block)
    (here : block.instrs[i]? = some t) (ends : EndsBlock mia t) : i + 1 = block.instrs.length := by
  obtain ⟨before, after, shape, rfl⟩ := split_at here
  obtain rfl := tr.split.ends (List.mem_of_getElem? at_block) shape ends
  simp [shape]

/-- Only a function that runs over its end falls through its last block. -/
theorem next_block (tr : TranslatedBy mia opcodes R d func)
    (closed : ∀ last, d.insts.getLast? = some last → fallsThrough mia last = false)
    (at_block : func.blocks[b]? = some block) (here : block.instrs[i]? = some t)
    (falls : fallsThrough mia t = true) (last : i + 1 = block.instrs.length) :
    b + 1 < func.blocks.length := by
  have nonempty : ∀ block ∈ func.blocks, block.instrs ≠ [] := fun block => tr.split.nonempty
  have none : block.instrs[i + 1]? = none := List.getElem?_eq_none last.ge
  obtain ⟨u, _, _, next, -⟩ | ⟨-, next, _, _, _, found, -⟩ | ⟨-, -, final⟩ :=
    flatMap_behind nonempty at_block here
  · rw [none] at next
    cases next
  · exact (List.getElem?_eq_some_iff.mp found).1
  · rw [tr.split.instrs] at final
    rw [closed t final] at falls
    cases falls

/-- Where the first block starts. -/
theorem first_start (tr : TranslatedBy mia opcodes R d func) (at_block : func.blocks[0]? = some block) :
    d.insts.head?.map TranslatedInst.address = some block.startAddress := by
  obtain ⟨rest, shape⟩ : ∃ rest, func.blocks = block :: rest := by
    cases blocks : func.blocks with
    | nil => simp [blocks] at at_block
    | cons first rest =>
      rw [blocks] at at_block
      cases at_block
      exact ⟨rest, rfl⟩
  obtain ⟨first, others, whole, start, -⟩ := tr.split.headed block (by simp [shape])
  rw [← tr.split.instrs, shape, List.flatMap_cons, whole]
  simp [start]

theorem blocks_ne_nil (tr : TranslatedBy mia opcodes R d func) (nonempty : d.insts ≠ []) :
    (func.toMachine opcodes).blocks ≠ [] := by
  intro empty
  have noBlocks : func.blocks = [] := List.length_eq_zero_iff.mp (by
    rw [← tr.length]
    exact List.length_eq_zero_iff.mpr empty)
  exact nonempty (by rw [← tr.split.instrs, noBlocks]; rfl)

theorem block_ne_nil (tr : TranslatedBy mia opcodes R d func)
    (member : mbb ∈ (func.toMachine opcodes).blocks) : mbb ≠ [] := by
  rintro rfl
  obtain ⟨b, found⟩ := List.mem_iff_getElem?.mp member
  have bound := (List.getElem?_eq_some_iff.mp found).1
  rw [tr.length] at bound
  obtain ⟨mbb', found', all⟩ := tr.became (List.getElem?_eq_getElem bound)
  obtain rfl := Option.some.inj (found.symm.trans found')
  exact tr.split.nonempty (List.getElem_mem bound) (List.forall₂_nil_right_iff.mp all)

end TranslatedBy

variable {R : TranslatedInst → MachineInstr → Prop}

theorem usesStackPointer_of_subset {minst : MachineInstr} {T : StackPointerTracker}
    (apart : usesStackPointer minst {spReg} = false) (subset : T ⊆ {spReg}) :
    usesStackPointer minst T = false := by
  simp only [usesStackPointer, List.any_eq_false, decide_eq_true_eq] at apart ⊢
  exact fun r used tracked => apart r used (subset tracked)

theorem dispatch_of_apart {minst : MachineInstr} {T : StackPointerTracker}
    (apart : usesStackPointer minst {spReg} = false) (subset : T ⊆ {spReg}) :
    dispatch cx minst T = dispatch cx minst ∅ := by
  have here := usesStackPointer_of_subset apart subset
  have nowhere := usesStackPointer_of_subset apart (Finset.empty_subset {spReg})
  simp only [dispatch, isStackManipulation, here, nowhere]

theorem eraseDefs_subset (T : StackPointerTracker) (minst : MachineInstr) : eraseDefs T minst ⊆ T := by
  unfold eraseDefs
  generalize minst.defs.filterMap MachineOperand.reg? = regs
  induction regs generalizing T with
  | nil => exact Finset.Subset.refl T
  | cons r regs ih => exact (ih _).trans (Finset.erase_subset r T)

theorem branchInstr_named (inst : MCInst) (j : BlockId) :
    (branchInstr mia opcodes inst j).operands.any MachineOperand.isMBB = true := by
  simp [branchInstr, MachineOperand.isMBB]

theorem dispatch_unconditional {minst : MachineInstr} (jumps : minst.isUnconditionalBranch = true)
    (noReturn : isReturn cx minst = false) (direct : isIndirectBranch cx minst = false)
    (named : minst.operands.any MachineOperand.isMBB = true) (T : StackPointerTracker) :
    dispatch cx minst T = .jump := by
  have unconditional := MachineInstr.not_conditional_of_unconditional jumps
  have flagged := jumps
  simp only [MachineInstr.isUnconditionalBranch, Bool.and_eq_true] at flagged
  simp [dispatch, noReturn, direct, isBranch, flagged, named, unconditional]

/-- An instruction of liftable code leaves nothing but the stack pointer in the tracker. -/
theorem CodeInstr.nextTracker_subset {first : Option Address} {t : TranslatedInst} {minst : MachineInstr}
    (instr : CodeInstr cx mia opcodes disp spReg first t) (became : Became mia opcodes disp func t minst)
    {T : StackPointerTracker} (subset : T ⊆ {spReg}) : nextTracker cx minst T ⊆ {spReg} := by
  have of_transfer : ∀ path ∈ [Path.ret, .jump, .branch], dispatch cx minst T = path →
      nextTracker cx minst T ⊆ {spReg} := by
    intro path member here
    simp only [List.mem_cons, List.not_mem_nil, or_false] at member
    rcases member with rfl | rfl | rfl <;> simpa [nextTracker, here] using subset
  cases instr with
  | generic straight _ _ path apart =>
    cases became with
    | straight =>
      have here : dispatch cx (machineInstr mia opcodes t.inst) T = .generic :=
        (dispatch_of_apart apart subset).trans path
      simp only [nextTracker, here]
      exact (eraseDefs_subset T _).trans subset
    | branch branch => simp [straight] at branch
  | ret straight _ lifted =>
    cases became with
    | straight => exact of_transfer _ (by simp) (if_pos lifted)
    | branch branch => simp [straight] at branch
  | jump branch _ operands lifted noReturn direct =>
    cases became with
    | straight straight => simp [branch] at straight
    | @branch j _ =>
      exact of_transfer _ (by simp)
        (dispatch_unconditional (lifted j) (noReturn j) (direct j) (branchInstr_named ..) T)
  | branch branch _ operands lifted noReturn direct =>
    cases became with
    | straight straight => simp [branch] at straight
    | @branch j _ =>
      exact of_transfer _ (by simp)
        (dispatch_conditional (lifted j) (noReturn j) (direct j) (branchInstr_named ..) T)

theorem layoutTracker_subset (tr : TranslatedBy mia opcodes R d func)
    (kept : ∀ t ∈ d.insts, ∀ minst, R t minst → ∀ T : StackPointerTracker, T ⊆ {spReg} →
      nextTracker cx minst T ⊆ {spReg}) (b i : Nat) :
    layoutTracker cx (func.toMachine opcodes) spReg b i ⊆ {spReg} := by
  have each : ∀ minst ∈ layoutBefore (func.toMachine opcodes) b i, ∀ T : StackPointerTracker, T ⊆ {spReg} →
      nextTracker cx minst T ⊆ {spReg} := by
    intro minst member T subset
    obtain ⟨b', i', mbb, found, there⟩ : ∃ b' i' mbb, (func.toMachine opcodes).blocks[b']? = some mbb ∧
        mbb[i']? = some minst := by
      rcases List.mem_append.mp member with member | member
      · obtain ⟨mbb, in_mbb, at_minst⟩ := List.mem_flatten.mp member
        obtain ⟨b', found⟩ := List.mem_iff_getElem?.mp (List.mem_of_mem_take in_mbb)
        obtain ⟨i', there⟩ := List.mem_iff_getElem?.mp at_minst
        exact ⟨b', i', mbb, found, there⟩
      · obtain ⟨i', there⟩ := List.mem_iff_getElem?.mp (List.mem_of_mem_take member)
        cases found : (func.toMachine opcodes).blocks[b]? with
        | none => simp [found] at there
        | some mbb => exact ⟨b, i', mbb, found, by simpa [found] using there⟩
    obtain ⟨block, t, at_block, here, -, became⟩ := tr.inst_of found there
    exact kept t (tr.inside at_block here) minst became T subset
  unfold layoutTracker
  generalize layoutBefore (func.toMachine opcodes) b i = minsts at each
  suffices all : ∀ T : StackPointerTracker, T ⊆ {spReg} →
      minsts.foldl (fun T minst => nextTracker cx minst T) T ⊆ {spReg} from all _ (Finset.Subset.refl _)
  induction minsts with
  | nil => exact fun T subset => subset
  | cons minst minsts ih =>
    intro T subset
    exact ih (fun m member => each m (List.mem_cons_of_mem _ member)) _
      (each minst List.mem_cons_self T subset)

theorem Became.target {t : TranslatedInst} {j : Nat} {block : TranslatedBlock}
    (tr : TranslatedBy mia opcodes R d func) (target : func.blocks[j]? = some block)
    (start : block.startAddress = t.address + disp t.inst)
    (other : d.insts.head?.map TranslatedInst.address ≠ some (t.address + disp t.inst)) :
    Target (func.toMachine opcodes) j := by
  constructor
  · rw [Nat.pos_iff_ne_zero]
    rintro rfl
    exact other (start ▸ tr.first_start target)
  · rw [tr.length]
    exact (List.getElem?_eq_some_iff.mp target).1

theorem decodedOperands_noGlobal (numDefs idx : Nat) (ops : List MCOperand) :
    (decodedOperands numDefs idx ops).any MachineOperand.isGlobal = false := by
  induction ops generalizing idx with
  | nil => rfl
  | cons op rest ih =>
    have here : (op.decoded numDefs idx).isGlobal = false := by cases op <;> rfl
    rw [decodedOperands, List.any_cons, here, ih, Bool.or_self]

/-- Without its flag a return is no call. -/
theorem isCall_plainReturn {inst : MCInst} (returns : isReturn cx (machineInstr mia opcodes inst) = true) :
    Bleach.isCall (plainReturn cx (machineInstr mia opcodes inst)) = false := by
  rw [Bleach.isCall, plainReturn_operands, machineInstr, decodedOperands_noGlobal]
  simp only [plainReturn, machineInstr] at returns ⊢
  simp [returns]

theorem CodeInstr.subInstr {t : TranslatedInst} {minst : MachineInstr} {block : TranslatedBlock}
    {mbb : MachineBasicBlock} {b i : Nat} {T : StackPointerTracker}
    (instr : CodeInstr cx mia opcodes disp spReg (d.insts.head?.map TranslatedInst.address) t)
    (became : Became mia opcodes disp func t minst) (tr : TranslatedBy mia opcodes R d func)
    (closed : ∀ last, d.insts.getLast? = some last → fallsThrough mia last = false)
    (tracked : T ⊆ {spReg}) (at_block : func.blocks[b]? = some block) (here : block.instrs[i]? = some t)
    (length : mbb.length = block.instrs.length) :
    SubInstr cx ((func.toMachine opcodes).plainReturns cx) T b (mbb.map (plainReturn cx)) i
      (plainReturn cx minst) := by
  have blocks : ((func.toMachine opcodes).plainReturns cx).blocks.length =
      (func.toMachine opcodes).blocks.length := List.length_map _
  have size : (mbb.map (plainReturn cx)).length = mbb.length := List.length_map _
  have ending : fallsThrough mia t = true → i + 1 = (mbb.map (plainReturn cx)).length →
      b + 1 < ((func.toMachine opcodes).plainReturns cx).blocks.length := by
    intro falls last
    rw [blocks, tr.length]
    exact tr.next_block closed at_block here falls (last.trans (size.trans length))
  have last_of_ends : EndsBlock mia t → i + 1 = (mbb.map (plainReturn cx)).length := fun ends =>
    (tr.last_of_ends at_block here ends).trans (length.symm.trans size.symm)
  have inside : ∀ {j : Nat}, Target (func.toMachine opcodes) j →
      Target ((func.toMachine opcodes).plainReturns cx) j := fun target => ⟨target.1, blocks ▸ target.2⟩
  cases instr with
  | generic straight noReturn lifted path apart _ function inputs params output absolute noBranch =>
    cases became with
    | straight =>
      rw [plainReturn_of_other lifted]
      refine .generic ((dispatch_of_apart apart tracked).trans path) function inputs params output absolute
        noBranch (ending ?_)
      simp [fallsThrough, straight, noReturn]
    | branch branch => simp [straight] at branch
  | ret straight returns lifted =>
    cases became with
    | straight =>
      exact .ret (by rw [isReturn_plainReturn, lifted]) (isCall_plainReturn lifted)
        (last_of_ends (.inr returns))
    | branch branch => simp [straight] at branch
  | jump branch _ operands lifted noReturn direct other =>
    cases became with
    | straight straight => simp [branch] at straight
    | @branch j _ _ target start =>
      rw [plainReturn_of_other (noReturn j)]
      refine .jump ⟨lifted j, noReturn j, direct j, ?_, inside (Became.target tr target start other)⟩
        (last_of_ends (.inl branch))
      simp [branchInstr, operands, decodedOperands]
  | @branch f r r' v branch sometimes operands lifted noReturn direct noDefs noDefs' function params output
      left right other =>
    cases became with
    | straight straight => simp [branch] at straight
    | @branch j _ _ target start =>
      have last := last_of_ends (.inl branch)
      rw [plainReturn_of_other (noReturn j)]
      refine .branch (lifted j) (noReturn j) (direct j) function params output noDefs ?_ left right
        (inside (Became.target tr target start other)) (.inl ⟨last, ending ?_ last⟩)
      · simp [branchInstr, operands, decodedOperands, MCOperand.decoded, noDefs']
      · simp [fallsThrough, branch, sometimes]

theorem LiftableCode.sublanguage (liftable : LiftableCode cx mia opcodes disp spReg d.insts)
    (tr : Translated mia opcodes disp d func) :
    Sublanguage cx ((func.toMachine opcodes).plainReturns cx) spReg := by
  refine ⟨liftable.stackPointer, ?_, ?_, fun {b mbb i minst} found there => ?_, liftable.constants,
    liftable.named⟩
  · simpa [MachineFunction.plainReturns] using tr.blocks_ne_nil liftable.nonempty
  · rintro _ member rfl
    obtain ⟨mbb, member, empty⟩ := List.mem_map.mp member
    exact tr.block_ne_nil member (List.map_eq_nil_iff.mp empty)
  · simp only [MachineFunction.plainReturns, List.getElem?_map] at found
    obtain ⟨mbb, at_b, rfl⟩ := Option.map_eq_some_iff.mp found
    rw [List.getElem?_map] at there
    obtain ⟨minst, at_i, rfl⟩ := Option.map_eq_some_iff.mp there
    rw [layoutTracker_plainReturns]
    obtain ⟨block, t, at_block, here, length, became⟩ := tr.inst_of at_b at_i
    have tracked := layoutTracker_subset tr (fun t inside minst became T =>
      (liftable.instr t inside).nextTracker_subset became) b i
    exact (liftable.instr t (tr.inside at_block here)).subInstr became tr liftable.closed tracked at_block
      here length

/-- Both machines are in front of the same instruction, or behind a return, with the same
registers and world. -/
inductive Corresponds (func : TranslatedFunction) : CodeState w W → Guest w W → Prop where
  | inside {b i : Nat} {block : TranslatedBlock} {t : TranslatedInst} {regs world}
      (at_block : func.blocks[b]? = some block) (here : block.instrs[i]? = some t) :
      Corresponds func ⟨some t.address, regs, world⟩ ⟨some (b, i), regs, world⟩
  | returned {regs world} : Corresponds func ⟨none, regs, world⟩ ⟨none, regs, world⟩

section
variable {fetch : Fetch} {t : TranslatedInst} {next : Address} {regs : Locals w} {world : W}

theorem codeStep_ret (fetched : fetch t.address = some (t.inst, next))
    (returns : mia.isReturn t.inst = true) :
    codeStep cx mia opcodes fetch ⟨some t.address, regs, world⟩ = some ⟨none, regs, world⟩ := by
  simp [codeStep, fetched, execute, returns]

theorem codeStep_jump {target : Address} (fetched : fetch t.address = some (t.inst, next))
    (noReturn : mia.isReturn t.inst = false) (branch : mia.isBranch t.inst = true)
    (always : mia.isUnconditionalBranch t.inst = true)
    (evaluated : mia.evaluateBranch t.inst t.address (next - t.address) = some target) :
    codeStep cx mia opcodes fetch ⟨some t.address, regs, world⟩ = some ⟨some target, regs, world⟩ := by
  simp [codeStep, fetched, execute, noReturn, branch, always, evaluated]

theorem codeStep_branch {target : Address} (fetched : fetch t.address = some (t.inst, next))
    (noReturn : mia.isReturn t.inst = false) (branch : mia.isBranch t.inst = true)
    (sometimes : mia.isUnconditionalBranch t.inst = false)
    (evaluated : mia.evaluateBranch t.inst t.address (next - t.address) = some target) :
    codeStep cx mia opcodes fetch ⟨some t.address, regs, world⟩ =
      (t.inst.result cx opcodes (t.inst.uses mia).dropLast regs world).map fun (taken, world) =>
        ⟨some (if taken.bits.toNat = 1 then target else next), regs, world⟩ := by
  simp only [codeStep, Option.bind_eq_bind, Option.bind_some, fetched, execute, noReturn, branch,
    sometimes, evaluated, Bool.false_eq_true, if_false, if_true]
  cases t.inst.result cx opcodes (t.inst.uses mia).dropLast regs world <;> rfl

theorem codeStep_generic (fetched : fetch t.address = some (t.inst, next))
    (noReturn : mia.isReturn t.inst = false) (straight : mia.isBranch t.inst = false) :
    codeStep cx mia opcodes fetch ⟨some t.address, regs, world⟩ =
      (t.inst.result cx opcodes (t.inst.uses mia) regs world).map fun (v, world) =>
        ⟨some next, t.inst.write cx mia regs v, world⟩ := by
  simp only [codeStep, Option.bind_eq_bind, Option.bind_some, fetched, execute, noReturn, straight,
    Bool.false_eq_true, if_false]
  cases t.inst.result cx opcodes (t.inst.uses mia) regs world <;> rfl

end

theorem rel_map {α S T : Type*} {R : S → T → Prop} {f : α → S} {g : α → T} (o : Option α)
    (related : ∀ a, R (f a) (g a)) : Option.Rel R (o.map f) (o.map g) := by
  cases o with
  | none => exact .none
  | some a => exact .some (related a)

/-- Behind an instruction that falls through both machines are in front of the next one. -/
theorem TranslatedBy.falls (tr : TranslatedBy mia opcodes R d func) {fetch : Fetch}
    (laid : LaidOut fetch d.insts)
    (closed : ∀ last, d.insts.getLast? = some last → fallsThrough mia last = false)
    {b i : Nat} {block : TranslatedBlock} {t : TranslatedInst} {mbb : MachineBasicBlock} {next : Address}
    (at_block : func.blocks[b]? = some block) (here : block.instrs[i]? = some t)
    (fetched : fetch t.address = some (t.inst, next)) (falls : fallsThrough mia t = true)
    (length : mbb.length = block.instrs.length) (regs : Locals w) (world : W) :
    Corresponds func ⟨some next, regs, world⟩ ⟨some (fallthrough mbb b i), regs, world⟩ := by
  have nonempty : ∀ block ∈ func.blocks, block.instrs ≠ [] := fun block => tr.split.nonempty
  have inside := (List.getElem?_eq_some_iff.mp here).1
  obtain ⟨u, before, after, there, shape⟩ | ⟨last, block', u, before, after, at_block', there, shape⟩ |
      ⟨-, -, final⟩ := flatMap_behind nonempty at_block here
  · obtain rfl := laid.followed (tr.split.instrs.symm.trans shape) fetched
    have within := (List.getElem?_eq_some_iff.mp there).1
    rw [fallthrough, if_pos (length ▸ within)]
    exact .inside at_block there
  · obtain rfl := laid.followed (tr.split.instrs.symm.trans shape) fetched
    rw [fallthrough, if_neg (by omega)]
    exact .inside at_block' there
  · rw [tr.split.instrs] at final
    rw [closed t final] at falls
    cases falls

/-- Decoded code and its translation make the same of an instruction. -/
theorem CodeInstr.step_rel (code : PlainCode mia disp funcs) (member : d ∈ funcs) {t : TranslatedInst}
    {minst : MachineInstr} {block : TranslatedBlock} {mbb : MachineBasicBlock} {b i : Nat}
    (instr : CodeInstr cx mia opcodes disp spReg (d.insts.head?.map TranslatedInst.address) t)
    (became : Became mia opcodes disp func t minst) (tr : TranslatedBy mia opcodes R d func)
    (closed : ∀ last, d.insts.getLast? = some last → fallsThrough mia last = false) {fetch : Fetch}
    (laid : LaidOut fetch d.insts) (at_block : func.blocks[b]? = some block)
    (here : block.instrs[i]? = some t) (found : (func.toMachine opcodes).blocks[b]? = some mbb)
    (length : mbb.length = block.instrs.length) (there : mbb[i]? = some minst) (regs : Locals w) (world : W) :
    Option.Rel (Corresponds func) (codeStep cx mia opcodes fetch ⟨some t.address, regs, world⟩)
      (guestStep cx (func.toMachine opcodes) ⟨some (b, i), regs, world⟩) := by
  have inside := tr.inside at_block here
  obtain ⟨next, fetched⟩ := laid.fetched t inside
  have falls := fun falls regs world => tr.falls (w := w) (W := W) laid closed at_block here fetched
    falls length regs world
  have taken : ∀ {j : Nat} {block' : TranslatedBlock} (regs : Locals w) (world : W),
      func.blocks[j]? = some block' → Corresponds func ⟨some block'.startAddress, regs, world⟩
        ⟨some (j, 0), regs, world⟩ := by
    intro j block' regs world target
    obtain ⟨first, rest, whole, start, -⟩ := tr.split.headed block' (List.mem_of_getElem? target)
    rw [← start]
    exact .inside target (by rw [whole]; rfl)
  have evaluates : mia.isBranch t.inst = true →
      mia.evaluateBranch t.inst t.address (next - t.address) = some (t.address + disp t.inst) ∧
        mia.isReturn t.inst = false := by
    intro branch
    obtain ⟨a, evaluated⟩ := Option.isSome_iff_exists.mp
      (code.direct d member t inside branch t.address (next - t.address))
    obtain ⟨rfl, -, noReturn⟩ := code.evaluated d member t inside _ _ _ evaluated
    exact ⟨evaluated, noReturn⟩
  cases instr with
  | generic straight noReturn lifted path apart defs _ _ _ _ _ noBranch =>
    cases became with
    | branch branch => simp [straight] at branch
    | straight =>
      rw [codeStep_generic fetched noReturn straight, guestStep_generic found there lifted noBranch,
        result_eq rfl (machineInstr_inputs defs)]
      refine rel_map _ ?_
      rintro ⟨v, world⟩
      dsimp only
      rw [writeResult_eq defs]
      exact falls (by simp [fallsThrough, straight, noReturn]) _ _
  | ret straight returns lifted =>
    cases became with
    | branch branch => simp [straight] at branch
    | straight =>
      rw [codeStep_ret fetched returns, guestStep_ret found there lifted]
      exact .some .returned
  | jump branch always operands lifted noReturn direct other =>
    cases became with
    | straight straight => simp [branch] at straight
    | @branch j _ _ target start =>
      obtain ⟨evaluated, noReturn'⟩ := evaluates branch
      have jump : Jump cx (func.toMachine opcodes) (branchInstr mia opcodes t.inst j) j :=
        ⟨lifted j, noReturn j, direct j, by simp [branchInstr, operands, decodedOperands],
          Became.target tr target start other⟩
      rw [codeStep_jump fetched noReturn' branch always evaluated, guestStep_jump found there jump, ← start]
      exact .some (taken _ _ target)
  | @branch f r r' v branch sometimes operands lifted noReturn direct noDefs noDefs' =>
    cases became with
    | straight straight => simp [branch] at straight
    | @branch j _ _ target start =>
      obtain ⟨evaluated, noReturn'⟩ := evaluates branch
      have operand : ((branchInstr mia opcodes t.inst j).operands[2]?).bind MachineOperand.mbb? = some j := by
        simp [branchInstr, operands, decodedOperands, MachineOperand.mbb?]
      rw [codeStep_branch fetched noReturn' branch sometimes evaluated,
        guestStep_branch found there (lifted j) (noReturn j) operand,
        result_eq rfl (branchInstr_inputs noDefs noDefs'), ← start]
      refine rel_map _ ?_
      rintro ⟨v, world⟩
      by_cases one : v.bits.toNat = 1
      · simp only [one, if_true]
        exact taken _ _ target
      · simp only [one, if_false]
        exact falls (by simp [fallsThrough, branch, sometimes]) _ _

/-- Decoded code and its translation run in lockstep. -/
theorem translation_lockstep (code : PlainCode mia disp funcs) (member : d ∈ funcs)
    (liftable : LiftableCode cx mia opcodes disp spReg d.insts) (tr : Translated mia opcodes disp d func)
    {fetch : Fetch} (laid : LaidOut fetch d.insts) :
    Lockstep (codeStep cx mia opcodes fetch) (guestStep cx (func.toMachine opcodes))
      (Corresponds (w := w) func) := by
  rintro s g (⟨at_block, here⟩ | _)
  · obtain ⟨mbb, minst, found, length, there, became⟩ := tr.instr_at at_block here
    exact (liftable.instr _ (tr.inside at_block here)).step_rel code member became tr liftable.closed laid
      at_block here found length there ..
  · exact .none

/-- The first instruction of the code is the first of the first block. -/
theorem TranslatedBy.starts (tr : TranslatedBy mia opcodes R d func) {first : TranslatedInst}
    (head : d.insts.head? = some first) (regs : Locals w) (world : W) :
    Corresponds func ⟨some first.address, regs, world⟩ ⟨some (0, 0), regs, world⟩ := by
  obtain ⟨rest, shape⟩ : ∃ rest, d.insts = first :: rest := by
    cases insts : d.insts with
    | nil => simp [insts] at head
    | cons t rest =>
      rw [insts] at head
      cases head
      exact ⟨rest, rfl⟩
  cases blocks : func.blocks with
  | nil =>
    have whole := tr.split.instrs
    rw [blocks, shape] at whole
    cases whole
  | cons block others =>
    have at_block : func.blocks[0]? = some block := by rw [blocks]; rfl
    obtain ⟨t, later, whole, -⟩ := tr.split.headed block (List.mem_of_getElem? at_block)
    have same := tr.split.instrs
    rw [blocks, shape, List.flatMap_cons, whole, List.cons_append] at same
    obtain ⟨rfl, -⟩ := List.cons.inj same
    exact .inside at_block (by rw [whole]; rfl)

/-- Translation preserves meaning. From the same registers and world the decoded code and
its machine function pass through the same states, and stop in the same one. -/
theorem translation_preserves_meaning {tr : Translation} {fetch : Fetch} {first : TranslatedInst}
    (code : PlainCode mia disp funcs) (done : finalize mia funcs = .ok tr) (found : funcs[k]? = some d)
    (liftable : LiftableCode cx mia opcodes disp spReg d.insts) (laid : LaidOut fetch d.insts)
    (head : d.insts.head? = some first) :
    ∃ func, tr.funcs[k]? = some func ∧ ∀ (regs : Locals w) (world : W),
      let start : CodeState w W := ⟨some first.address, regs, world⟩
      let entry : Guest w W := ⟨some (0, 0), regs, world⟩
      let step := codeStep cx mia opcodes fetch
      let step' := guestStep cx (func.toMachine opcodes)
      (∀ s, Reaches step start s → ∃ g, Reaches step' entry g ∧ Corresponds func s g) ∧
        (∀ g, Reaches step' entry g → ∃ s, Reaches step start s ∧ Corresponds func s g) ∧
        (∀ s, Halts step start s → ∃ g, Halts step' entry g ∧ Corresponds func s g) ∧
        ∀ g, Halts step' entry g → ∃ s, Halts step start s ∧ Corresponds func s g := by
  obtain ⟨-, all⟩ := finalize_ok done
  obtain ⟨func, at_k, result⟩ := all k d found
  have tr : Translated mia opcodes disp d func := result.translated code found liftable.noCalls
  have same := translation_lockstep (w := w) code (List.mem_of_getElem? found) liftable tr laid
  refine ⟨func, at_k, fun regs world => ?_⟩
  have starts := tr.starts head regs world
  exact ⟨fun s => same.reaches starts, fun g => same.symm.reaches starts, fun s => same.halts starts,
    fun g => same.symm.halts starts⟩

section
open RiscV (X0 X1 X2 X10)

/-- Opcode 0 is `ADDI`, 1 is `BEQ`, 3 a call and 4 a return. -/
def fewOpcodes (opcode : Nat) : InstrDesc :=
  match opcode with
  | 0 => RiscV.ADDI
  | 1 => RiscV.BEQ
  | 3 => RiscV.PseudoCALL
  | _ => RiscV.JALR

def fewTarget : MCInstrAnalysis :=
  { smallTarget with get := fun opcode => ⟨(fewOpcodes opcode).numDefs, 3⟩ }

/-- `beq x10, x0, 8; addi x10, x10, -1; ret`, behind an `addi` that does nothing. -/
def decrementCode : List TranslatedInst :=
  [inst 0x1000 0 [.reg X10, .reg X10, .imm 0], inst 0x1004 1 [.reg X10, .reg X0, .imm 8],
    inst 0x1008 0 [.reg X10, .reg X10, .imm (-1)], inst 0x100c 4 [.reg X0, .reg X1, .imm 0]]

def decrement : DecodedFunction := ⟨"decrement", 0x1000, 0x1010, decrementCode⟩

theorem fewTarget_evaluated {inst : MCInst} {a : Address} {size : BitVec 64} {target : Address}
    (evaluated : fewTarget.evaluateBranch inst a size = some target) :
    target = a + smallDisplacement inst ∧ (fewTarget.isBranch inst = true ∨ fewTarget.isCall inst = true) ∧
      fewTarget.isReturn inst = false := by
  have here : smallTarget.evaluateBranch inst a size = some target := evaluated
  exact smallTarget_evaluated here

theorem decrement_plain : PlainCode fewTarget smallDisplacement [decrement] where
  evaluated _ _ _ _ _ _ _ := fewTarget_evaluated
  direct _ _ _ _ branch := smallTarget_direct branch
  apart := by decide
  closed := by decide
  sorted := by decide
  inside := by decide
  disjoint := by decide

theorem addi_codeInstr {first : Option Address} {r : Register} (member : r ∈ RiscV.registers)
    (apart : r ≠ X2) (address : Nat) (v : Int) :
    CodeInstr RiscV.context fewTarget fewOpcodes smallDisplacement X2 first
      (inst address 0 [.reg r, .reg r, .imm v]) := by
  have word : Word RiscV.context r := RiscV.word_register member
  refine .generic (f := RiscV.binary 64 (· + ·)) rfl rfl rfl rfl ?_ rfl rfl ?_ rfl ?_ rfl rfl
  · have used : (machineInstr fewTarget fewOpcodes (inst address 0 [.reg r, .reg r, .imm v]).inst).usedRegs =
        [r] := rfl
    simpa [usesStackPointer, used] using apart
  · have uses : (machineInstr fewTarget fewOpcodes (inst address 0 [.reg r, .reg r, .imm v]).inst).uses =
        [.reg r false false, .imm v] := rfl
    rw [uses]
    simp only [List.forall_mem_cons]
    exact ⟨fun _ => .register word, fun _ => .imm, by simp⟩
  · have defs : (machineInstr fewTarget fewOpcodes (inst address 0 [.reg r, .reg r, .imm v]).inst).defs =
        [.reg r true false] := rfl
    rw [defs]
    simp only [List.forall_mem_cons]
    exact ⟨⟨rfl, r, true, false, rfl, word⟩, by simp⟩

theorem beq_codeInstr {first : Option Address} {r : Register} (member : r ∈ RiscV.registers)
    {address : Nat} {v : Int} (target : first ≠ some (BitVec.ofNat 64 address + BitVec.ofInt 64 v)) :
    CodeInstr RiscV.context fewTarget fewOpcodes smallDisplacement X2 first
      (inst address 1 [.reg r, .reg X0, .imm v]) :=
  .branch (f := RiscV.binary 1 fun a b => if a = b then 1 else 0) rfl rfl rfl (fun _ => rfl) (fun _ => rfl)
    (fun _ => rfl) rfl rfl rfl rfl rfl (.register (RiscV.word_register member)) (.constant rfl) target

theorem decrement_liftable :
    LiftableCode RiscV.context fewTarget fewOpcodes smallDisplacement X2 decrementCode where
  stackPointer := rfl
  nonempty := by decide
  noCalls := by decide
  instr := by
    simp only [decrementCode, List.forall_mem_cons]
    exact ⟨addi_codeInstr (by decide) (by decide) _ _, beq_codeInstr (by decide) (by decide),
      addi_codeInstr (by decide) (by decide) _ _, .ret rfl rfl rfl, by simp⟩
  closed := by decide
  constants := RiscV.constRegs_found
  named := RiscV.constReg_named

/-- What is fetched of the code. -/
def decrementFetch : Fetch := fun addr =>
  (decrementCode.find? (·.address = addr)).map fun t => (t.inst, addr + 4)

theorem decrement_laid : LaidOut decrementFetch decrementCode where
  fetched := by
    simp only [decrementCode, List.forall_mem_cons]
    exact ⟨⟨_, rfl⟩, ⟨_, rfl⟩, ⟨_, rfl⟩, ⟨_, rfl⟩, by simp⟩
  followed := by
    intro before t u after next shape fetched
    have consecutive : decrementCode.IsChain fun t u => u.address = t.address + 4 := by decide
    rw [shape, List.isChain_append_cons_cons] at consecutive
    obtain ⟨t', -, same⟩ := Option.map_eq_some_iff.mp fetched
    rw [consecutive.2.1]
    exact (congrArg Prod.snd same).symm

/-- Both machines return with one less. -/
theorem decrement_returns : ∃ tr func, finalize fewTarget [decrement] = .ok tr ∧ tr.funcs[0]? = some func ∧
    ∃ g, Halts (guestStep RiscV.context (func.toMachine fewOpcodes))
        ⟨some (0, 0), fun _ => 3, fun _ => 0⟩ g ∧ g.place = none ∧
      registerValue (w := RiscV.context.stats.widths) RiscV.context.stats g.regs X10 = some ⟨64, 2⟩ := by
  obtain ⟨tr, done⟩ : ∃ tr, finalize fewTarget [decrement] = .ok tr := ⟨_, rfl⟩
  have found : [decrement][0]? = some decrement := rfl
  obtain ⟨func, at_k, same⟩ := translation_preserves_meaning (w := RiscV.context.stats.widths) decrement_plain
    done found decrement_liftable decrement_laid rfl
  refine ⟨tr, func, done, at_k, ?_⟩
  obtain ⟨-, -, halts, -⟩ := same (fun _ => 3) fun _ => 0
  let step := codeStep (w := RiscV.context.stats.widths) RiscV.context fewTarget fewOpcodes decrementFetch
  have ends : ((iterate step 4 ⟨some 0x1000, fun _ => 3, fun _ => 0⟩).map fun s =>
      (s.pc, registerValue RiscV.context.stats s.regs X10)) = some (none, some ⟨64, 2⟩) := by decide
  obtain ⟨s, path, outcome⟩ := Option.map_eq_some_iff.mp ends
  obtain ⟨returned, value⟩ := Prod.mk.inj outcome
  have halted : step s = none := by simp [step, codeStep, returned]
  obtain ⟨g, finished, related⟩ := halts s ⟨⟨4, path⟩, halted⟩
  cases related with
  | inside at_block here => cases returned
  | returned => exact ⟨_, finished, rfl, value⟩

end

end Bleach.Mctomir
