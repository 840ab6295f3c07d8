import Bleach.Mctomir.Preservation
import Bleach.ProgramSimulation

/-! The translation of decoded functions that call each other: the machine that fetches at addresses
and keeps the return addresses of its calls, and the one that runs through blocks and keeps its
callers, make the same steps. -/
namespace Bleach.Mctomir
open Transition
variable {W : Type} {w : Nat → Nat}

/-- A call that has not returned: the address behind it, and the registers in front of it. -/
structure CodeCaller (w : Nat → Nat) where
  next : Address
  regs : Locals w

/-- The machine, and the calls it has not returned from. Return addresses are kept apart from the
registers. -/
structure CodeProgram (w : Nat → Nat) (W : Type) where
  code : CodeState w W
  callers : List (CodeCaller w)

def codeProgramStep (cx : Context W) (mia : MCInstrAnalysis) (opcodes : Nat → InstrDesc) (fetch : Fetch)
    (s : CodeProgram w W) : Option (CodeProgram w W) :=
  match s.code.pc with
  | none =>
    match s.callers with
    | [] => none
    | a :: rest =>
      some ⟨⟨some a.next, if cx.functionsNop then a.regs else s.code.regs, s.code.world⟩, rest⟩
  | some pc => do
    let (inst, next) ← fetch pc
    if mia.isCall inst then
      let target ← mia.evaluateBranch inst pc (next - pc)
      some ⟨{ s.code with pc := some target }, ⟨next, s.code.regs⟩ :: s.callers⟩
    else
      let code ← codeStep cx mia opcodes fetch s.code
      some { s with code := code }

/-- A call with the function in the place of the displacement. -/
def callInstr (mia : MCInstrAnalysis) (opcodes : Nat → InstrDesc) (inst : MCInst) (g : FuncId) :
    MachineInstr :=
  ⟨opcodes inst.opcode,
    decodedOperands (mia.get inst.opcode).numDefs 0 inst.operands.dropLast ++ [.global g]⟩

section
variable (cx : Context W) (mia : MCInstrAnalysis) (opcodes : Nat → InstrDesc) (disp : MCInst → Address)
  (spReg : Register) (funcs : List DecodedFunction)

/-- An instruction without calls, or a direct call of a function of the program. -/
inductive ProgramCodeInstr (first : Option Address) (t : TranslatedInst) : Prop where
  | own (noCall : mia.isCall t.inst = false) (instr : CodeInstr cx mia opcodes disp spReg first t)
  | call {g e u} (call : mia.isCall t.inst = true) (straight : mia.isBranch t.inst = false)
      (sometimes : mia.isUnconditionalBranch t.inst = false)
      (direct : ∀ a size, (mia.evaluateBranch t.inst a size).isSome = true)
      (callee : funcs[g]? = some e) (entry : e.insts.head? = some u)
      (target : u.address = t.address + disp t.inst)
      (lifted : isDirectCall cx (callInstr mia opcodes t.inst g) = true)
      (noBranch : (opcodes t.inst.opcode).isBranch = false)

/-- Functions that call each other, do not run over their ends, and neither read their stack pointers
nor branch back to their first instructions or to what stands behind a call. -/
structure ProgramCode : Prop where
  stackPointer : cx.stackPointer? = some spReg
  constants : ∀ k ∈ cx.instrs.constRegs, ∃ r, findRegisterByName cx.tm k.name = some r
  named : ∀ {r k}, cx.instrs.constReg? cx.tm r = some k → findRegisterByName cx.tm k.name = some r
  nonempty : ∀ d ∈ funcs, d.insts ≠ []
  instr : ∀ d ∈ funcs, ∀ t ∈ d.insts,
    ProgramCodeInstr cx mia opcodes disp spReg funcs (d.insts.head?.map TranslatedInst.address) t
  closed : ∀ d ∈ funcs, ∀ last, d.insts.getLast? = some last → fallsThrough mia last = false
  continues : ∀ d ∈ funcs, ∀ {before t u after}, d.insts = before ++ t :: u :: after →
    mia.isCall t.inst = true → u.address ∉ leaders mia d.insts

end

variable {cx : Context W} {mia : MCInstrAnalysis} {opcodes : Nat → InstrDesc} {disp : MCInst → Address}
  {spReg : Register} {funcs : List DecodedFunction} {k : FuncId} {d : DecodedFunction}
  {func : TranslatedFunction}

/-- The machine instruction a decoded one of a program became. -/
inductive BecameCalling (cx : Context W) (mia : MCInstrAnalysis) (opcodes : Nat → InstrDesc)
    (disp : MCInst → Address) (funcs : List DecodedFunction) (func : TranslatedFunction)
    (t : TranslatedInst) : MachineInstr → Prop where
  | own {minst} (noCall : mia.isCall t.inst = false) (became : Became mia opcodes disp func t minst) :
      BecameCalling cx mia opcodes disp funcs func t minst
  | call {g e u} (call : mia.isCall t.inst = true) (callee : funcs[g]? = some e)
      (entry : e.insts.head? = some u) (target : u.address = t.address + disp t.inst)
      (lifted : isDirectCall cx (callInstr mia opcodes t.inst g) = true) :
      BecameCalling cx mia opcodes disp funcs func t (callInstr mia opcodes t.inst g)

/-- A call that finds the block of its target names the function in its last operand. -/
theorem callInstr_of_found {map : AddressMap} {current r : BlockRef} {t : TranslatedInst} {instr : BuiltInstr}
    {successor : Option BlockRef} {a : Address} (target : operandTarget mia t = some a)
    (found : map.lookup a = some r) (call : mia.isCall t.inst = true)
    (sometimes : mia.isUnconditionalBranch t.inst = false)
    (made : createMachineInstr mia map current t = .ok (instr, successor)) :
    instr.toMachine opcodes = callInstr mia opcodes t.inst r.func := by
  simp only [createMachineInstr, target] at made
  split at made
  · next displaced =>
    simp only [found, isCall, isTailCall, call, sometimes, Bool.false_and, Bool.or_false, if_true,
      Bool.false_eq_true, if_false] at made
    obtain ⟨operands, filled, made⟩ := bind_ok.mp made
    cases made
    simp [BuiltInstr.toMachine, callInstr, Opcode.desc, fillOperands_machine_branch displaced filled,
      Operand.toMachine]
  · cases made

/-- The first instruction of a function starts its first block. -/
theorem blockStarts_head {e : DecodedFunction} {u : TranslatedInst} (entry : e.insts.head? = some u) :
    (blockStarts mia e)[0]? = some u.address := by
  obtain ⟨rest, shape⟩ : ∃ rest, e.insts = u :: rest := by
    cases insts : e.insts with
    | nil => simp [insts] at entry
    | cons t rest =>
      rw [insts] at entry
      cases entry
      exact ⟨rest, rfl⟩
  have leader : u.address ∈ leaders mia e.insts := by simp [leaders, entry]
  rw [blockStarts, shape, List.filter_cons_of_pos (by simpa [shape] using leader)]
  rfl

theorem globalOperand_callInstr (inst : MCInst) (g : FuncId) :
    (callInstr mia opcodes inst g).globalOperand = some g := by
  have none : ∀ (numDefs idx : Nat) (ops : List MCOperand),
      (decodedOperands numDefs idx ops).findSome? MachineOperand.global? = none := by
    intro numDefs idx ops
    induction ops generalizing idx with
    | nil => rfl
    | cons op rest ih =>
      have here : (op.decoded numDefs idx).global? = none := by cases op <;> rfl
      rw [decodedOperands, List.findSome?_cons, here, ih]
  rw [MachineInstr.globalOperand, callInstr, List.findSome?_append, none]
  rfl

/-- What is no call of the decoded code is lifted as no call. -/
theorem CodeInstr.not_call {first : Option Address} {t : TranslatedInst} {minst : MachineInstr}
    (instr : CodeInstr cx mia opcodes disp spReg first t) (became : Became mia opcodes disp func t minst) :
    isDirectCall cx minst = false := by
  by_contra other
  have call := Bool.of_not_eq_false other
  have path := dispatch_call call ∅
  cases instr with
  | generic straight _ _ generic =>
    cases became with
    | straight => simp [generic] at path
    | branch branch => simp [straight] at branch
  | ret straight _ lifted =>
    cases became with
    | straight => simp [(directCall_flags call).2.1] at lifted
    | branch branch => simp [straight] at branch
  | jump branch _ _ lifted noReturn direct =>
    cases became with
    | straight straight => simp [branch] at straight
    | @branch j =>
      rw [dispatch_unconditional (lifted j) (noReturn j) (direct j) (branchInstr_named ..)] at path
      cases path
  | branch branch _ _ lifted noReturn direct =>
    cases became with
    | straight straight => simp [branch] at straight
    | @branch j =>
      rw [dispatch_conditional (lifted j) (noReturn j) (direct j) (branchInstr_named ..)] at path
      cases path

namespace ProgramCode

theorem became_of_made (program : ProgramCode cx mia opcodes disp spReg funcs)
    (code : PlainCode mia disp funcs) (found : funcs[k]? = some d) (result : Finalized mia funcs k d func)
    {t : TranslatedInst} (inside : t ∈ d.insts) {i : Nat} {instr : BuiltInstr}
    {successor : Option BlockRef}
    (made : createMachineInstr mia (blockMap mia funcs) ⟨k, i⟩ t = .ok (instr, successor)) :
    BecameCalling cx mia opcodes disp funcs func t (instr.toMachine opcodes) := by
  have member := List.mem_of_getElem? found
  cases program.instr d member t inside with
  | own noCall _ => exact .own noCall (Mctomir.became_of_made code found result inside noCall made)
  | @call g e u call straight sometimes direct callee entry target lifted =>
    obtain ⟨offset, evaluated⟩ := Option.isSome_iff_exists.mp (direct 0 4)
    have goes : operandTarget mia t = some (offset + t.address) := by rw [operandTarget, evaluated]; rfl
    have at_a := code.operandTarget_eq member inside goes
    rw [at_a, ← target] at goes
    have owned := code.owner_start callee (blockStarts_head entry)
    rw [callInstr_of_found goes owned call sometimes made]
    exact .call call callee entry target lifted

theorem translated (program : ProgramCode cx mia opcodes disp spReg funcs) (code : PlainCode mia disp funcs)
    (found : funcs[k]? = some d) (result : Finalized mia funcs k d func) :
    TranslatedBy mia opcodes (BecameCalling cx mia opcodes disp funcs func) d func :=
  result.translatedBy code found fun _ inside _ _ _ made =>
    program.became_of_made code found result inside made

theorem call_falls (program : ProgramCode cx mia opcodes disp spReg funcs) (code : PlainCode mia disp funcs)
    (member : d ∈ funcs) {t : TranslatedInst} (inside : t ∈ d.insts) (call : mia.isCall t.inst = true) :
    fallsThrough mia t = true ∧ (opcodes t.inst.opcode).isBranch = false := by
  cases program.instr d member t inside with
  | own noCall => simp [noCall] at call
  | call _ straight _ direct _ _ _ _ noBranch =>
    obtain ⟨target, evaluated⟩ := Option.isSome_iff_exists.mp (direct 0 0)
    have noReturn := (code.evaluated d member t inside _ _ _ evaluated).2.2
    exact ⟨by simp [fallsThrough, straight, noReturn], noBranch⟩

theorem call_evaluates (program : ProgramCode cx mia opcodes disp spReg funcs)
    (code : PlainCode mia disp funcs) (member : d ∈ funcs) {t : TranslatedInst} (inside : t ∈ d.insts)
    (call : mia.isCall t.inst = true) (a : Address) (size : BitVec 64) :
    mia.evaluateBranch t.inst a size = some (a + disp t.inst) := by
  cases program.instr d member t inside with
  | own noCall => simp [noCall] at call
  | call _ _ _ direct =>
    obtain ⟨target, evaluated⟩ := Option.isSome_iff_exists.mp (direct a size)
    rw [evaluated, (code.evaluated d member t inside _ _ _ evaluated).1]

/-- A call is not the last instruction of its block. -/
theorem call_continues (program : ProgramCode cx mia opcodes disp spReg funcs) (member : d ∈ funcs)
    {R : TranslatedInst → MachineInstr → Prop} (tr : TranslatedBy mia opcodes R d func) {b i : Nat}
    {block : TranslatedBlock} {t : TranslatedInst} (at_block : func.blocks[b]? = some block)
    (here : block.instrs[i]? = some t) (call : mia.isCall t.inst = true) (falls : fallsThrough mia t = true) :
    ∃ u before after, block.instrs[i + 1]? = some u ∧ d.insts = before ++ t :: u :: after := by
  have nonempty : ∀ block ∈ func.blocks, block.instrs ≠ [] := fun block => tr.split.nonempty
  obtain ⟨u, before, after, next, shape⟩ | ⟨-, block', u, before, after, at_block', first, shape⟩ |
      ⟨-, -, final⟩ := flatMap_behind nonempty at_block here
  · exact ⟨u, before, after, next, tr.split.instrs.symm.trans shape⟩
  · obtain ⟨u', rest, whole, -, leader, -⟩ := tr.split.headed block' (List.mem_of_getElem? at_block')
    rw [whole] at first
    cases first
    exact absurd leader (program.continues d member (tr.split.instrs.symm.trans shape) call)
  · rw [tr.split.instrs] at final
    rw [program.closed d member t final] at falls
    cases falls

/-- No instruction of the program puts anything but the stack pointer into the tracker. -/
theorem layoutTracker_subset (program : ProgramCode cx mia opcodes disp spReg funcs) (member : d ∈ funcs)
    (tr : TranslatedBy mia opcodes (BecameCalling cx mia opcodes disp funcs func) d func) (b i : Nat) :
    layoutTracker cx (func.toMachine opcodes) spReg b i ⊆ {spReg} := by
  refine Mctomir.layoutTracker_subset tr (fun t inside minst became T subset => ?_) b i
  cases became with
  | own noCall became =>
    cases program.instr d member t inside with
    | own _ instr => exact instr.nextTracker_subset became subset
    | call call => simp [noCall] at call
  | call call callee entry target lifted => simpa [nextTracker, dispatch_call lifted] using subset

/-- The translated function can be lifted. -/
theorem programFunction (program : ProgramCode cx mia opcodes disp spReg funcs)
    (code : PlainCode mia disp funcs) (member : d ∈ funcs)
    (tr : TranslatedBy mia opcodes (BecameCalling cx mia opcodes disp funcs func) d func) :
    ProgramFunction cx ((func.toMachine opcodes).plainReturns cx) spReg := by
  refine ⟨program.stackPointer, ?_, ?_, fun {b mbb i minst} found there => ?_, program.constants,
    program.named⟩
  · simpa [MachineFunction.plainReturns] using tr.blocks_ne_nil (program.nonempty d member)
  · rintro _ member rfl
    obtain ⟨mbb, member, empty⟩ := List.mem_map.mp member
    exact tr.block_ne_nil member (List.map_eq_nil_iff.mp empty)
  · simp only [MachineFunction.plainReturns, List.getElem?_map] at found
    obtain ⟨mbb, at_b, rfl⟩ := Option.map_eq_some_iff.mp found
    rw [List.getElem?_map] at there
    obtain ⟨minst, at_i, rfl⟩ := Option.map_eq_some_iff.mp there
    rw [layoutTracker_plainReturns]
    obtain ⟨block, t, at_block, here, length, became⟩ := tr.inst_of at_b at_i
    have inside := tr.inside at_block here
    have tracked := program.layoutTracker_subset member tr b i
    cases became with
    | own noCall became =>
      cases program.instr d member t inside with
      | own _ instr =>
        exact .own (instr.subInstr became tr (program.closed d member) tracked at_block here length)
      | call call => simp [noCall] at call
    | @call g e u call callee entry target lifted =>
      obtain ⟨falls, noBranch⟩ := program.call_falls code member inside call
      obtain ⟨v, -, -, next, -⟩ := program.call_continues member tr at_block here call falls
      have bound := (List.getElem?_eq_some_iff.mp next).1
      rw [plainReturn_of_other (directCall_flags lifted).2.1]
      exact .call lifted (globalOperand_callInstr t.inst g) noBranch (by simpa [length] using bound)

end ProgramCode

/-- A caller waits at the instruction its return address leads to. -/
inductive CallerCorresponds (tr : Translation) : CodeCaller w → Caller w → Prop where
  | mk {k func b i block t regs} (at_k : tr.funcs[k]? = some func)
      (at_block : func.blocks[b]? = some block) (here : block.instrs[i]? = some t) :
      CallerCorresponds tr ⟨t.address, regs⟩ ⟨k, some (b, i), regs⟩

/-- Both machines are in front of the same instruction, with the same calls behind them. -/
inductive CorrespondsCalling (tr : Translation) : CodeProgram w W → ProgramState w W → Prop where
  | mk {k func s g callers callers'} (at_k : tr.funcs[k]? = some func) (same : Corresponds func s g)
      (waiting : List.Forall₂ (CallerCorresponds tr) callers callers') :
      CorrespondsCalling tr ⟨s, callers⟩ ⟨k, g, callers'⟩

/-- The machine is in front of a decoded instruction. -/
theorem CorrespondsCalling.inside {tr : Translation} {c : CodeProgram w W} {s : ProgramState w W}
    (program : ProgramCode cx mia opcodes disp spReg funcs) (code : PlainCode mia disp funcs)
    (done : finalize mia funcs = .ok tr) (related : CorrespondsCalling tr c s) :
    ∀ pc ∈ c.code.pc, ∃ d ∈ funcs, ∃ t ∈ d.insts, t.address = pc := by
  rintro pc here
  obtain @⟨k, func, c, g, callers, callers', at_k, same, waiting⟩ := related
  cases same with
  | returned => cases here
  | @inside b i block t regs world at_block at_i =>
    obtain ⟨d, found, result⟩ := finalize_source done at_k
    have trans := program.translated code found result
    exact ⟨d, List.mem_of_getElem? found, t, trans.inside at_block at_i, Option.some.inj here⟩

section
variable {fetch : Fetch} {t : TranslatedInst} {next : Address} {regs : Locals w} {world : W}
  {callers : List (CodeCaller w)}

theorem codeProgramStep_own (fetched : fetch t.address = some (t.inst, next))
    (noCall : mia.isCall t.inst = false) :
    codeProgramStep cx mia opcodes fetch ⟨⟨some t.address, regs, world⟩, callers⟩ =
      (codeStep cx mia opcodes fetch ⟨some t.address, regs, world⟩).map fun code => ⟨code, callers⟩ := by
  simp only [codeProgramStep, fetched, noCall, Option.bind_eq_bind, Option.bind_some, Bool.false_eq_true,
    if_false]
  exact Option.map_eq_bind.symm

theorem codeProgramStep_call {target : Address} (fetched : fetch t.address = some (t.inst, next))
    (call : mia.isCall t.inst = true)
    (evaluated : mia.evaluateBranch t.inst t.address (next - t.address) = some target) :
    codeProgramStep cx mia opcodes fetch ⟨⟨some t.address, regs, world⟩, callers⟩ =
      some ⟨⟨some target, regs, world⟩, ⟨next, regs⟩ :: callers⟩ := by
  simp [codeProgramStep, fetched, call, evaluated]

end

theorem rel_map_of {α β S T : Type*} {P : α → β → Prop} {R : S → T → Prop} {f : α → S} {g : β → T}
    {o : Option α} {o' : Option β} (same : Option.Rel P o o') (related : ∀ a b, P a b → R (f a) (g b)) :
    Option.Rel R (o.map f) (o'.map g) := by
  cases same with
  | some here => exact .some (related _ _ here)
  | none => exact .none

/-- Decoded functions that call each other and their translations run in lockstep. -/
theorem program_lockstep {tr : Translation} {fetch : Fetch}
    (program : ProgramCode cx mia opcodes disp spReg funcs) (code : PlainCode mia disp funcs)
    (done : finalize mia funcs = .ok tr) (laid : ∀ d ∈ funcs, LaidOut fetch d.insts) :
    Lockstep (codeProgramStep cx mia opcodes fetch)
      (programStep cx (tr.funcs.map (TranslatedFunction.toMachine opcodes)))
      (CorrespondsCalling (w := w) tr) := by
  rintro _ _ @⟨k, func, s, g, callers, callers', at_k, same, waiting⟩
  cases same with
  | returned =>
    cases waiting with
    | nil => exact .none
    | cons here waiting =>
      cases here with
      | mk at_k at_block here => exact .some (.mk at_k (.inside at_block here) waiting)
  | @inside b i block t regs world at_block here =>
    obtain ⟨d, found, result⟩ := finalize_source done at_k
    have member := List.mem_of_getElem? found
    have trans := program.translated code found result
    obtain ⟨mbb, minst, found', length, there, became⟩ := trans.instr_at at_block here
    have inside := trans.inside at_block here
    have machine : (tr.funcs.map (TranslatedFunction.toMachine opcodes))[k]? =
        some (func.toMachine opcodes) := by simp [at_k]
    obtain ⟨next, fetched⟩ := (laid d member).fetched t inside
    cases became with
    | own noCall became =>
      cases program.instr d member t inside with
      | call call => simp [noCall] at call
      | own _ instr =>
        have own := instr.step_rel code member became trans (program.closed d member) (laid d member) at_block
          here found' length there regs world
        rw [codeProgramStep_own fetched noCall, programStep_own machine found' there (instr.not_call became)]
        exact rel_map_of own fun s g same => .mk at_k same waiting
    | @call g e u call callee entry target lifted =>
      obtain ⟨-, all⟩ := finalize_ok done
      obtain ⟨func', at_g, result'⟩ := all g e callee
      have trans' := program.translated code callee result'
      have machine' : (tr.funcs.map (TranslatedFunction.toMachine opcodes))[g]? =
          some (func'.toMachine opcodes) := by simp [at_g]
      have blocks : (func'.toMachine opcodes).blocks.isEmpty = false := by
        simpa using trans'.blocks_ne_nil (program.nonempty e (List.mem_of_getElem? callee))
      obtain ⟨falls, -⟩ := program.call_falls code member inside call
      obtain ⟨v, before, after, there', shape⟩ := program.call_continues member trans at_block here call falls
      obtain rfl := (laid d member).followed shape fetched
      have bound := (List.getElem?_eq_some_iff.mp there').1
      have behind : behindCall mbb b i = some (b, i + 1) := if_pos (length ▸ bound)
      rw [codeProgramStep_call fetched call (program.call_evaluates code member inside call _ _),
        programStep_call machine found' there lifted (globalOperand_callInstr t.inst g), machine',
        Option.bind_some, blocks, behind, ← target]
      exact .some (.mk at_g (trans'.starts entry regs world) (.cons (.mk at_k at_block there') waiting))

end Bleach.Mctomir
