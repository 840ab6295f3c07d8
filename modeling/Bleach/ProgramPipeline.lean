import Bleach.Mctomir.ProgramPreservation
import Bleach.Pipeline

/-! Both tools in a row on a section of functions that call each other: the lifted module does what
the machine does that fetches its instructions from the bytes, however deep its calls are. -/
namespace Bleach
open Transition
variable {W : Type} {w : Nat → Nat} {cx : Context W} {spReg : Register}

@[simp] theorem isDirectCall_plainReturn {minst : MachineInstr} :
    isDirectCall cx (plainReturn cx minst) = isDirectCall cx minst := by
  by_cases returns : isReturn cx minst = true
  · simp [isDirectCall, returns]
  · rw [plainReturn_of_other (by simpa using returns)]

theorem globalOperand_plainReturn {minst : MachineInstr} :
    (plainReturn cx minst).globalOperand = minst.globalOperand := by
  rw [MachineInstr.globalOperand, plainReturn_operands]
  rfl

theorem behindCall_plainReturns (mbb : MachineBasicBlock) (b i : Nat) :
    behindCall (mbb.map (plainReturn cx)) b i = behindCall mbb b i := by
  simp only [behindCall, List.length_map]

/-- The machine does not read the call flags of returns, in no function. -/
theorem programStep_plainReturns (mfs : List MachineFunction) (s : ProgramState w W) :
    programStep cx (mfs.map (MachineFunction.plainReturns cx)) s = programStep cx mfs s := by
  obtain ⟨f, ⟨place, regs, world⟩, callers⟩ := s
  cases place with
  | none => rfl
  | some at_ =>
    obtain ⟨b, i⟩ := at_
    simp only [programStep, List.getElem?_map, Option.bind_eq_bind]
    cases mfs[f]? with
    | none => rfl
    | some mf =>
      simp only [Option.map_some, Option.bind_some, guestStep_plainReturns]
      rw [MachineFunction.plainReturns, List.getElem?_map]
      cases mf.blocks[b]? with
      | none => rfl
      | some mbb =>
        simp only [Option.map_some, Option.bind_some, List.getElem?_map]
        cases mbb[i]? with
        | none => rfl
        | some minst =>
          simp only [Option.map_some, Option.bind_some, isDirectCall_plainReturn,
            globalOperand_plainReturn, behindCall_plainReturns, Option.bind_map, Function.comp_def,
            MachineFunction.plainReturns, List.isEmpty_map]

namespace Mctomir
variable {mia : MCInstrAnalysis} {opcodes : Nat → InstrDesc} {disp : MCInst → Address}
  {dis : MCDisassembler} {n : Nat} {sec : Section} {k : FuncId} {d : DecodedFunction}
  {funcs : List DecodedFunction}

/-- The lifted module has a frame for each call that has not returned, and the running one holds the
registers; behind a return `register_state` does. -/
structure ShownCalls (stats : RegisterStats) (s : CodeProgram w W) (c : Config w W) : Prop where
  depth : c.frames.length = s.callers.length + s.code.pc.toList.length
  world : c.shared.world = s.code.world
  registers : match s.code.pc with
    | none => ∀ r, stateValue stats c.shared.slots r = registerValue stats s.code.regs r
    | some _ => ∃ fr rest, c.frames = fr :: rest ∧
        ∀ r, registerValue stats fr.locals r = registerValue stats s.code.regs r

/-- It has stopped with the same outcome. -/
structure EndedCalls (stats : RegisterStats) (s : CodeProgram w W) (c : Config w W) : Prop where
  returned : s.code.pc = none ∧ s.callers = [] ↔ c.frames = []
  registers : s.code.pc = none ∧ s.callers = [] →
    ∀ r, stateValue stats c.shared.slots r = registerValue stats s.code.regs r
  world : c.shared.world = s.code.world

theorem CorrespondsCalling.shown {stats : RegisterStats} {tr : Translation} {s : CodeProgram w W}
    {g : ProgramState w W} {c : Config w W} (related : CorrespondsCalling tr s g)
    (same : SameProgram stats g c) : ShownCalls stats s c := by
  obtain ⟨stack, world, registers⟩ := same
  obtain @⟨k, func, s, g, callers, callers', at_k, same, waiting⟩ := related
  have depth := congrArg List.length stack
  cases same with
  | returned =>
    exact ⟨by simpa [ProgramState.stack, waiting.length_eq] using depth, world, registers⟩
  | inside =>
    exact ⟨by simpa [ProgramState.stack, waiting.length_eq, Nat.add_comm] using depth, world, registers⟩

theorem CorrespondsCalling.ended {stats : RegisterStats} {tr : Translation} {s : CodeProgram w W}
    {g : ProgramState w W} {c : Config w W} (related : CorrespondsCalling tr s g)
    (same : ProgramEnd stats g c) : EndedCalls stats s c := by
  obtain ⟨returned, registers, world⟩ := same
  obtain @⟨k, func, s, g, callers, callers', at_k, same, waiting⟩ := related
  have none : callers = [] ↔ callers' = [] := by
    rw [← List.length_eq_zero_iff, ← List.length_eq_zero_iff, waiting.length_eq]
  cases same with
  | returned =>
    simp only [ProgramState.stack, Option.map_none, Option.toList_none, List.nil_append,
      List.map_eq_nil_iff] at returned registers
    exact ⟨by simpa [none] using returned, fun left => registers (none.mp left.2), world⟩
  | inside =>
    simp [ProgramState.stack] at returned
    exact ⟨by simpa using returned, by simp, world⟩

/-- Decoded functions that call each other, translated and lifted. -/
theorem ProgramCode.program_lifted {tr : Translation} (program : ProgramCode cx mia opcodes disp spReg funcs)
    (code : PlainCode mia disp funcs) (done : finalize mia funcs = .ok tr) (disjoint : cx.stats.Disjoint) :
    Program cx ((tr.funcs.map (TranslatedFunction.toMachine opcodes)).map (MachineFunction.plainReturns cx))
      spReg := by
  refine ⟨program.stackPointer, disjoint, fun mf member _ => ?_⟩
  simp only [List.map_map, List.mem_map] at member
  obtain ⟨func, member, rfl⟩ := member
  obtain ⟨k, at_k⟩ := List.mem_iff_getElem?.mp member
  obtain ⟨d, found, result⟩ := finalize_source done at_k
  exact program.programFunction code (List.mem_of_getElem? found) (program.translated code found result)

/-- The module lifted from the translation does what the machine does that runs through its blocks. -/
theorem ProgramCode.lifted_runs {tr : Translation} {addrs : FuncId → FunctionAddresses}
    {finfo : Option FileInfo} {stackSize : Nat} {liftedPrefix : String} {M : IRModule W}
    (program : ProgramCode cx mia opcodes disp spReg funcs) (code : PlainCode mia disp funcs)
    (done : finalize mia funcs = .ok tr) (disjoint : cx.stats.Disjoint)
    (module : bleachModule cx (tr.funcs.map (TranslatedFunction.toMachine opcodes)) addrs finfo stackSize
      liftedPrefix = .ok M) (found : funcs[k]? = some d) :
    ∃ func blocks, tr.funcs[k]? = some func ∧
      TranslatedBy mia opcodes (BecameCalling cx mia opcodes disp funcs func) d func ∧
      M.widths = cx.stats.widths ∧ M.erased.body k = some blocks ∧
      ∀ (regs : Locals M.widths) (shared : Shared M.widths W), Agrees cx.stats regs shared.slots →
        Exhibits (programStep cx (tr.funcs.map (TranslatedFunction.toMachine opcodes))) M.erased.step
          (SameProgram cx.stats) (ProgramEnd cx.stats) ⟨k, ⟨some (0, 0), regs, shared.world⟩, []⟩
          ⟨[M.erased.entryFrame k blocks], shared⟩ := by
  obtain ⟨-, adds, -, lifted, -⟩ := lifted_of_bleachModule module
  obtain ⟨-, all⟩ := finalize_ok done
  obtain ⟨func, at_k, result⟩ := all k d found
  have trans := program.translated code found result
  have whole := program.program_lifted code done disjoint
  have there : ((tr.funcs.map (TranslatedFunction.toMachine opcodes)).map
      (MachineFunction.plainReturns cx))[k]? = some ((func.toMachine opcodes).plainReturns cx) := by
    simp [at_k]
  obtain ⟨fin, host⟩ := whole.housed lifted.plainReturns there (by
    simpa [MachineFunction.plainReturns] using
      trans.blocks_ne_nil (program.nonempty d (List.mem_of_getElem? found)))
  have body := IRModule.body_erased_of host.body
  refine ⟨func, _, at_k, trans, lifted.widths, body, fun regs shared agrees => ?_⟩
  have runs := whole.runs lifted.plainReturns body regs shared agrees
  rwa [funext (programStep_plainReturns _)] at runs

/-- From the bytes of a section to the lifted module without redundant branches. Started in any function
with the same registers and world, the module has a frame for each call the machine that decodes as it
goes has not returned from; both return from the function together, with the same registers and world, or
stop together. -/
theorem lifted_programs_run {order : StartSort} {symbols : List Symbol} {tr : Translation}
    {addrs : FuncId → FunctionAddresses} {finfo : Option FileInfo} {stackSize : Nat} {liftedPrefix : String}
    {M : IRModule W} (disassembled : processDisassembly dis order n sec symbols = .ok funcs)
    (done : finalize mia funcs = .ok tr) (legal : ∀ d ∈ funcs, Legal dis n sec d)
    (code : PlainCode mia disp funcs) (program : ProgramCode cx mia opcodes disp spReg funcs)
    (disjoint : cx.stats.Disjoint)
    (module : bleachModule cx (tr.funcs.map (TranslatedFunction.toMachine opcodes)) addrs finfo stackSize
      liftedPrefix = .ok M) {k : FuncId} {d : DecodedFunction} (found : funcs[k]? = some d) :
    ∃ blocks, M.erased.body k = some blocks ∧ ∀ (regs : Locals M.widths) (shared : Shared M.widths W),
      Agrees cx.stats regs shared.slots →
        Exhibits (codeProgramStep cx mia opcodes (sec.fetch dis)) M.erased.step (ShownCalls cx.stats)
          (EndedCalls cx.stats) ⟨⟨some d.start, regs, shared.world⟩, []⟩
          ⟨[M.erased.entryFrame k blocks], shared⟩ := by
  obtain ⟨func, blocks, at_k, trans, -, body, runs⟩ := program.lifted_runs code done disjoint module found
  have member := List.mem_of_getElem? found
  obtain ⟨first, head⟩ : ∃ first, d.insts.head? = some first :=
    ⟨_, List.head?_eq_some_head (program.nonempty d member)⟩
  have laid : ∀ d ∈ funcs, LaidOut (sec.fetch dis) d.insts := fun d member =>
    (processDisassembly_laidOut disassembled member (legal d member)).1
  refine ⟨blocks, body, fun regs shared agrees => ?_⟩
  rw [← (processDisassembly_laidOut disassembled member (legal d member)).2 first head]
  exact (runs regs shared agrees).before (program_lockstep program code done laid)
    (.mk at_k (trans.starts head regs shared.world) .nil) (fun s g c => CorrespondsCalling.shown)
    fun s g c => CorrespondsCalling.ended

section
open RiscV (X0 X1 X2 X10 X11)

/-- `call down; ret`. -/
def callerCode : List TranslatedInst :=
  [inst 0x1000 3 [.reg X0, .reg X0, .imm 8], inst 0x1004 4 [.reg X0, .reg X1, .imm 0]]

/-- Adds one to `x11` in front of the recursion and behind it. -/
def downCode : List TranslatedInst :=
  [inst 0x1008 0 [.reg X11, .reg X11, .imm 1], inst 0x100c 1 [.reg X10, .reg X0, .imm 16],
    inst 0x1010 0 [.reg X10, .reg X10, .imm (-1)], inst 0x1014 3 [.reg X0, .reg X0, .imm (-12)],
    inst 0x1018 0 [.reg X11, .reg X11, .imm 1], inst 0x101c 4 [.reg X0, .reg X1, .imm 0]]

def recursion : List DecodedFunction :=
  [⟨"main", 0x1000, 0x1008, callerCode⟩, ⟨"down", 0x1008, 0x1020, downCode⟩]

def recursionSection : Section :=
  ⟨0x1000, [3, 0, 0, 8, 4, 0, 1, 0,
    0, 11, 11, 1, 1, 10, 0, 16, 0, 10, 10, 0xff, 3, 0, 0, 0xf4, 0, 11, 11, 1, 4, 0, 1, 0], by decide⟩

def recursionSymbols : List Symbol :=
  [⟨some "main", some .function, some 0x1000, 8, some 0⟩,
    ⟨some "down", some .function, some 0x1008, 24, some 0⟩]

theorem recursion_disassembled :
    processDisassembly fewDisassembler startSort 0 recursionSection recursionSymbols = .ok recursion := rfl

theorem recursion_legal : ∀ d ∈ recursion, Legal fewDisassembler 0 recursionSection d := by
  simp only [recursion, List.forall_mem_cons]
  exact ⟨.of_decoded rfl, .of_decoded rfl, by simp⟩

theorem recursion_plain : PlainCode fewTarget smallDisplacement recursion where
  evaluated _ _ _ _ _ _ _ := fewTarget_evaluated
  direct _ _ _ _ branch := smallTarget_direct branch
  apart := by decide
  closed := by decide
  sorted := by decide
  inside := by decide
  disjoint := by decide

theorem call_codeInstr {first : Option Address} {address : Nat} {v : Int} {funcs : List DecodedFunction}
    {g : FuncId} {e : DecodedFunction} {u : TranslatedInst} (callee : funcs[g]? = some e)
    (entry : e.insts.head? = some u)
    (target : u.address = BitVec.ofNat 64 address + BitVec.ofInt 64 v) :
    ProgramCodeInstr RiscV.context fewTarget fewOpcodes smallDisplacement X2 funcs first
      (inst address 3 [.reg X0, .reg X0, .imm v]) :=
  .call rfl rfl rfl (fun _ _ => rfl) callee entry target rfl rfl

theorem recursion_program :
    ProgramCode RiscV.context fewTarget fewOpcodes smallDisplacement X2 recursion where
  stackPointer := rfl
  constants := RiscV.constRegs_found
  named := RiscV.constReg_named
  nonempty := by decide
  instr := by
    simp only [recursion, callerCode, downCode, List.forall_mem_cons]
    refine ⟨⟨?_, ?_, by simp⟩, ⟨?_, ?_, ?_, ?_, ?_, ?_, by simp⟩, by simp⟩
    · exact call_codeInstr (g := 1) rfl rfl (by decide)
    · exact .own rfl (.ret rfl rfl rfl)
    · exact .own rfl (addi_codeInstr (by decide) (by decide) _ _)
    · exact .own rfl (beq_codeInstr (by decide) (by decide))
    · exact .own rfl (addi_codeInstr (by decide) (by decide) _ _)
    · exact call_codeInstr (g := 1) rfl rfl (by decide)
    · exact .own rfl (addi_codeInstr (by decide) (by decide) _ _)
    · exact .own rfl (.ret rfl rfl rfl)
  closed := by decide
  continues := by
    have chain : ∀ d ∈ recursion, d.insts.IsChain fun t u =>
        fewTarget.isCall t.inst = true → u.address ∉ leaders fewTarget d.insts := by decide
    intro d member before t u after shape
    have chain := chain d member
    rw [shape, List.isChain_append_cons_cons, ← shape] at chain
    exact chain.2.1

/-- Three activations of `down` count three on the way in, and two on the way out. -/
theorem recursion_lifted : ∃ tr M blocks, finalize fewTarget recursion = .ok tr ∧
    bleachModule RiscV.context (tr.funcs.map (TranslatedFunction.toMachine fewOpcodes)) (fun _ => none)
      none 64 "" = .ok M ∧ M.erased.body 0 = some blocks ∧
    ∃ c, Halts M.erased.step ⟨[M.erased.entryFrame 0 blocks], ⟨fun _ => 2, fun _ => 0, [], fun _ => 0⟩⟩ c ∧
      c.frames = [] ∧ stateValue RiscV.context.stats c.shared.slots X11 = some ⟨64, 7⟩ := by
  obtain ⟨tr, done⟩ : ∃ tr, finalize fewTarget recursion = .ok tr := ⟨_, rfl⟩
  obtain ⟨M, module⟩ : ∃ M, bleachModule RiscV.context
      (tr.funcs.map (TranslatedFunction.toMachine fewOpcodes)) (fun _ => none) none 64 "" = .ok M := by
    cases done
    exact ⟨_, rfl⟩
  obtain ⟨_, _, -, lifted, -⟩ := lifted_of_bleachModule module
  have found : recursion[0]? = some ⟨"main", 0x1000, 0x1008, callerCode⟩ := rfl
  obtain ⟨blocks, body, runs⟩ := lifted_programs_run recursion_disassembled done recursion_legal
    recursion_plain recursion_program (by decide) module found
  refine ⟨tr, M, blocks, done, module, body, ?_⟩
  have result := runs (fun _ => 2) ⟨fun _ => 2, fun _ => 0, [], fun _ => 0⟩ fun _ _ => rfl
  have ends : ∀ {w : Nat → Nat}, w = RiscV.context.stats.widths →
      ((iterate (codeProgramStep (w := w) RiscV.context fewTarget fewOpcodes
        (recursionSection.fetch fewDisassembler)) 20 ⟨⟨some 0x1000, fun _ => 2, fun _ => 0⟩, []⟩).map fun s =>
          (s.code.pc, s.callers.length, registerValue RiscV.context.stats s.code.regs X11)) =
        some (none, 0, some ⟨64, 7⟩) := by
    rintro w rfl
    decide
  obtain ⟨s, path, outcome⟩ := Option.map_eq_some_iff.mp (ends lifted.widths)
  simp only [Prod.mk.injEq, List.length_eq_zero_iff] at outcome
  obtain ⟨returned, callers, value⟩ := outcome
  have halted : codeProgramStep RiscV.context fewTarget fewOpcodes (recursionSection.fetch fewDisassembler) s =
      none := by simp [codeProgramStep, returned, callers]
  obtain ⟨c, halts, ended⟩ := result.halts s ⟨⟨20, path⟩, halted⟩
  exact ⟨c, halts, ended.returned.mp ⟨returned, callers⟩,
    (ended.registers ⟨returned, callers⟩ X11).trans value⟩

end

end Mctomir
end Bleach
