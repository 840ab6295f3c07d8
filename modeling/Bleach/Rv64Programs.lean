import Bleach.ProgramPipeline
import Bleach.Rv64Calls
import Bleach.Rv64Lifting

/-! Programs of RV64 on the architecture and lifted. The lifted module keeps no return addresses: it
agrees with the architecture in everything that is not computed from them. -/
namespace Rv64
open Bleach Mctomir Transition
open Templates (Mapped hostMemory inSection)
open ByteMemory (Memory AgreeOff)
variable {w : Nat → Nat} {table : List BleachSection} {others : List (Instruction World)}
  {classes : List RegisterClass} {mia : MCInstrAnalysis} {opcodes : Nat → InstrDesc} {code : Mnemonic → Nat}
  {jal : Nat} {funcs : List DecodedFunction} {k : FuncId} {d : DecodedFunction} {fetch : CallFetch}
  {fetch' : Mctomir.Fetch}

def JAL : InstrDesc := { name := "JAL", numDefs := 1, isCall := true, miaIsCall := true }

/-- The instruction as it is disassembled. -/
def CallInstr.toMCInst (code : Mnemonic → Nat) (jal : Nat) : CallInstr → MCInst
  | own i => i.toMCInst code
  | call disp => ⟨jal, [.reg 1, .imm disp]⟩

/-- What the target says of the instructions and of calls. -/
structure DescribesCalls (mia : MCInstrAnalysis) (opcodes : Nat → InstrDesc) (code : Mnemonic → Nat)
    (jal : Nat) : Prop extends Describes mia opcodes code where
  callDesc : opcodes jal = JAL
  callTransfers : ∀ disp, mia.isCall ((CallInstr.call disp).toMCInst code jal) = true ∧
    mia.isBranch ((CallInstr.call disp).toMCInst code jal) = false ∧
    mia.isUnconditionalBranch ((CallInstr.call disp).toMCInst code jal) = false
  callTarget : ∀ disp (addr : Address) (size : BitVec 64),
    mia.evaluateBranch ((CallInstr.call disp).toMCInst code jal) addr size = some (addr + .ofInt 64 disp)

/-- An instruction that does not read the stack pointer and does not branch to the first one, or a call of
a function of the program. -/
def CallInstr.Allowed (funcs : List DecodedFunction) (first : Option Address) (addr : Address) :
    CallInstr → Prop
  | own i => i.Valid ∧ 2 ∉ i.reads ∧ ∀ disp ∈ i.disp?, first ≠ some (addr + .ofInt 64 disp)
  | call disp => ∃ e ∈ funcs, e.insts.head?.map TranslatedInst.address = some (addr + .ofInt 64 disp)

instance (funcs : List DecodedFunction) (first : Option Address) (addr : Address) (ci : CallInstr) :
    Decidable (ci.Allowed funcs first addr) :=
  match ci with
  | .own _ => inferInstanceAs (Decidable (_ ∧ _ ∧ _))
  | .call _ => inferInstanceAs (Decidable (∃ e ∈ funcs, _))

/-- Functions of these instructions. None runs over its end or branches to what stands behind a call. -/
structure IntegerProgram (mia : MCInstrAnalysis) (code : Mnemonic → Nat) (jal : Nat)
    (funcs : List DecodedFunction) : Prop where
  nonempty : ∀ d ∈ funcs, d.insts ≠ []
  instr : ∀ d ∈ funcs, ∀ t ∈ d.insts, ∃ ci : CallInstr, t.inst = ci.toMCInst code jal ∧
    ci.Allowed funcs (d.insts.head?.map TranslatedInst.address) t.address
  ends : ∀ d ∈ funcs, ∀ last ∈ d.insts.getLast?,
    ∃ i : Instr, last.inst = i.toMCInst code ∧ i.isLast = true
  continues : ∀ d ∈ funcs, ∀ {before t u after}, d.insts = before ++ t :: u :: after →
    mia.isCall t.inst = true → u.address ∉ leaders mia d.insts

/-- The instructions of the functions are fetched as they are disassembled. -/
def DecodesCalls (code : Mnemonic → Nat) (jal : Nat) (fetch : CallFetch) (fetch' : Mctomir.Fetch)
    (funcs : List DecodedFunction) : Prop :=
  ∀ d ∈ funcs, ∀ t ∈ d.insts, ∀ ci : CallInstr, t.inst = ci.toMCInst code jal → ∀ next,
    fetch' t.address = some (t.inst, next) → fetch t.address = some (ci, next)

theorem call_lifted (describes : DescribesCalls mia opcodes code jal)
    (noCall : ∀ i ∈ others, i.name ≠ "JAL") (disp : Int) (g : FuncId) :
    isDirectCall (context table others classes)
      (callInstr mia opcodes ((CallInstr.call disp).toMCInst code jal) g) = true := by
  have none : others.find? (fun i => i.name = "JAL") = none := by simpa using noCall
  have found : (context table others classes).instrs.find "JAL" = Option.none := none
  have shape : callInstr mia opcodes ((CallInstr.call disp).toMCInst code jal) g =
      ⟨JAL, [.reg 1 (0 < (mia.get jal).numDefs) false, .global g]⟩ := by
    simp only [callInstr, CallInstr.toMCInst, describes.callDesc]
    rfl
  rw [shape]
  simp [isDirectCall, Bleach.isCall, isReturn, isIndirectBranch, isBranch, JAL, found, MachineOperand.isMBB]

/-- An integer program is one that can be lifted. -/
theorem IntegerProgram.programCode (describes : DescribesCalls mia opcodes code jal)
    (noJump : ∀ i ∈ others, i.name ≠ "C_J") (noCall : ∀ i ∈ others, i.name ≠ "JAL")
    (disjoint : (context table others classes).stats.Disjoint)
    (program : IntegerProgram mia code jal funcs) :
    ProgramCode (context table others classes) mia opcodes displacement 2 funcs where
  stackPointer := rfl
  constants := constRegs_found
  named := constReg_named
  nonempty := program.nonempty
  instr := by
    rintro d member ⟨addr, _⟩ inside
    obtain ⟨ci, rfl, holds⟩ := program.instr d member _ inside
    cases ci with
    | own i =>
      obtain ⟨-, stackless, behind⟩ := holds
      exact .own (describes.isCall i) (codeInstr describes.toDescribes noJump disjoint stackless behind)
    | call disp =>
      obtain ⟨e, member', entry⟩ := holds
      obtain ⟨g, callee⟩ := List.mem_iff_getElem?.mp member'
      obtain ⟨u, head, target⟩ := Option.map_eq_some_iff.mp entry
      obtain ⟨call, branch, unconditional⟩ := describes.callTransfers disp
      refine .call call branch unconditional (fun a size => ?_) callee head target
        (call_lifted describes noCall disp g) ?_
      · rw [describes.callTarget]
        rfl
      · exact congrArg InstrDesc.isBranch describes.callDesc
  closed := by
    rintro d member ⟨addr, _⟩ last
    obtain ⟨i, rfl, ends⟩ := program.ends d member _ last
    exact last_ends describes.toDescribes ends addr
  continues := program.continues

/-- Both machines are in front of one address, or behind a return, with the same calls behind them. The
decoded code runs with other return addresses. -/
inductive SameCalls (table : List BleachSection) (stats : RegisterStats) (regs₀ : Locals w)
    (outside : World) : Traced → CodeProgram w World → Prop where
  | mk {s s' L c callers callers'} (off : SameOff L s s')
      (same : SameMachine table stats regs₀ outside s' c)
      (waiting : List.Forall₂ (fun next (a : CodeCaller w) => a.next = next) callers callers') :
      SameCalls table stats regs₀ outside ⟨⟨s, callers⟩, L⟩ ⟨c, callers'⟩

/-- As long as return addresses are nothing but return addresses, the architecture and the decoded code
make the same steps. -/
theorem call_step_same (describes : DescribesCalls mia opcodes code jal) (mapped : Mapped table)
    (disjoint : (context table others classes).stats.Disjoint)
    (widths : w = (context table others classes).stats.widths)
    (program : IntegerProgram mia code jal funcs) (laid : ∀ d ∈ funcs, LaidOut fetch' d.insts)
    (decodes : DecodesCalls code jal fetch fetch' funcs) {regs₀ : Locals w} {outside : World} {t : Traced}
    {c : CodeProgram w World} (lawful : Lawful (inSection table) fetch t)
    (same : SameCalls table (gpr :: classes) regs₀ outside t c)
    (known : ∀ pc ∈ c.code.pc, ∃ d ∈ funcs, ∃ u ∈ d.insts, u.address = pc) :
    Option.Rel (SameCalls table (gpr :: classes) regs₀ outside)
      (guarded (DefinedCall fetch) (tracedStep fetch) t)
      (codeProgramStep (context table others classes) mia opcodes fetch' c) := by
  obtain @⟨s, s', L, c, callers, callers', off, same, waiting⟩ := same
  cases off with
  | @running pc x y mem mem' sameRegs agree =>
    cases same with
    | @running _ _ regs _ mirrors =>
      obtain ⟨d, member, u, inside, rfl⟩ := known _ rfl
      obtain ⟨next, fetched'⟩ := (laid d member).fetched u inside
      obtain ⟨ci, decoded, holds⟩ := program.instr d member u inside
      have fetched := decodes d member u inside ci decoded next fetched'
      cases ci with
      | own i =>
        obtain ⟨accesses, discreet⟩ := lawful i (by simp [ownAt, fetched])
        have decoded : u.inst = i.toMCInst code := decoded
        have noCall : mia.isCall u.inst = false := decoded ▸ describes.isCall i
        have own : Option.Rel (SameMachine table (gpr :: classes) regs₀ outside)
            (if i.Divisible y then some (i.exec u.address next y mem') else none)
            (codeStep (context table others classes) mia opcodes fetch'
              ⟨some u.address, regs, hostMemory table outside mem'⟩) :=
          step_same mapped holds.1 (Instr.accesses_same sameRegs discreet accesses)
            ⟨describes.toDescribes, disjoint, widths, mirrors, decoded ▸ fetched'⟩
        rw [guarded_own fetched, codeProgramStep_own fetched' noCall]
        simp only [Instr.divisible_same sameRegs discreet]
        split at own
        · next divisible =>
          rw [if_pos divisible]
          generalize codeStep _ _ _ _ _ = o at own ⊢
          cases own with
          | some same => exact .some (.mk (Instr.exec_same sameRegs agree discreet _ _) same waiting)
        · next undivisible =>
          rw [if_neg undivisible]
          generalize codeStep _ _ _ _ _ = o at own ⊢
          cases own
          exact .none
      | call disp =>
        obtain ⟨call, -⟩ := describes.callTransfers disp
        have evaluated := describes.callTarget disp u.address (next - u.address)
        rw [guarded_call fetched, codeProgramStep_call fetched' (decoded ▸ call) (decoded ▸ evaluated)]
        exact .some (.mk (.running (sameRegs.link next) agree) (.running mirrors) (.cons rfl waiting))
  | returned sameRegs agree =>
    cases same with
    | returned mirrors =>
      cases waiting with
      | nil => exact .none
      | cons here waiting =>
        obtain rfl := lawful _ rfl
        obtain rfl := here
        exact .some (.mk (.running sameRegs agree) (.running mirrors) waiting)

/-- Registers, apart from what is computed from return addresses; those of other classes are as at the
start. -/
structure Held (stats : RegisterStats) (regs₀ : Locals w) (t : Traced) (value : Register → Option APInt) :
    Prop where
  held : ∀ r : Reg, t.links.regs r = false → value r = some ⟨64, t.machine.state.x.val r⟩
  kept : ∀ r, 32 ≤ r → value r = registerValue stats regs₀ r

/-- The memory of the machine in the sections, apart from what is computed from return addresses. -/
def Stored (table : List BleachSection) (outside : World) (t : Traced) (world : World) : Prop :=
  ∃ mem, AgreeOff t.links.bytes t.machine.state.mem mem ∧ world = hostMemory table outside mem

/-- The lifted module has a frame for each call that has not returned. -/
structure ShownTraced (table : List BleachSection) (stats : RegisterStats) (regs₀ : Locals w)
    (outside : World) (t : Traced) (c : Config w World) : Prop where
  memory : Stored table outside t c.shared.world
  registers : match t.machine.state.place with
    | .returned _ => c.frames.length = t.machine.callers.length ∧
        Held stats regs₀ t (stateValue stats c.shared.slots)
    | .running _ => ∃ fr rest, c.frames = fr :: rest ∧ rest.length = t.machine.callers.length ∧
        Held stats regs₀ t (registerValue stats fr.locals)

/-- It has stopped with the same outcome. -/
structure EndedTraced (table : List BleachSection) (stats : RegisterStats) (regs₀ : Locals w)
    (outside : World) (t : Traced) (c : Config w World) : Prop where
  returned : (∃ target, t.machine.state.place = .returned target) ∧ t.machine.callers = [] ↔ c.frames = []
  registers : c.frames = [] → Held stats regs₀ t (stateValue stats c.shared.slots)
  memory : Stored table outside t c.shared.world

section
variable {stats : RegisterStats} {regs₀ regs : Locals w} {outside : World} {t : Traced}
  {c : CodeProgram w World} {conf : Config w World}

theorem Mirrors.held_off {x y : Registers} {mem : Memory Word} {place : Place} {callers : List Word}
    {L : Links} {value : Register → Option APInt} (mirrors : Mirrors stats regs₀ y regs)
    (same : x.AgreeOff L y) (values : ∀ r, value r = registerValue stats regs r) :
    Held stats regs₀ ⟨⟨⟨place, x, mem⟩, callers⟩, L⟩ value where
  held r fresh := by rw [values, mirrors.held, same r fresh]
  kept r outside := (values r).trans (mirrors.kept r outside)

theorem SameCalls.shown (same : SameCalls table stats regs₀ outside t c) (shown : ShownCalls stats c conf) :
    ShownTraced table stats regs₀ outside t conf := by
  obtain ⟨depth, world, registers⟩ := shown
  obtain @⟨s, s', L, c, callers, callers', off, same, waiting⟩ := same
  rw [← waiting.length_eq] at depth
  cases off with
  | running sameRegs agree =>
    cases same with
    | running mirrors =>
      obtain ⟨fr, rest, frames, values⟩ := registers
      rw [frames] at depth
      exact ⟨⟨_, agree, world⟩, fr, rest, frames, Nat.succ.inj depth, mirrors.held_off sameRegs values⟩
  | returned sameRegs agree =>
    cases same with
    | returned mirrors => exact ⟨⟨_, agree, world⟩, depth, mirrors.held_off sameRegs registers⟩

theorem SameCalls.ended (same : SameCalls table stats regs₀ outside t c) (ended : EndedCalls stats c conf) :
    EndedTraced table stats regs₀ outside t conf := by
  obtain ⟨returned, registers, world⟩ := ended
  obtain @⟨s, s', L, c, callers, callers', off, same, waiting⟩ := same
  have none : callers = [] ↔ callers' = [] := by
    rw [← List.length_eq_zero_iff, ← List.length_eq_zero_iff, waiting.length_eq]
  cases off with
  | running sameRegs agree =>
    cases same with
    | running mirrors =>
      have running : conf.frames ≠ [] := by simpa using returned
      exact ⟨by simpa using running, fun left => absurd left running, _, agree, world⟩
  | returned sameRegs agree =>
    cases same with
    | returned mirrors =>
      refine ⟨by simpa [none] using returned, fun left => ?_, _, agree, world⟩
      exact mirrors.held_off sameRegs (registers (returned.mpr left))

end

/-- A program of integer instructions and calls keeps on its way from its bytes to the lifted module what
it does on the architecture. As long as it accesses nothing but the sections, computes nothing but return
addresses from return addresses and returns behind its calls, to any depth, the module has a frame for each
call, and the same registers and memory apart from return addresses; it returns where the program returns,
and stops nowhere but where the program stops or divides as it may not. -/
theorem integer_programs_run {dis : MCDisassembler} {order : StartSort} {n : Nat} {sec : Section}
    {symbols : List Symbol} {tr : Translation} {addrs : FuncId → FunctionAddresses}
    {finfo : Option FileInfo} {stackSize : Nat} {liftedPrefix : String} {M : IRModule World}
    (describes : DescribesCalls mia opcodes code jal) (noJump : ∀ i ∈ others, i.name ≠ "C_J")
    (noCall : ∀ i ∈ others, i.name ≠ "JAL") (mapped : Mapped table)
    (disjoint : (context table others classes).stats.Disjoint)
    (disassembled : processDisassembly dis order n sec symbols = .ok funcs)
    (done : finalize mia funcs = .ok tr) (legal : ∀ d ∈ funcs, Legal dis n sec d)
    (plain : PlainCode mia displacement funcs) (program : IntegerProgram mia code jal funcs)
    (decodes : DecodesCalls code jal fetch (sec.fetch dis) funcs)
    (module : bleachModule (context table others classes)
      (tr.funcs.map (TranslatedFunction.toMachine opcodes)) addrs finfo stackSize liftedPrefix = .ok M)
    (found : funcs[k]? = some d) :
    ∃ blocks, M.erased.body k = some blocks ∧
      ∀ (x : Registers) (mem : Memory Word) (regs : Locals M.widths) (shared : Shared M.widths World),
        Agrees (gpr :: classes) regs shared.slots →
        (∀ r : Reg, registerValue (gpr :: classes) regs r = some ⟨64, x.val r⟩) →
        hostMemory table shared.world mem = shared.world →
        let start : Traced := ⟨⟨⟨.running d.start, x, mem⟩, []⟩, .none⟩
        Always (Lawful (inSection table) fetch) (guarded (DefinedCall fetch) (tracedStep fetch)) start →
          Exhibits (guarded (DefinedCall fetch) (tracedStep fetch)) M.erased.step
            (ShownTraced table (gpr :: classes) regs shared.world)
            (EndedTraced table (gpr :: classes) regs shared.world) start
            ⟨[M.erased.entryFrame k blocks], shared⟩ := by
  have whole : ProgramCode (context table others classes) mia opcodes displacement 2 funcs :=
    program.programCode describes noJump noCall disjoint
  obtain ⟨func, blocks, at_k, trans, widths, body, runs⟩ := whole.lifted_runs plain done disjoint module found
  have member := List.mem_of_getElem? found
  obtain ⟨first, head⟩ : ∃ first, d.insts.head? = some first :=
    ⟨_, List.head?_eq_some_head (program.nonempty d member)⟩
  have laid : ∀ d ∈ funcs, LaidOut (sec.fetch dis) d.insts := fun d member =>
    (processDisassembly_laidOut disassembled member (legal d member)).1
  have start := (processDisassembly_laidOut disassembled member (legal d member)).2 first head
  refine ⟨blocks, body, fun x mem regs shared agrees holds keeps => ?_⟩
  rw [← start]
  intro entry always
  have same : Lockstep (guarded (DefinedCall fetch) (tracedStep fetch))
      (programStep (context table others classes) (tr.funcs.map (TranslatedFunction.toMachine opcodes)))
      fun t g => ∃ c, (Always (Lawful (inSection table) fetch)
        (guarded (DefinedCall fetch) (tracedStep fetch)) t ∧
          SameCalls table (gpr :: classes) regs shared.world t c) ∧ CorrespondsCalling tr c g :=
    Lockstep.under (fun t c g here related => here.1.rel (call_step_same describes mapped disjoint widths
      program laid decodes here.1.now here.2 (related.inside whole plain done)))
      (program_lockstep whole plain done laid)
  have related : SameCalls table (gpr :: classes) regs shared.world entry
      ⟨⟨some first.address, regs, hostMemory table shared.world mem⟩, []⟩ :=
    .mk (.running (fun _ _ => rfl) fun _ _ => rfl) (.running ⟨holds, fun _ _ => rfl⟩) .nil
  rw [keeps] at related
  refine (runs regs shared agrees).before same
    ⟨_, ⟨always, related⟩, .mk at_k (trans.starts head regs shared.world) .nil⟩ ?_ ?_
  · rintro t g c ⟨code, ⟨-, same⟩, related⟩ shown
    exact same.shown (related.shown shown)
  · rintro t g c ⟨code, ⟨-, same⟩, related⟩ ended
    exact same.ended (related.ended ended)

/-- The opcode behind the others. -/
def jalNumber : Nat := opcodeTable.length

def programOpcodes (opcode : Nat) : InstrDesc := if opcode = jalNumber then JAL else rv64Opcodes opcode

def programTarget : MCInstrAnalysis :=
  { rv64Target with
    isCall := fun inst => inst.opcode == jalNumber || rv64Target.isCall inst
    evaluateBranch := fun inst addr size =>
      if inst.opcode = jalNumber then some (addr + displacement inst)
      else rv64Target.evaluateBranch inst addr size
    get := fun opcode => ⟨(programOpcodes opcode).numDefs, 3⟩ }

theorem numbering_ne (m : Mnemonic) : numbering m ≠ jalNumber := by
  intro same
  have found := opcodeTable_numbering m
  rw [same, jalNumber, List.getElem?_eq_none le_rfl] at found
  cases found

theorem programTarget_describes : DescribesCalls programTarget programOpcodes numbering jalNumber := by
  have describes := rv64Target_describes
  have desc : ∀ m, programOpcodes (numbering m) = m.desc := fun m =>
    (if_neg (numbering_ne m)).trans (describes.desc m)
  refine ⟨⟨desc, fun m => congrArg InstrDesc.numDefs (desc m), describes.isBranch,
    describes.isUnconditionalBranch, fun i => ?_, describes.isReturn, fun i addr size => ?_⟩, if_pos rfl,
    fun disp => ⟨rfl, rfl, rfl⟩, fun disp addr size => rfl⟩
  · have other : (i.toMCInst numbering).opcode ≠ jalNumber := numbering_ne _
    simp [programTarget, other, describes.isCall i]
  · have other : (i.toMCInst numbering).opcode ≠ jalNumber := numbering_ne _
    simp only [programTarget, other, if_false]
    exact describes.evaluateBranch i addr size

/-- A call goes as far as its displacement says, too. -/
theorem programTarget_evaluated {inst : MCInst} {addr target : Address} {size : BitVec 64}
    (evaluated : programTarget.evaluateBranch inst addr size = some target) :
    target = addr + displacement inst ∧
      (programTarget.isBranch inst = true ∨ programTarget.isCall inst = true) := by
  simp only [programTarget] at evaluated ⊢
  split at evaluated
  · next call =>
    cases evaluated
    exact ⟨rfl, .inr (by simp [call])⟩
  · obtain ⟨at_target, branch⟩ := rv64Target_evaluated evaluated
    exact ⟨at_target, .inl branch⟩

/-- The words the disassembler knows. -/
def decodeCallWord : BitVec 32 → Option CallInstr
  | 0x00143023 => some (.own (.store .SD 1 8 0))
  | 0x00C000EF => some (.call 12)
  | 0x00043083 => some (.own (.load .LD 1 8 0))
  | 0x00158593 => some (.own (.arithImm .ADDI 11 11 1))
  | 0x00008067 => some (.own .ret)
  | _ => none

def decodeCallBytes : List (BitVec 8) → Option CallInstr
  | b₀ :: b₁ :: b₂ :: b₃ :: _ => decodeCallWord (b₃ ++ b₂ ++ b₁ ++ b₀)
  | _ => none

def programDisassembler : MCDisassembler where
  getInstruction bytes _ := (decodeCallBytes bytes).map fun ci => (ci.toMCInst numbering jalNumber, 4)
  takes := by
    intro bytes addr inst size found
    obtain ⟨ci, decoded, same⟩ := Option.map_eq_some_iff.mp found
    cases same
    unfold decodeCallBytes at decoded
    split at decoded
    · simp
    · cases decoded

/-- `main` saves `x1` where `x8` points, and calls `leaf`. -/
def nestedSection : Section :=
  ⟨0x1000, [0x23, 0x30, 0x14, 0x00, 0xEF, 0x00, 0xC0, 0x00, 0x83, 0x30, 0x04, 0x00, 0x67, 0x80, 0x00, 0x00,
    0x93, 0x85, 0x15, 0x00, 0x67, 0x80, 0x00, 0x00], by decide⟩

def nestedSymbols : List Symbol :=
  [⟨some "main", some .function, some 0x1000, 16, some 0⟩,
    ⟨some "leaf", some .function, some 0x1010, 8, some 0⟩]

def callCode (addr : Address) (cis : List CallInstr) : List TranslatedInst :=
  cis.zipIdx.map fun (ci, i) => ⟨addr + 4 * BitVec.ofNat 64 i, ci.toMCInst numbering jalNumber⟩

def mainInstrs : List CallInstr :=
  [.own (.store .SD 1 8 0), .call 12, .own (.load .LD 1 8 0), .own .ret]

def leafInstrs : List CallInstr := [.own (.arithImm .ADDI 11 11 1), .own .ret]

def nested : List DecodedFunction :=
  [⟨"main", 0x1000, 0x1010, callCode 0x1000 mainInstrs⟩, ⟨"leaf", 0x1010, 0x1018, callCode 0x1010 leafInstrs⟩]

theorem nested_disassembled :
    processDisassembly programDisassembler startSort 0 nestedSection nestedSymbols = .ok nested := rfl

theorem nested_legal : ∀ d ∈ nested, Legal programDisassembler 0 nestedSection d := by
  simp only [nested, List.forall_mem_cons]
  exact ⟨.of_decoded rfl, .of_decoded rfl, by simp⟩

/-- What the machine fetches of the section. -/
def nestedFetch : CallFetch := fun addr =>
  if nestedSection.address ≤ addr then
    (decodeCallBytes (nestedSection.contents.drop (addr - nestedSection.address).toNat)).map fun ci =>
      (ci, addr + 4)
  else none

theorem call_toMCInst_injective : Function.Injective (CallInstr.toMCInst numbering jalNumber) := by
  intro ci cj same
  cases ci with
  | own i =>
    cases cj with
    | own j => exact congrArg CallInstr.own (toMCInst_injective same)
    | call disp => exact absurd (congrArg MCInst.opcode same) (numbering_ne _)
  | call disp =>
    cases cj with
    | own j => exact absurd (congrArg MCInst.opcode same).symm (numbering_ne _)
    | call disp' =>
      have operands := congrArg MCInst.operands same
      simpa [CallInstr.toMCInst] using operands

theorem nested_fetch (addr : Address) : nestedSection.fetch programDisassembler addr =
    (nestedFetch addr).map fun (ci, next) => (ci.toMCInst numbering jalNumber, next) := by
  unfold Section.fetch nestedFetch programDisassembler
  split
  · simp only [Option.map_map]
    rfl
  · rfl

theorem nested_decodes :
    DecodesCalls numbering jalNumber nestedFetch (nestedSection.fetch programDisassembler) nested := by
  intro d _ t _ ci decoded next fetched
  rw [nested_fetch, decoded] at fetched
  have encodes := call_toMCInst_injective.prodMap (Function.injective_id (α := Word))
  exact Option.map_injective encodes fetched

theorem nested_plain : PlainCode programTarget displacement nested where
  evaluated d member t inside addr size target evaluated := by
    have transfers : ∀ d ∈ nested, ∀ t ∈ d.insts,
        programTarget.isBranch t.inst = true ∨ programTarget.isCall t.inst = true →
          programTarget.isReturn t.inst = false := by decide
    obtain ⟨at_target, transfer⟩ := programTarget_evaluated evaluated
    exact ⟨at_target, transfer, transfers d member t inside transfer⟩
  direct d member t inside branch addr size := by
    have branch' : (rv64Opcodes t.inst.opcode).isBranch = true := branch
    simp only [programTarget, rv64Target, branch', if_true]
    split <;> rfl
  apart := by decide
  closed := by decide
  sorted := by decide
  inside := by decide
  disjoint := by decide

/-- The instructions of code written down in a row. -/
theorem allowed_of_row {funcs : List DecodedFunction} {first : Option Address} {addr : Address}
    {cis : List CallInstr}
    (allowed : ∀ p ∈ cis.zipIdx, p.1.Allowed funcs first (addr + 4 * BitVec.ofNat 64 p.2)) :
    ∀ t ∈ callCode addr cis, ∃ ci : CallInstr, t.inst = ci.toMCInst numbering jalNumber ∧
      ci.Allowed funcs first t.address := by
  intro t member
  obtain ⟨p, inside, rfl⟩ := List.mem_map.mp member
  exact ⟨p.1, rfl, allowed p inside⟩

theorem nested_program : IntegerProgram programTarget numbering jalNumber nested where
  nonempty := by decide
  instr := by
    simp only [nested, List.forall_mem_cons]
    exact ⟨allowed_of_row (by decide), allowed_of_row (by decide), by simp⟩
  ends := by
    simp only [nested, List.forall_mem_cons]
    refine ⟨?_, ?_, by simp⟩
    all_goals
      rintro _ ⟨⟩
      exact ⟨.ret, rfl, rfl⟩
  continues := by
    have chain : ∀ d ∈ nested, d.insts.IsChain fun t u =>
        programTarget.isCall t.inst = true → u.address ∉ leaders programTarget d.insts := by decide
    intro d member before t u after shape
    have chain := chain d member
    rw [shape, List.isChain_append_cons_cons, ← shape] at chain
    exact chain.2.1

/-- Where the return address is saved. -/
def saved : BleachSection := ⟨0x500000, 0x2000, 8⟩

theorem saved_mapped : Mapped [saved] := .single (by decide) (by decide) (by decide)

def nestedArguments (r : Nat) : Word := if r = 8 then 0x2000 else if r = 1 then 0x4000 else 0

abbrev nestedState (w : Nat → Nat) : Shared w World := holdingState nestedArguments [saved] (fun _ => 0) w

/-- `main` returns to where it was called from, behind a call that has left its own return address in
`x1`. -/
theorem nested_returns : ∃ tr M blocks, finalize programTarget nested = .ok tr ∧
    bleachModule (context [saved] [] []) (tr.funcs.map (TranslatedFunction.toMachine programOpcodes))
      (fun _ => none) none 64 "" = .ok M ∧ M.erased.body 0 = some blocks ∧
    ∃ c, Halts M.erased.step ⟨[M.erased.entryFrame 0 blocks], nestedState M.widths⟩ c ∧ c.frames = [] ∧
      stateValue [gpr] c.shared.slots 11 = some ⟨64, 1⟩ := by
  obtain ⟨tr, done⟩ : ∃ tr, finalize programTarget nested = .ok tr := ⟨_, rfl⟩
  obtain ⟨M, module⟩ : ∃ M, bleachModule (context [saved] [] [])
      (tr.funcs.map (TranslatedFunction.toMachine programOpcodes)) (fun _ => none) none 64 "" = .ok M := by
    cases done
    exact ⟨_, rfl⟩
  obtain ⟨_, _, -, lifted, -⟩ := lifted_of_bleachModule module
  have found : nested[0]? = some ⟨"main", 0x1000, 0x1010, callCode 0x1000 mainInstrs⟩ := rfl
  obtain ⟨blocks, body, runs⟩ := integer_programs_run programTarget_describes (by simp) (by simp) saved_mapped
    (by decide) nested_disassembled done nested_legal nested_plain nested_program nested_decodes module found
  refine ⟨tr, M, blocks, done, module, body, ?_⟩
  let x : Registers := ⟨fun r => nestedArguments r, rfl⟩
  let machine := guarded (DefinedCall nestedFetch) (tracedStep nestedFetch)
  let start : Traced := ⟨⟨⟨.running 0x1000, x, fun _ => 0⟩, []⟩, .none⟩
  have ends : ((iterate machine 7 start).map fun t => (t.machine.state.place, t.machine.callers,
      t.links.regs 11, t.machine.state.x.val 11)) = some (.returned 0x4000, [], false, 1) := by
    decide
  obtain ⟨⟨⟨⟨place, y, mem⟩, callers⟩, L⟩, path, same⟩ := Option.map_eq_some_iff.mp ends
  simp only [Prod.mk.injEq] at same
  obtain ⟨rfl, rfl, fresh, value⟩ := same
  -- Where a return goes is a register's value, worked out before it is compared.
  have leaf : (iterate machine 4 start).map (fun t => (t.machine.state.place, t.machine.callers)) =
      some (.returned 0x1008, [0x1008]) := by
    decide
  have each : ∀ m ≤ 7, ∀ t ∈ iterate machine m start, Lawful (inSection [saved]) nestedFetch t := by
    intro m bound
    match m, bound with
    | 0, _ => decide
    | 1, _ => decide
    | 2, _ => decide
    | 3, _ => decide
    | 4, _ =>
      intro t reached
      rw [Option.mem_def.mp reached] at leaf
      simp only [Option.map_some, Option.some.injEq, Prod.mk.injEq] at leaf
      simp [Lawful, leaf]
    | 5, _ => decide
    | 6, _ => decide
    | 7, _ =>
      intro t reached
      cases path.symm.trans reached
      simp [Lawful]
  have always : Always (Lawful (inSection [saved]) nestedFetch) machine start := .of_run path rfl each
  have keeps : hostMemory [saved] (nestedState M.widths).world (fun _ => 0) = (nestedState M.widths).world :=
    ByteMemory.kept_kept _ (fun _ => 0) (fun _ => 0) fun _ => 0
  have result := runs x (fun _ => 0) (holding nestedArguments M.widths) (nestedState M.widths)
    (holding_agrees _ _ _ _) (holding_held nestedArguments lifted.widths) keeps always
  obtain ⟨c, halts, ended⟩ := result.halts _ ⟨⟨7, path⟩, rfl⟩
  have left : c.frames = [] := ended.returned.mp ⟨⟨0x4000, rfl⟩, rfl⟩
  exact ⟨c, halts, left, ((ended.registers left).held 11 fresh).trans
    (congrArg (fun v => some (APInt.mk 64 v)) value)⟩

end Rv64
