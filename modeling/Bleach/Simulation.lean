import Bleach.Sublanguage
import Bleach.Lifter.Origins
import Bleach.CallProtocol

/-! Lifting preserves meaning. The lifted function runs through the places the
machine runs through, its local variables holding the registers; a folded jump is
the only machine instruction it takes no step for. -/
namespace Bleach
open Transition
variable {W : Type} {w : Nat → Nat} {cx : Context W} {mfs : List MachineFunction}
  {mf : MachineFunction} {addrs : FunctionAddresses} {adds : List Inst} {fin : Builder}
  {spReg : Register} {b i : Nat} {mbb : MachineBasicBlock} {minst : MachineInstr} {s : Site}
  {st st' : Builder} {M : IRModule W}

/-- Every register has the same value in both. -/
def SameCells (stats : RegisterStats) (regs locals : Locals w) : Prop :=
  ∀ t ∈ transfers stats, locals t.cell = regs t.cell

theorem SameCells.registerValue_eq {regs locals : Locals w} (same : SameCells stats regs locals)
    (r : Register) : registerValue stats locals r = registerValue stats regs r := by
  unfold registerValue
  cases found : (registerMap stats).find r with
  | none => rfl
  | some c =>
    obtain ⟨t, member, rfl⟩ := transfer_of_find found
    rw [Option.map_some, same t member, Option.map_some]

theorem SameCells.argumentValue_eq {regs locals : Locals w} (same : SameCells cx.stats regs locals)
    (op : MachineOperand) : argumentValue cx locals op = argumentValue cx regs op := by
  cases op <;> simp only [argumentValue, same.registerValue_eq]

theorem SameCells.writeRegister {regs locals : Locals w} (same : SameCells cx.stats regs locals)
    (r : Register) (v : APInt) :
    SameCells cx.stats (writeRegister cx regs r v) (writeRegister cx locals r v) := by
  intro t member
  unfold Bleach.writeRegister
  cases cx.rmap.find r with
  | none => exact same t member
  | some c =>
    by_cases here : t.cell = c
    · subst here
      simp
    · simp [here, same t member]

theorem SameCells.writeResult {regs locals : Locals w} (same : SameCells cx.stats regs locals)
    (minst : MachineInstr) (v : APInt) :
    SameCells cx.stats (writeResult cx regs minst v) (writeResult cx locals minst v) := by
  unfold Bleach.writeResult
  generalize minst.defs.filterMap MachineOperand.reg? = defs
  induction defs generalizing regs locals with
  | nil => exact same
  | cons r rest ih => exact ih (same.writeRegister r v)

/-- Inputs of the sublanguage have values of 64 bits. -/
theorem word_value (widths : w = cx.stats.widths) (locals : Locals w) {op : MachineOperand}
    (word : WordOperand cx op) : ∃ v, argumentValue cx locals op = some v ∧ v.width = 64 := by
  cases word with
  | imm => exact ⟨_, rfl, rfl⟩
  | constant constant =>
    obtain ⟨k, found⟩ := Option.isSome_iff_exists.mp constant
    exact ⟨.ofInt 64 k.value, by simp [argumentValue, found], rfl⟩
  | @register r word =>
    obtain ⟨c, found, wide⟩ := word
    cases constant : cx.instrs.constReg? cx.tm r with
    | some k => exact ⟨.ofInt 64 k.value, by simp [argumentValue, constant], rfl⟩
    | none =>
      have bound : (registerMap cx.stats).find r = some c := found
      exact ⟨⟨w c.cls, locals c⟩, by simp [argumentValue, constant, registerValue, bound], widths ▸ wide⟩

theorem word_values (widths : w = cx.stats.widths) (locals : Locals w) {ops : List MachineOperand}
    (words : ∀ op ∈ ops, WordOperand cx op) :
    ∃ vs : List APInt, ops.map (argumentValue cx locals) = vs.map some ∧
      vs.map APInt.width = List.replicate ops.length 64 := by
  induction ops with
  | nil => exact ⟨[], rfl, rfl⟩
  | cons op rest ih =>
    obtain ⟨word, others⟩ := List.forall_mem_cons.mp words
    obtain ⟨v, value, wide⟩ := word_value widths locals word
    obtain ⟨vs, values, wides⟩ := ih others
    exact ⟨v :: vs, by simp [value, values], by simp [wide, wides, List.replicate_succ]⟩

/-- The call of an instruction function computes the result of the instruction. -/
theorem exec_call (getFunction : M.getFunction = cx.instrs.getFunction) {f : InstrFunction W}
    (function : cx.instrs.getFunction minst.desc.name = some f) {args : List Value} {vs : List APInt}
    {d : Data M.widths W} (locals : Locals M.widths)
    (inputs : minst.inputs.map (argumentValue cx locals) = vs.map some)
    (values : args.map (evalInt d.env) = vs.map some) (params : f.params = vs.map APInt.width)
    (id : ValueId) :
    match minst.result cx locals d.shared.world with
    | some (v, world) => v.width = f.ret ∧ ∃ d', execInst M d (.callInstr id minst.desc.name args) = some d' ∧
        d'.locals = d.locals ∧ d'.shared.world = world ∧ d'.shared.slots = d.shared.slots ∧
        (f.ret ≠ 0 → d'.env id = some (.int v))
    | none => execInst M d (.callInstr id minst.desc.name args) = none := by
  simp only [MachineInstr.result, function, mapM_of_map inputs, Option.bind_eq_bind, Option.bind_some,
    execInst, getFunction, mapM_of_map values, params, if_true]
  cases f.eval vs d.shared.world with
  | none => rfl
  | some result =>
    obtain ⟨r, world⟩ := result
    refine ⟨rfl, _, rfl, ?_⟩
    split_ifs with void
    · exact ⟨rfl, rfl, rfl, fun has => absurd void has⟩
    · exact ⟨rfl, rfl, rfl, fun _ => Function.update_self ..⟩

theorem overwrite_word {n : Nat} (old : BitVec n) {v : APInt} (full : v.width = n) :
    overwrite old v = some (v.bits.setWidth n) := by
  obtain ⟨width, bits⟩ := v
  subst full
  simp

theorem exec_writeRegister (sub : ProgramFunction cx mf spReg) (widths : M.widths = cx.stats.widths)
    {r : Register} (word : Word cx r) {val : Value} {code : List Inst}
    (done : writeValueToRegister cx val r = .ok code) {v : APInt} (wide : v.width = 64)
    {d : Data M.widths W} (value : evalInt d.env val = some v) :
    execCode M code d = some { d with locals := writeRegister cx d.locals r v } := by
  obtain ⟨c, found, width⟩ := word
  rw [← widths] at width
  obtain ⟨c', address, done⟩ := bind_ok.mp done
  obtain rfl := Option.some.inj (found.symm.trans (regAddr_ok address))
  obtain ⟨vals, constants, done⟩ := bind_ok.mp done
  obtain ⟨rclass, classed, done⟩ := bind_ok.mp done
  have bits := width_of_find widths found (getRegisterClassFor_ok classed)
  cases constant : cx.instrs.constReg? cx.tm r with
  | none =>
    obtain rfl := Except.ok.inj (constant ▸ done)
    simp [execCode, execInst, value, storePtr, overwrite_word _ (wide.trans width.symm), writeRegister,
      found, writtenValue, constant]
  | some k =>
    have recorded := constRegsVals_lookup constants constant (sub.named constant)
    simp only [constant, recorded] at done
    obtain rfl := Except.ok.inj done
    have written : overwrite (d.locals c) (.ofInt (M.widths c.cls) k.value) =
        some (.ofInt (M.widths c.cls) k.value) := overwrite_full ..
    simp only [execCode, execInst, evalInt, evalValue, storePtr, ← bits, written, writeRegister, found,
      writtenValue, constant, Option.bind_eq_bind, Option.bind_some]

theorem exec_writeDefs (sub : ProgramFunction cx mf spReg) (widths : M.widths = cx.stats.widths)
    {defs : List MachineOperand} {val : Value} {v : APInt}
    (words : ∀ op ∈ defs, v.width = 64 ∧ ∃ r isDef isImplicit, op = .reg r isDef isImplicit ∧ Word cx r)
    {code : List Inst} (done : writeDefs cx val defs = .ok code) {d : Data M.widths W}
    (value : defs ≠ [] → evalInt d.env val = some v) :
    execCode M code d = some { d with locals :=
      (defs.filterMap MachineOperand.reg?).foldl (fun regs r => writeRegister cx regs r v) d.locals } := by
  induction defs generalizing code d with
  | nil =>
    cases done
    rfl
  | cons op rest ih =>
    obtain ⟨⟨wide, r, isDef, isImplicit, rfl, word⟩, others⟩ := List.forall_mem_cons.mp words
    obtain ⟨first, write, done⟩ := bind_ok.mp done
    obtain ⟨later, writes, done⟩ := bind_ok.mp done
    cases done
    have value := value (List.cons_ne_nil _ _)
    rw [execCode_append, exec_writeRegister sub widths word write wide value, Option.bind_some]
    exact ih others writes fun _ => value

/-- Behind a conditional branch of the sublanguage stands a jump that ends the block. -/
theorem ProgramFunction.behind_branch (sub : ProgramFunction cx mf spReg) {next : MachineInstr}
    (block : mf.blocks[b]? = some mbb) (here : mbb[i]? = some minst)
    (conditional : minst.isConditionalBranch = true) (after : mbb[i + 1]? = some next) :
    dispatch cx minst ∅ = .branch ∧ (∃ t, Jump cx mf next t) ∧ i + 2 = mbb.length := by
  have inside := (List.getElem?_eq_some_iff.mp after).1
  cases sub.instr block here with
  | own instr =>
    cases instr with
    | generic path function inputs params output absolute straight ending =>
      simp [MachineInstr.isConditionalBranch, straight] at conditional
    | ret returns noCall last => omega
    | jump jump last => omega
    | branch branches noReturn direct function params output noDefs operands left right target ending =>
      obtain ⟨last, -⟩ | ⟨next', t, found, jump, last⟩ := ending
      · omega
      · obtain rfl := Option.some.inj (after.symm.trans found)
        exact ⟨dispatch_conditional branches noReturn direct (by simp [operands, MachineOperand.isMBB]) ∅,
          ⟨t, jump⟩, last⟩
  | call direct operand straight => simp [MachineInstr.isConditionalBranch, straight] at conditional
  | tail direct operand jumps last => omega

theorem ProgramFunction.wellShaped (sub : ProgramFunction cx mf spReg) : WellShaped cx mf := by
  refine ⟨fun block here conditional inside => ?_, fun block here conditional after _ => ?_,
    fun block here conditional after other => ?_⟩
  · exact (sub.behind_branch block here conditional (List.getElem?_eq_getElem inside)).1
  · obtain ⟨-, ⟨t, jump⟩, last⟩ := sub.behind_branch block here conditional after
    exact ⟨jump.dispatch_eq ∅, last⟩
  · obtain ⟨-, ⟨t, jump⟩, -⟩ := sub.behind_branch block here conditional after
    simp [jump.jumps] at other

/-- Only a folded jump stands behind a branch, so that everything else is lifted into
the own IR block. -/
theorem ProgramFunction.cur_eq (sub : ProgramFunction cx mf spReg)
    (whole : finalBuilder cx mf addrs = .ok fin) (block : mf.blocks[b]? = some mbb) (here : mbb[i]? = some minst)
    (unfolded : ¬Folded cx mbb i minst) (builder : builderAt cx mf addrs b i = .ok st) :
    st.cur = .mbb b := by
  have bound := (List.getElem?_eq_some_iff.mp here).1
  obtain ⟨cur, -⟩ | ⟨branched, -⟩ := (origins whole block bound.le builder).cur block
  · exact cur
  · refine absurd (fun j before branch found path => ?_) branched
    obtain ⟨-, -, conditional⟩ := dispatch_branch path
    have inside : j + 1 < mbb.length := by omega
    obtain ⟨-, ⟨t, jump⟩, last⟩ := sub.behind_branch block found conditional
      (List.getElem?_eq_getElem inside)
    obtain rfl : i = j + 1 := by omega
    obtain rfl := Option.some.inj (here.symm.trans (List.getElem?_eq_getElem inside))
    exact unfolded ⟨jump.dispatch_eq ∅, j, branch, rfl, found, conditional⟩

/-- The lifted function stands in front of the code of the instruction or, if the
branch in front of it has taken its jump over, where that leads. -/
inductive Meets (cx : Context W) (mf : MachineFunction) (addrs : FunctionAddresses) (adds : List Inst)
    (fin : Builder) (b i : Nat) (mbb : MachineBasicBlock) (minst : MachineInstr) :
    Label → List Inst → Prop where
  | own {st : Builder} (unfolded : ¬Folded cx mbb i minst) (builder : builderAt cx mf addrs b i = .ok st) :
      Meets cx mf addrs adds fin b i mbb minst (.mbb b) (codeAt cx fin st)
  | folded {t} (folded : Folded cx mbb i minst) (jump : Jump cx mf minst t) :
      Meets cx mf addrs adds fin b i mbb minst (.mbb t) (liftedBody cx adds fin (.mbb t))

/-- The lifted function is where the machine is, with the same registers and the same
world. -/
inductive Tracks (cx : Context W) (mf : MachineFunction) (addrs : FunctionAddresses) (adds : List Inst)
    (fin : Builder) (f : FuncId) : Guest w W → Config w W → Prop where
  | inside {b i : Nat} {mbb : MachineBasicBlock} {minst : MachineInstr} {l code regs env locals shared}
      (block : mf.blocks[b]? = some mbb) (here : mbb[i]? = some minst)
      (meets : Meets cx mf addrs adds fin b i mbb minst l code)
      (same : SameCells cx.stats regs locals) :
      Tracks cx mf addrs adds fin f ⟨some (b, i), regs, shared.world⟩
        ⟨[⟨f, l, code, env, locals⟩], shared⟩
  | returned {regs shared} (same : Agrees cx.stats regs shared.slots) :
      Tracks cx mf addrs adds fin f ⟨none, regs, shared.world⟩ ⟨[], shared⟩

/-- The loads of the inputs. -/
theorem exec_inputs (widths : M.widths = cx.stats.widths)
    (words : ∀ op ∈ minst.inputs, WordOperand cx op) {loads : List Inst} {args : List Value}
    (operands : Operands cx s minst.inputs loads args) (d : Data M.widths W) :
    ∃ (vs : List APInt) (d' : Data M.widths W),
      minst.inputs.map (argumentValue cx d.locals) = vs.map some ∧
      vs.map APInt.width = List.replicate minst.inputs.length 64 ∧
      execCode M loads d = some d' ∧ d'.locals = d.locals ∧ d'.shared = d.shared ∧
      args.map (evalInt d'.env) = vs.map some ∧
      ∀ v ∈ args, ∀ n, v ≠ .ssa (.cast s.block s.idx n) := by
  obtain ⟨vals, values, required⟩ := operands
  obtain rfl := required_values required
  obtain ⟨vs, known, wide⟩ := word_values widths d.locals words
  obtain ⟨d', run, loaded⟩ := exec_operands widths values d
  obtain ⟨evaluated, own⟩ := loaded.arguments
  exact ⟨vs, d', known, wide, run, loaded.locals, loaded.shared, evaluated.trans known, own⟩

/-- The code up to an instruction function runs, and the function is either called or
stuck, on the machine and in the lifted function. -/
theorem run_call (getFunction : M.getFunction = cx.instrs.getFunction) {f : InstrFunction W}
    (function : cx.instrs.getFunction minst.desc.name = some f) {regs : Locals M.widths}
    {args : List Value} {vs : List APInt} (inputs : minst.inputs.map (argumentValue cx regs) = vs.map some)
    (params : f.params = vs.map APInt.width) {fr : Frame M.widths} {shared : Shared M.widths W}
    {first later : List Inst} {id : ValueId}
    (code : fr.code = first ++ .callInstr id minst.desc.name args :: later)
    {d : Data M.widths W} (prepared : execCode M first (fr.data shared) = some d)
    (locals : d.locals = fr.locals) (same : d.shared = shared)
    (values : args.map (evalInt d.env) = vs.map some) :
    match minst.result cx regs shared.world with
    | some (v, world) => v.width = f.ret ∧ ∃ env shared',
        Advances M.step ⟨[fr], shared⟩ ⟨[⟨fr.func, fr.label, later, env, fr.locals⟩], shared'⟩ ∧
        shared'.world = world ∧ (f.ret ≠ 0 → env id = some (.int v))
    | none => ∃ c, Halts M.step ⟨[fr], shared⟩ c ∧ c.frames ≠ [] ∧ c.shared.world = shared.world := by
  subst same
  have call := exec_call getFunction function regs inputs values params id
  have path := IRModule.run_plain [] code prepared
  cases result : minst.result cx regs d.shared.world with
  | none =>
    simp only [result] at call ⊢
    have stuck : execInst M (({ fr with code := .callInstr id minst.desc.name args :: later } :
        Frame M.widths).withData d |>.data d.shared) (.callInstr id minst.desc.name args) = none := call
    refine ⟨_, ⟨⟨_, path⟩, ?_⟩, List.cons_ne_nil _ _, rfl⟩
    simp only [IRModule.step, Frame.withData, Option.bind_eq_bind] at stuck ⊢
    rw [stuck, Option.bind_none]
  | some outcome =>
    obtain ⟨v, world⟩ := outcome
    simp only [result] at call ⊢
    obtain ⟨width, d', run, kept, world', -, bound⟩ := call
    refine ⟨width, d'.env, d'.shared, .snoc ⟨_, path⟩ ?_, world', bound⟩
    rw [IRModule.step_plain rfl run, ← locals, ← kept]
    rfl

theorem generic_code {code : List Inst} (lifting : InstrLifting cx mf addrs fin b mbb i minst st st' code)
    (path : dispatch cx minst st.sptrack = .generic) (absolute : isPcRelative cx minst = false)
    (cur : st.cur = .mbb b) : ∃ f loads args writes,
      cx.instrs.getFunction minst.desc.name = some f ∧
      Operands cx (mf.site b mbb i) (minst.uses.filter MachineOperand.isArgument) loads args ∧
      writeDefs cx (.ssa (.result b i)) minst.defs = .ok writes ∧ st'.cur = .mbb b ∧
      codeAt cx fin st = (loads ++ (castArgs (mf.site b mbb i) args f.params 0).1) ++
        .callInstr (.result b i) minst.desc.name (castArgs (mf.site b mbb i) args f.params 0).2 ::
          (writes ++ codeAt cx fin st') := by
  obtain ⟨addr, generated⟩ := lifting.generated
  rw [generateInstruction_eq, path] at generated
  obtain ⟨_, -, generated⟩ := bind_ok.mp generated
  obtain ⟨_, -, generated⟩ := bind_ok.mp generated
  obtain ⟨f, loads, args, pc, writes, function, operands, counter, written, emitted⟩ :=
    generateGeneric_ok generated
  obtain rfl : pc = [] := by simpa [pcArgument, absolute] using counter.symm
  rw [List.append_nil] at emitted
  obtain ⟨vals, values, required⟩ := operands
  have plain := plain_operands values
  have own : st.cur = (mf.site b mbb i).label := cur
  have stays : st'.cur = st.cur := by rw [emitted]; rfl
  have appends := appends_loads plain fun l => congrFun (congrArg Builder.blocks emitted) l
  rw [if_pos own] at appends
  have code := codeAt_next cx appends lifting.rest stays
    (plain.append ((plain_castArgs _ _ _ _).append (.cons rfl (plain_writeDefs written)))).noRet
  refine ⟨f, loads, args, writes, function, ⟨vals, values, required⟩, written, stays.trans cur, ?_⟩
  rw [code]
  simp only [List.append_assoc, List.cons_append]
  rfl

theorem branch_code {code : List Inst} (lifting : InstrLifting cx mf addrs fin b mbb i minst st st' code)
    (path : dispatch cx minst st.sptrack = .branch) (cur : st.cur = .mbb b) : ∃ f loads args t later,
      cx.instrs.getFunction minst.desc.name = some f ∧
      Operands cx (mf.site b mbb i) (minst.uses.filter (!·.isMBB)) loads args ∧
      (minst.operands[2]?).bind MachineOperand.mbb? = some t ∧ IfFalse (mf.site b mbb i) st'.cur ∧
      codeAt cx fin st = loads ++ .callInstr (.result b i) minst.desc.name args ::
        .condBr (.ssa (.result b i)) (.mbb t) st'.cur :: later := by
  obtain ⟨addr, generated⟩ := lifting.generated
  rw [generateInstruction_eq, path] at generated
  obtain ⟨f, loads, args, t, ifFalse, function, operands, target, -, untaken, emitted⟩ :=
    generateBranch_ok generated
  obtain rfl : st'.cur = ifFalse := by rw [emitted]
  obtain ⟨vals, values, required⟩ := operands
  have plain := plain_operands values
  have own : st.cur = (mf.site b mbb i).label := cur
  have appends := appends_loads plain fun l => congrFun (congrArg Builder.blocks emitted) l
  rw [if_pos own] at appends
  have code := codeAt_appends cx appends lifting.rest
  rw [List.append_assoc, saveRegistersBeforeReturn_append _ plain.noRet, List.cons_append,
    saveRegistersBeforeReturn_cons _ (by simp), List.cons_append,
    saveRegistersBeforeReturn_cons _ (by simp)] at code
  exact ⟨f, loads, args, t, _, findFunction_ok function, ⟨vals, values, required⟩, target, untaken, code⟩

/-- A function in the module it is lifted into. -/
structure Housed (cx : Context W) (mfs : List MachineFunction) (addrs : FuncId → FunctionAddresses)
    (adds : List Inst) (M : IRModule W) (f : FuncId) (mf : MachineFunction) (fin : Builder)
    (spReg : Register) : Prop where
  lifted : Lifted cx mfs addrs adds M
  disjoint : cx.stats.Disjoint
  whole : finalBuilder cx mf (addrs f) = .ok fin
  body : M.body f = some (liftedBody cx adds fin)
  sub : ProgramFunction cx mf spReg

namespace Housed
variable {addrs : FuncId → FunctionAddresses} {f : FuncId} {regs locals : Locals M.widths}

theorem tracks_target (host : Housed cx mfs addrs adds M f mf fin spReg) {t : BlockId}
    (target : Target mf t) (same : SameCells cx.stats regs locals) (env : Env)
    (shared : Shared M.widths W) :
    Tracks cx mf (addrs f) adds fin f ⟨some (t, 0), regs, shared.world⟩
      ⟨[⟨f, .mbb t, liftedBody cx adds fin (.mbb t), env, locals⟩], shared⟩ := by
  obtain ⟨pos, inside⟩ := target
  have block := List.getElem?_eq_getElem inside
  have nonempty := host.sub.nonempty _ (List.mem_of_getElem? block)
  obtain ⟨st, builder, -, code⟩ := later_start host.sub.wellShaped host.whole adds block pos
  rw [code]
  refine .inside block (List.getElem?_eq_getElem (List.length_pos_of_ne_nil nonempty)) (.own ?_ builder) same
  rintro ⟨-, j, prev, first, -⟩
  cases first

/-- Behind an instruction that transfers no control. -/
theorem runs_next (host : Housed cx mfs addrs adds M f mf fin spReg) (block : mf.blocks[b]? = some mbb)
    (here : mbb[i]? = some minst) (straight : minst.isConditionalBranch = false)
    (open_ : isBranch minst = false ∧ isReturn cx minst = false ∧ isCall minst = false)
    (builder : builderAt cx mf (addrs f) b (i + 1) = .ok st')
    (same : SameCells cx.stats regs locals) (env : Env) (shared : Shared M.widths W) :
    ∃ c', Reaches M.step ⟨[⟨f, .mbb b, codeAt cx fin st', env, locals⟩], shared⟩ c' ∧
      Tracks cx mf (addrs f) adds fin f ⟨some (fallthrough mbb b i), regs, shared.world⟩ c' := by
  have bound := (List.getElem?_eq_some_iff.mp here).1
  unfold fallthrough
  split_ifs with inside
  · refine ⟨_, .refl _, .inside block (List.getElem?_eq_getElem inside) (.own ?_ builder) same⟩
    rintro ⟨-, j, prev, next, found, conditional⟩
    obtain rfl := Nat.succ.inj next
    obtain rfl := Option.some.inj (here.symm.trans found)
    simp [straight] at conditional
  · have last : i + 1 = mbb.length := by omega
    obtain ⟨branch, ret, call⟩ := open_
    rw [last] at builder
    obtain ⟨call', -⟩ | ⟨-, bound, rest, code⟩ :=
      codeAt_end host.whole block (getLast?_of_end here last) builder branch ret
    · simp [call] at call'
    · exact ⟨_, .single (IRModule.step_br code host.body),
        host.tracks_target ⟨Nat.succ_pos b, bound⟩ same env shared⟩

/-- A generic instruction. -/
theorem generic_runs (host : Housed cx mfs addrs adds M f mf fin spReg) (block : mf.blocks[b]? = some mbb)
    (here : mbb[i]? = some minst) (builder : builderAt cx mf (addrs f) b i = .ok st)
    (cur : st.cur = .mbb b) (path : dispatch cx minst st.sptrack = .generic)
    {fn : InstrFunction W} (function : cx.instrs.getFunction minst.desc.name = some fn)
    (words : ∀ op ∈ minst.uses, op.isArgument = true → WordOperand cx op)
    (params : fn.params = List.replicate minst.inputs.length 64)
    (output : ∀ op ∈ minst.defs, fn.ret = 64 ∧ ∃ r isDef isImplicit, op = .reg r isDef isImplicit ∧
      Word cx r)
    (absolute : isPcRelative cx minst = false) (straight : minst.desc.isBranch = false)
    (same : SameCells cx.stats regs locals) (env : Env) (shared : Shared M.widths W) :
    match minst.result cx regs shared.world with
    | some (v, world) => ∃ c',
        Advances M.step ⟨[⟨f, .mbb b, codeAt cx fin st, env, locals⟩], shared⟩ c' ∧
        Tracks cx mf (addrs f) adds fin f
          ⟨some (fallthrough mbb b i), writeResult cx regs minst v, world⟩ c'
    | none => ∃ c', Halts M.step ⟨[⟨f, .mbb b, codeAt cx fin st, env, locals⟩], shared⟩ c' ∧
        c'.frames ≠ [] ∧ c'.shared.world = shared.world := by
  obtain ⟨st₁, st', chunk, lifting⟩ := instrLifting host.whole block here
  obtain rfl := Except.ok.inj (lifting.builder.symm.trans builder)
  obtain ⟨fn', loads, args, writes, function', operands, written, cur', code⟩ :=
    generic_code lifting path absolute cur
  obtain rfl := Option.some.inj (function.symm.trans function')
  have inputs : minst.uses.filter MachineOperand.isArgument = minst.inputs := by
    refine (List.filter_eq_self.mpr fun op member => ?_).symm
    obtain ⟨used, argument⟩ := List.mem_filter.mp member
    cases words op used argument <;> rfl
  rw [inputs] at operands
  have words : ∀ op ∈ minst.inputs, WordOperand cx op := by
    intro op member
    obtain ⟨used, argument⟩ := List.mem_filter.mp (inputs ▸ member)
    exact words op used argument
  obtain ⟨vs, d, known, wide, run, kept, unshared, evaluated, own⟩ :=
    exec_inputs host.lifted.widths words operands ⟨env, locals, shared⟩
  obtain ⟨d', casts, kept', unshared', -, casted⟩ := exec_castArgs fn.params 0 evaluated own
  rw [← wide] at params
  have unchanged : List.zipWith APInt.sextOrTrunc vs fn.params = vs := by
    rw [params, zipWith_sextOrTrunc_width]
  rw [unchanged] at casted
  have prepared : execCode M (loads ++ (castArgs (mf.site b mbb i) args fn.params 0).1)
      ⟨env, locals, shared⟩ = some d' := by
    rw [execCode_append, run, Option.bind_some, casts]
  have inputs : minst.inputs.map (argumentValue cx regs) = vs.map some := by
    rw [← known]
    exact List.map_congr_left fun op _ => (same.argumentValue_eq op).symm
  let fr : Frame M.widths := ⟨f, .mbb b, codeAt cx fin st₁, env, locals⟩
  have at_ : fr.code = _ := code
  have called := run_call host.lifted.getFunction function inputs params at_ prepared (kept'.trans kept)
    (unshared'.trans unshared) casted
  cases result : minst.result cx regs shared.world with
  | none =>
    simp only [result] at called
    exact called
  | some outcome =>
    obtain ⟨v, world⟩ := outcome
    simp only [result] at called
    obtain ⟨width, env', shared', path', rfl, bound⟩ := called
    have value : minst.defs ≠ [] → evalInt env' (.ssa (.result b i)) = some v := by
      intro defines
      obtain ⟨op, member⟩ := List.exists_mem_of_ne_nil _ defines
      have bound := bound (by rw [(output op member).1]; decide)
      simp [evalInt, evalValue, bound]
    have stores := exec_writeDefs host.sub host.lifted.widths
      (fun op member => ⟨width.trans (output op member).1, (output op member).2⟩) written
      (d := ⟨env', locals, shared'⟩) value
    let behind : Frame M.widths := ⟨f, .mbb b, writes ++ codeAt cx fin st', env', locals⟩
    have at_ : behind.code = writes ++ codeAt cx fin st' := rfl
    have stored := IRModule.run_plain [] at_ stores
    have other : dispatch cx minst st₁.sptrack ∉ [.ret, .indirect, .jump, .branch, .call] := by
      simp [path]
    have conditional : minst.isConditionalBranch = false := by
      simp [MachineInstr.isConditionalBranch, straight]
    obtain ⟨ret, branch, call⟩ := no_transfer other
    obtain ⟨c', rest, tracks⟩ :=
      host.runs_next block here conditional ⟨branch, ret, call⟩ lifting.next
      (same.writeResult minst v) env' shared'
    exact ⟨c', path'.trans (Reaches.trans ⟨_, stored⟩ rest), tracks⟩

/-- Where a conditional branch goes that is not taken. -/
theorem tracks_untaken (host : Housed cx mfs addrs adds M f mf fin spReg) (block : mf.blocks[b]? = some mbb)
    (here : mbb[i]? = some minst) (conditional : minst.isConditionalBranch = true)
    (ending : i + 1 = mbb.length ∧ b + 1 < mf.blocks.length ∨
      ∃ next t, mbb[i + 1]? = some next ∧ Jump cx mf next t ∧ i + 2 = mbb.length)
    {l : Label} (untaken : IfFalse (mf.site b mbb i) l) (same : SameCells cx.stats regs locals) (env : Env)
    (shared : Shared M.widths W) :
    Tracks cx mf (addrs f) adds fin f ⟨some (fallthrough mbb b i), regs, shared.world⟩
      ⟨[⟨f, l, liftedBody cx adds fin l, env, locals⟩], shared⟩ := by
  obtain ⟨last, after⟩ | ⟨next, t, found, jump, last⟩ := ending
  · have none : (mf.site b mbb i).next = none := List.getElem?_eq_none_iff.mpr last.ge
    have moves : fallthrough mbb b i = (b + 1, 0) := if_neg (by omega)
    rw [moves]
    cases untaken with
    | folded next t found => simp [none] at found
    | split next found => simp [none] at found
    | fallthrough => exact host.tracks_target ⟨Nat.succ_pos b, after⟩ same env shared
  · have moves : fallthrough mbb b i = (b, i + 1) := if_pos (by omega)
    have after : (mf.site b mbb i).next = some next := found
    rw [moves]
    cases untaken with
    | folded next' t' found' unconditional operand bound =>
      obtain rfl := Option.some.inj (after.symm.trans found')
      obtain rfl : t = t' := by simpa [jump.operand, MachineOperand.mbb?] using operand
      exact .inside block found (.folded ⟨jump.dispatch_eq ∅, i, minst, rfl, here, conditional⟩ jump) same
    | split next' found' other =>
      obtain rfl := Option.some.inj (after.symm.trans found')
      simp [jump.jumps] at other
    | fallthrough none => simp [after] at none

/-- A conditional branch. -/
theorem branch_runs (host : Housed cx mfs addrs adds M f mf fin spReg) (block : mf.blocks[b]? = some mbb)
    (here : mbb[i]? = some minst) (builder : builderAt cx mf (addrs f) b i = .ok st)
    (cur : st.cur = .mbb b) (branches : minst.isConditionalBranch = true)
    (path : dispatch cx minst st.sptrack = .branch)
    {fn : InstrFunction W} (function : cx.instrs.getFunction minst.desc.name = some fn)
    (params : fn.params = [64, 64]) (output : fn.ret = 1) (noDefs : minst.desc.numDefs = 0)
    {r r' : Register} {t : BlockId}
    (operands : minst.operands = [.reg r false false, .reg r' false false, .mbb t])
    (left : WordOperand cx (.reg r false false)) (right : WordOperand cx (.reg r' false false))
    (target : Target mf t)
    (ending : i + 1 = mbb.length ∧ b + 1 < mf.blocks.length ∨
      ∃ next t, mbb[i + 1]? = some next ∧ Jump cx mf next t ∧ i + 2 = mbb.length)
    (same : SameCells cx.stats regs locals) (env : Env) (shared : Shared M.widths W) :
    match minst.result cx regs shared.world with
    | some (v, world) => ∃ c',
        Advances M.step ⟨[⟨f, .mbb b, codeAt cx fin st, env, locals⟩], shared⟩ c' ∧
        Tracks cx mf (addrs f) adds fin f
          ⟨some (if v.bits.toNat = 1 then (t, 0) else fallthrough mbb b i), regs, world⟩ c'
    | none => ∃ c', Halts M.step ⟨[⟨f, .mbb b, codeAt cx fin st, env, locals⟩], shared⟩ c' ∧
        c'.frames ≠ [] ∧ c'.shared.world = shared.world := by
  obtain ⟨st₁, st', chunk, lifting⟩ := instrLifting host.whole block here
  obtain rfl := Except.ok.inj (lifting.builder.symm.trans builder)
  obtain ⟨fn', loads, args, t', later, function', values, operand, untaken, code⟩ :=
    branch_code lifting path cur
  obtain rfl := Option.some.inj (function.symm.trans function')
  obtain rfl : t = t' := by simpa [operands, MachineOperand.mbb?] using operand
  have inputs : minst.inputs = [.reg r false false, .reg r' false false] := by
    simp [MachineInstr.inputs, MachineInstr.uses, noDefs, operands, MachineOperand.isArgument,
      MachineOperand.isMBB]
  have used : minst.uses.filter (!·.isMBB) = minst.inputs := by
    simp [inputs, MachineInstr.uses, noDefs, operands, MachineOperand.isMBB]
  rw [used] at values
  have words : ∀ op ∈ minst.inputs, WordOperand cx op := by
    rw [inputs]
    simpa using ⟨left, right⟩
  obtain ⟨vs, d, known, wide, run, kept, unshared, evaluated, -⟩ :=
    exec_inputs host.lifted.widths words values ⟨env, locals, shared⟩
  have params : fn.params = vs.map APInt.width := by
    rw [wide, params, inputs]
    rfl
  have inputs : minst.inputs.map (argumentValue cx regs) = vs.map some := by
    rw [← known]
    exact List.map_congr_left fun op _ => (same.argumentValue_eq op).symm
  let fr : Frame M.widths := ⟨f, .mbb b, codeAt cx fin st₁, env, locals⟩
  have at_ : fr.code = _ := code
  have called := run_call host.lifted.getFunction function inputs params at_ run kept unshared evaluated
  cases result : minst.result cx regs shared.world with
  | none =>
    simp only [result] at called
    exact called
  | some outcome =>
    obtain ⟨⟨width, v⟩, world⟩ := outcome
    simp only [result] at called
    obtain ⟨bit, env', shared', path', rfl, bound⟩ := called
    obtain rfl : width = 1 := bit.trans output
    have value : evalInt env' (.ssa (.result b i)) = some ⟨1, v⟩ := by
      simp [evalInt, evalValue, bound (by rw [output]; decide)]
    refine ⟨_, path'.trans (.single (IRModule.step_condBr rfl host.body value)), ?_⟩
    split_ifs
    · exact host.tracks_target target same env' shared'
    · exact host.tracks_untaken block here branches ending untaken same env' shared'

end Housed

section Steps
variable {regs : Locals w} {world : W}

theorem guestStep_ret (block : mf.blocks[b]? = some mbb) (here : mbb[i]? = some minst)
    (returns : isReturn cx minst = true) :
    guestStep cx mf ⟨some (b, i), regs, world⟩ = some ⟨none, regs, world⟩ := by
  simp [guestStep, block, here, returns]

theorem guestStep_jump {t : BlockId} (block : mf.blocks[b]? = some mbb) (here : mbb[i]? = some minst)
    (jump : Jump cx mf minst t) :
    guestStep cx mf ⟨some (b, i), regs, world⟩ = some ⟨some (t, 0), regs, world⟩ := by
  simp [guestStep, block, here, jump.noReturn, MachineInstr.not_conditional_of_unconditional jump.jumps,
    jump.jumps, jump.operand, MachineOperand.mbb?]

theorem guestStep_branch {t : BlockId} (block : mf.blocks[b]? = some mbb) (here : mbb[i]? = some minst)
    (branches : minst.isConditionalBranch = true) (noReturn : isReturn cx minst = false)
    (target : (minst.operands[2]?).bind MachineOperand.mbb? = some t) :
    guestStep cx mf ⟨some (b, i), regs, world⟩ = (minst.result cx regs world).map fun (taken, world) =>
      ⟨some (if taken.bits.toNat = 1 then (t, 0) else fallthrough mbb b i), regs, world⟩ := by
  simp only [guestStep, Option.bind_eq_bind, block, here, noReturn, branches, target, Option.bind_some,
    Bool.false_eq_true, if_false, if_true]
  cases minst.result cx regs world with
  | none => rfl
  | some outcome =>
    rw [Option.bind_some, Option.map_some]
    split_ifs <;> rfl

theorem guestStep_generic (block : mf.blocks[b]? = some mbb) (here : mbb[i]? = some minst)
    (noReturn : isReturn cx minst = false) (straight : minst.desc.isBranch = false) :
    guestStep cx mf ⟨some (b, i), regs, world⟩ = (minst.result cx regs world).map fun (v, world) =>
      ⟨some (fallthrough mbb b i), writeResult cx regs minst v, world⟩ := by
  simp only [guestStep, Option.bind_eq_bind, block, here, noReturn, MachineInstr.isConditionalBranch,
    MachineInstr.isUnconditionalBranch, straight, Option.bind_some, Bool.false_eq_true, if_false,
    Bool.false_and]
  cases minst.result cx regs world <;> rfl

end Steps

/-- The index of the next instruction in its block. -/
def Guest.index (g : Guest w W) : Nat :=
  match g.place with
  | some (_, i) => i
  | none => 0

/-- Both have returned, with every register in `register_state`, or both are stuck. -/
structure SameEnd (stats : RegisterStats) (g : Guest w W) (c : Config w W) : Prop where
  returned : g.place = none ↔ c.frames = []
  registers : g.place = none → ∀ r, stateValue stats c.shared.slots r = registerValue stats g.regs r
  world : c.shared.world = g.world

theorem SameEnd.stuck {stats : RegisterStats} {g : Guest w W} {c : Config w W} (inside : g.place ≠ none)
    (stuck : c.frames ≠ []) (world : c.shared.world = g.world) : SameEnd stats g c :=
  ⟨iff_of_false inside stuck, fun none => absurd none inside, world⟩

/-- What the lifted function does while the machine makes a step, or stops. -/
def Answers (stats : RegisterStats) (M : IRModule W)
    (Tracks : Guest M.widths W → Config M.widths W → Prop) (g : Guest M.widths W)
    (c : Config M.widths W) : Option (Guest M.widths W) → Prop
  | some g' => ∃ c', (Advances M.step c c' ∨ c' = c ∧ g'.index < g.index) ∧ Tracks g' c'
  | none => ∃ c', Halts M.step c c' ∧ SameEnd stats g c'

namespace Housed
variable {addrs : FuncId → FunctionAddresses} {f : FuncId} {regs locals : Locals M.widths}

theorem answers_own (host : Housed cx mfs addrs adds M f mf fin spReg) (block : mf.blocks[b]? = some mbb)
    (here : mbb[i]? = some minst) (instr : SubInstr cx mf (layoutTracker cx mf spReg b i) b mbb i minst)
    (unfolded : ¬Folded cx mbb i minst) (builder : builderAt cx mf (addrs f) b i = .ok st)
    (same : SameCells cx.stats regs locals) (env : Env) (shared : Shared M.widths W) :
    Answers cx.stats M (Tracks cx mf (addrs f) adds fin f) ⟨some (b, i), regs, shared.world⟩
      ⟨[⟨f, .mbb b, codeAt cx fin st, env, locals⟩], shared⟩
      (guestStep cx mf ⟨some (b, i), regs, shared.world⟩) := by
  have bound := (List.getElem?_eq_some_iff.mp here).1
  have cur := host.sub.cur_eq host.whole block here unfolded builder
  have tracked := tracker_eq_layout host.whole host.sub.stackPointer block bound.le builder
  cases instr with
  | generic path function words params output absolute straight ending =>
    rw [← tracked] at path
    have runs := host.generic_runs block here builder cur path function words params output absolute
      straight same env shared
    have other : dispatch cx minst st.sptrack ∉ [.ret, .indirect, .jump, .branch, .call] := by
      simp [path]
    have noReturn := (no_transfer other).1
    rw [guestStep_generic block here noReturn straight]
    cases result : minst.result cx regs shared.world with
    | none =>
      simp only [result] at runs
      obtain ⟨c', halts, stuck, world⟩ := runs
      exact ⟨c', halts, .stuck (by simp) stuck world⟩
    | some outcome =>
      simp only [result] at runs
      obtain ⟨c', path, tracks⟩ := runs
      exact ⟨c', .inl path, tracks⟩
  | branch branches noReturn direct function params output noDefs operands left right target ending =>
    have path := dispatch_conditional branches noReturn direct
      (by simp [operands, MachineOperand.isMBB]) st.sptrack
    have runs := host.branch_runs block here builder cur branches path function params output noDefs
      operands left right target ending same env shared
    rw [guestStep_branch block here branches noReturn (by rw [operands]; rfl)]
    cases result : minst.result cx regs shared.world with
    | none =>
      simp only [result] at runs
      obtain ⟨c', halts, stuck, world⟩ := runs
      exact ⟨c', halts, .stuck (by simp) stuck world⟩
    | some outcome =>
      simp only [result] at runs
      obtain ⟨c', path, tracks⟩ := runs
      exact ⟨c', .inl path, tracks⟩
  | ret returns noCall last =>
    obtain ⟨st₁, st', chunk, lifting⟩ := instrLifting host.whole block here
    obtain rfl := Except.ok.inj (lifting.builder.symm.trans builder)
    have path : dispatch cx minst st₁.sptrack = .ret := if_pos returns
    obtain ⟨-, rfl⟩ := (path ▸ lifting.chunk).of_ret
    obtain ⟨d, run, saved⟩ := host.lifted.run_save host.disjoint ⟨env, locals, shared⟩
    let fr : Frame M.widths := ⟨f, .mbb b, codeAt cx fin st₁, env, locals⟩
    have code : fr.code = _ := codeAt_appends cx lifting.appends lifting.rest
    have path := IRModule.run_plain [] code run
    rw [guestStep_ret block here returns]
    have world : d.shared.world = shared.world := by rw [saved.shared]
    rw [← world]
    refine ⟨_, .inl (.snoc ⟨_, path⟩ (IRModule.step_ret rfl)), .returned fun t member => ?_⟩
    rw [saved.copied t member]
    exact same t member
  | jump jump last =>
    obtain ⟨st₁, st', chunk, lifting⟩ := instrLifting host.whole block here
    obtain rfl := Except.ok.inj (lifting.builder.symm.trans builder)
    have path := jump.dispatch_eq st₁.sptrack
    obtain ⟨-, ⟨behind, -⟩ | ⟨-, t, operand, -, rfl⟩⟩ := (path ▸ lifting.chunk).of_jump
    · exact absurd ⟨jump.dispatch_eq ∅, site_prev.mp behind⟩ unfolded
    · have code := codeAt_appends cx lifting.appends lifting.rest
      rw [List.singleton_append, saveRegistersBeforeReturn_cons _ (by simp)] at code
      obtain rfl := Option.some.inj (operand.symm.trans (mbbOperand_first (by rw [jump.operand]; rfl)))
      rw [guestStep_jump block here jump]
      exact ⟨_, .inl (.snoc (.refl _) (IRModule.step_br code host.body)),
        host.tracks_target jump.target same env shared⟩

/-- The same behind a branch that has taken the jump over. -/
theorem answers_met (host : Housed cx mfs addrs adds M f mf fin spReg) (block : mf.blocks[b]? = some mbb)
    (here : mbb[i]? = some minst) (instr : SubInstr cx mf (layoutTracker cx mf spReg b i) b mbb i minst)
    {l : Label} {code : List Inst} (meets : Meets cx mf (addrs f) adds fin b i mbb minst l code)
    (same : SameCells cx.stats regs locals) (env : Env) (shared : Shared M.widths W) :
    Answers cx.stats M (Tracks cx mf (addrs f) adds fin f) ⟨some (b, i), regs, shared.world⟩
      ⟨[⟨f, l, code, env, locals⟩], shared⟩ (guestStep cx mf ⟨some (b, i), regs, shared.world⟩) := by
  cases meets with
  | own unfolded builder => exact host.answers_own block here instr unfolded builder same ..
  | folded folded jump =>
    -- the branch has already gone where the jump goes
    rw [guestStep_jump block here jump]
    refine ⟨_, .inr ⟨rfl, ?_⟩, host.tracks_target jump.target same ..⟩
    obtain ⟨-, j, prev, rfl, -⟩ := folded
    exact Nat.succ_pos j

/-- A frame in front of an instruction whose jump no branch has taken over. -/
theorem at_tracks (host : Housed cx mfs addrs adds M f mf fin spReg) (found : mfs[f]? = some mf)
    (block : mf.blocks[b]? = some mbb) (here : mbb[i]? = some minst) (unfolded : ¬Folded cx mbb i minst)
    {fr : Frame M.widths} (at_ : fr.At cx mfs addrs f b i) (same : SameCells cx.stats regs fr.locals)
    (shared : Shared M.widths W) :
    Tracks cx mf (addrs f) adds fin f ⟨some (b, i), regs, shared.world⟩ ⟨[fr], shared⟩ := by
  obtain ⟨func, label, code, env, locals⟩ := fr
  obtain ⟨rfl, mf', found', pc⟩ := at_
  obtain rfl := Option.some.inj (found.symm.trans found')
  obtain ⟨st, st', chunk, lifting⟩ := instrLifting host.whole block here
  rw [pcAt_ok host.whole lifting.builder,
    host.sub.cur_eq host.whole block here unfolded lifting.builder] at pc
  cases pc
  exact .inside block here (.own unfolded lifting.builder) same

/-- A new activation comes to the first instruction with the registers of `register_state`. -/
theorem enters (host : Housed cx mfs addrs adds M f mf fin spReg) (found : mfs[f]? = some mf)
    (rest : List (Frame M.widths)) {shared : Shared M.widths W} (same : Agrees cx.stats regs shared.slots) :
    ∃ (fr : Frame M.widths) (symtab : List (BitVec 64 × FuncId)),
      Reaches M.step ⟨M.entryFrame f (liftedBody cx adds fin) :: rest, shared⟩
        ⟨fr :: rest, { shared with symtab := symtab }⟩ ∧
      Tracks cx mf (addrs f) adds fin f ⟨some (0, 0), regs, shared.world⟩
        ⟨[fr], { shared with symtab := symtab }⟩ := by
  obtain ⟨fr, symtab, path, at_, agrees⟩ := host.lifted.enters host.body rest shared
  obtain ⟨mbb, minst, block, first⟩ := host.sub.first_instr
  have unfolded : ¬Folded cx mbb 0 minst := by
    rintro ⟨-, j, prev, first, -⟩
    cases first
  have cells : SameCells cx.stats regs fr.locals :=
    fun t member => (agrees t member).symm.trans (same t member)
  exact ⟨fr, symtab, path,
    host.at_tracks found block first unfolded at_ cells { shared with symtab := symtab }⟩

end Housed

/-- A function of the sublanguage in the module it is lifted into. -/
structure Hosted (cx : Context W) (mfs : List MachineFunction) (addrs : FuncId → FunctionAddresses)
    (adds : List Inst) (M : IRModule W) (f : FuncId) (mf : MachineFunction) (fin : Builder)
    (spReg : Register) : Prop where
  lifted : Lifted cx mfs addrs adds M
  disjoint : cx.stats.Disjoint
  whole : finalBuilder cx mf (addrs f) = .ok fin
  body : M.body f = some (liftedBody cx adds fin)
  sub : Sublanguage cx mf spReg

namespace Hosted
variable {addrs : FuncId → FunctionAddresses} {f : FuncId} {regs locals : Locals M.widths}

theorem housed (host : Hosted cx mfs addrs adds M f mf fin spReg) :
    Housed cx mfs addrs adds M f mf fin spReg :=
  ⟨host.lifted, host.disjoint, host.whole, host.body, host.sub.program⟩

theorem answers (host : Hosted cx mfs addrs adds M f mf fin spReg) {g : Guest M.widths W}
    {c : Config M.widths W} (tracks : Tracks cx mf (addrs f) adds fin f g c) :
    Answers cx.stats M (Tracks cx mf (addrs f) adds fin f) g c (guestStep cx mf g) := by
  cases tracks with
  | inside block here meets same =>
    exact host.housed.answers_met block here (host.sub.instr block here) meets same ..
  | returned same => exact ⟨_, ⟨.refl _, rfl⟩, by simp, fun _ => same.stateValue_eq, rfl⟩

theorem simulation (host : Hosted cx mfs addrs adds M f mf fin spReg) :
    Simulation (guestStep cx mf) M.step (Tracks cx mf (addrs f) adds fin f) (SameEnd cx.stats)
      Guest.index := by
  constructor
  · intro g g' c tracks done
    have answers := host.answers tracks
    rw [done] at answers
    obtain ⟨c', ⟨n, pos, path⟩ | ⟨rfl, drops⟩, tracks'⟩ := answers
    · exact ⟨n, c', path, tracks', fun zero => absurd zero pos.ne'⟩
    · exact ⟨0, c', rfl, tracks', fun _ => drops⟩
  · intro g c tracks done
    have answers := host.answers tracks
    rw [done] at answers
    exact answers

/-- The lifted function starts as the machine does. -/
theorem starts (host : Hosted cx mfs addrs adds M f mf fin spReg) (found : mfs[f]? = some mf)
    {shared : Shared M.widths W} (same : Agrees cx.stats regs shared.slots) :
    ∃ c, Reaches M.step ⟨[M.entryFrame f (liftedBody cx adds fin)], shared⟩ c ∧
      Tracks cx mf (addrs f) adds fin f ⟨some (0, 0), regs, shared.world⟩ c := by
  obtain ⟨fr, symtab, path, tracks⟩ := host.housed.enters found [] same
  exact ⟨_, path, tracks⟩

end Hosted

/-- Every register has the same value in both, and so has the world. -/
def SameState (stats : RegisterStats) (g : Guest w W) (c : Config w W) : Prop :=
  c.shared.world = g.world ∧
    match c.frames with
    | [] => g.place = none ∧ ∀ r, stateValue stats c.shared.slots r = registerValue stats g.regs r
    | fr :: rest => rest = [] ∧ g.place ≠ none ∧
        ∀ r, registerValue stats fr.locals r = registerValue stats g.regs r

theorem Tracks.sameState {addrs : FunctionAddresses} {f : FuncId} {g : Guest w W} {c : Config w W}
    (tracks : Tracks cx mf addrs adds fin f g c) : SameState cx.stats g c := by
  cases tracks with
  | inside block here meets same =>
    exact ⟨rfl, rfl, by simp, same.registerValue_eq⟩
  | returned same => exact ⟨rfl, rfl, same.stateValue_eq⟩

/-- Intraprocedural lifting preserves meaning. A function of the sublanguage can be
lifted. From the same registers and world, the lifted function passes through the
states of the machine, returns with the same registers and world if the machine
returns, and if it stops so does the machine. -/
theorem lifting_preserves_meaning {addrs : FuncId → FunctionAddresses} {f : FuncId}
    (sub : Sublanguage cx mf spReg) (addressed : Addressed mf (addrs f)) (disjoint : cx.stats.Disjoint) :
    (∃ blocks, generateFunction cx mf (addrs f) = .ok (some blocks)) ∧
    ∀ {mfs : List MachineFunction} {finfo : Option FileInfo} {stackSize : Nat} {liftedPrefix : String}
      {M : IRModule W}, bleachModule cx mfs addrs finfo stackSize liftedPrefix = .ok M →
      mfs[f]? = some mf → ∃ blocks, M.body f = some blocks ∧
      ∀ (regs : Locals M.widths) (shared : Shared M.widths W), Agrees cx.stats regs shared.slots →
        (∀ g, Reaches (guestStep cx mf) ⟨some (0, 0), regs, shared.world⟩ g →
          ∃ c, Reaches M.step ⟨[M.entryFrame f blocks], shared⟩ c ∧ SameState cx.stats g c) ∧
        (∀ g, Halts (guestStep cx mf) ⟨some (0, 0), regs, shared.world⟩ g →
          ∃ c, Halts M.step ⟨[M.entryFrame f blocks], shared⟩ c ∧ SameEnd cx.stats g c) ∧
        ∀ c, Halts M.step ⟨[M.entryFrame f blocks], shared⟩ c →
          ∃ g, Halts (guestStep cx mf) ⟨some (0, 0), regs, shared.world⟩ g ∧ SameEnd cx.stats g c := by
  refine ⟨sub.lifts addressed, fun {mfs finfo stackSize liftedPrefix M} module found => ?_⟩
  obtain ⟨funcs, adds, -, lifted, -⟩ := lifted_of_bleachModule module
  obtain ⟨fin, whole, body⟩ := lifted.functions found
  rw [if_neg (by simpa using sub.function)] at body
  have host : Hosted cx mfs addrs adds M f mf fin spReg := ⟨lifted, disjoint, whole, body, sub⟩
  refine ⟨_, body, fun regs shared same => ?_⟩
  obtain ⟨c₀, entry, tracks⟩ := host.starts found same
  refine ⟨fun g path => ?_, fun g halts => ?_, fun c halts => ?_⟩
  · obtain ⟨c, path', tracks'⟩ := host.simulation.run tracks path
    exact ⟨c, entry.trans path', tracks'.sameState⟩
  · obtain ⟨c, ⟨path, stopped⟩, outcome⟩ := host.simulation.halts tracks halts
    exact ⟨c, ⟨entry.trans path, stopped⟩, outcome⟩
  · exact host.simulation.reflects tracks (halts.of_reaches entry)

namespace RiscV

/-- A loop whose exit test is followed by a jump. -/
def countdown : MachineFunction :=
  ⟨"countdown", [[addi X10 X10 1], [beq X10 X0 3, br 2], [addi X10 X10 (-1), br 1], [ret]]⟩

theorem word_register {r : Register} (member : r ∈ registers) : Word context r := by
  have found : ∀ r ∈ registers, context.rmap.find r = some ⟨0, r⟩ := by decide
  exact ⟨⟨0, r⟩, found r member, rfl⟩

theorem getName_zero {r : Register} (named : getName r = "X0") : r = X0 := by
  unfold getName at named
  split at named
  · rfl
  all_goals exact absurd named (by decide)

theorem constReg_named {r : Register} {k : ConstantReg}
    (found : context.instrs.constReg? context.tm r = some k) :
    findRegisterByName context.tm k.name = some r := by
  have member := List.mem_of_find?_eq_some found
  obtain rfl : k = ⟨"X0", 0⟩ := List.mem_singleton.mp member
  have named := List.find?_some found
  obtain rfl := getName_zero (of_decide_eq_true named).symm
  rfl

theorem addi_subInstr {mf : MachineFunction} {r : Register} {k : Int} {T : StackPointerTracker}
    {mbb : MachineBasicBlock} {b i : Nat} (path : dispatch context (addi r r k) T = .generic)
    (member : r ∈ registers) (ending : i + 1 = mbb.length → b + 1 < mf.blocks.length) :
    SubInstr context mf T b mbb i (addi r r k) := by
  have word : Word context r := word_register member
  refine .generic path (f := binary 64 (· + ·)) rfl ?_ rfl ?_ rfl rfl ending
  · simp only [addi, MachineInstr.uses, ADDI, List.drop, List.forall_mem_cons]
    exact ⟨fun _ => .register word, fun _ => .imm, by simp⟩
  · simp only [addi, MachineInstr.defs, ADDI, List.take, List.forall_mem_cons]
    exact ⟨⟨rfl, r, true, false, rfl, word⟩, by simp⟩

theorem br_jump {mf : MachineFunction} {t : BlockId} (target : Target mf t) : Jump context mf (br t) t :=
  ⟨rfl, rfl, rfl, rfl, target⟩

theorem constRegs_found :
    ∀ k ∈ context.instrs.constRegs, ∃ r, findRegisterByName context.tm k.name = some r := by
  intro k member
  obtain rfl : k = ⟨"X0", 0⟩ := by simpa [context, instrs] using member
  exact ⟨X0, rfl⟩

/-- A comparison with zero whose jump stands behind it. -/
theorem beq_subInstr {mf : MachineFunction} {r : Register} {t t' : BlockId} {T : StackPointerTracker}
    {mbb : MachineBasicBlock} {b i : Nat} (member : r ∈ registers) (target : Target mf t)
    (next : mbb[i + 1]? = some (br t')) (jump : Target mf t') (last : i + 2 = mbb.length) :
    SubInstr context mf T b mbb i (beq r X0 t) :=
  .branch (f := binary 1 fun a b => if a = b then 1 else 0) rfl rfl rfl rfl rfl rfl rfl rfl
    (.register (word_register member)) (.constant rfl) target (.inr ⟨_, t', next, br_jump jump, last⟩)

theorem countdown_sub : Sublanguage context countdown X2 := by
  refine ⟨rfl, by decide, by decide, fun {b mbb i minst} block here => ?_, constRegs_found, constReg_named⟩
  obtain ⟨inside, rfl⟩ := List.getElem?_eq_some_iff.mp block
  obtain ⟨inside', rfl⟩ := List.getElem?_eq_some_iff.mp here
  match b, i with
  | 0, 0 => exact addi_subInstr (by decide) (by decide) fun _ => by decide
  | 1, 0 => exact beq_subInstr (by decide) ⟨by decide, by decide⟩ rfl ⟨by decide, by decide⟩ rfl
  | 1, 1 => exact .jump (br_jump ⟨by decide, by decide⟩) rfl
  | 2, 0 => exact addi_subInstr (by decide) (by decide) fun _ => by decide
  | 2, 1 => exact .jump (br_jump ⟨by decide, by decide⟩) rfl
  | 3, 0 => exact .ret rfl rfl rfl

/-- One round of the loop, then the return. -/
theorem countdown_returns : ∃ blocks c, (module [countdown] none).body 0 = some blocks ∧
    Halts (module [countdown] none).step
      ⟨[(module [countdown] none).entryFrame 0 blocks], zeroed (module [countdown] none).widths⟩ c ∧
    c.frames = [] ∧ stateValue [gpr] c.shared.slots X10 = some ⟨64, 0⟩ := by
  obtain ⟨-, preserved⟩ := @lifting_preserves_meaning World context countdown X2 (fun _ => none) 0
    countdown_sub (by rintro bs ⟨⟩) (by decide)
  obtain ⟨blocks, body, runs⟩ := @preserved [countdown] none 64 "" (module [countdown] none) rfl rfl
  obtain ⟨-, halts, -⟩ := runs (fun _ => 0) (zeroed _) (fun _ _ => rfl)
  let start : Guest (module [countdown] none).widths World := ⟨some (0, 0), fun _ => 0, fun _ => 0⟩
  have ends : ((iterate (guestStep context countdown) 7 start).map fun g =>
      (g.place, registerValue [gpr] g.regs X10)) = some (none, some ⟨64, 0⟩) := by decide
  obtain ⟨g, path, same⟩ := Option.map_eq_some_iff.mp ends
  obtain ⟨place, value⟩ := Prod.mk.inj same
  have halted : guestStep context countdown g = none := by simp [guestStep, place]
  obtain ⟨c, done, ⟨returned, registers, -⟩⟩ := halts g ⟨⟨7, path⟩, halted⟩
  exact ⟨blocks, c, body, done, returned.mp place, (registers place X10).trans value⟩

end RiscV
end Bleach
