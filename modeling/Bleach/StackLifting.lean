import Bleach.StackKeeping
import Bleach.StackPointerTags

/-! The lifted code of a disciplined function keeps to the slot of the stack pointer:
instruction by instruction while the function is lifted, then block by block. -/
namespace Bleach.RiscV
variable {W : Type} {w : Nat → Nat} {cx : Context W} {mf : MachineFunction} {M : IRModule W}
  {minst : MachineInstr} {spReg : Register} {sp : Cell} {slot : BitVec 64} {code : List Inst}
  {s : Site} {st st' : Builder} {addr : Option (BitVec 64)}

/-- The code of an adjustment, its operand loaded where the code stands or not. -/
def adjustCode (s : Site) (sp : Cell) (k : Int) (loads : List Inst) : List Inst :=
  loads ++ [.callInstr (.result s.block s.idx) "ADDI"
      [.ssa (.operand s.block s.idx 0), .const (.ofInt 64 ((-k).tdiv 8))],
    .store (.ssa (.result s.block s.idx)) (.cell sp)]

/-- The operand of an adjustment. -/
def adjustLoad (s : Site) (sp : Cell) : List Inst :=
  [.load (.operand s.block s.idx 0) 64 (.cell sp)]

theorem spares_adjustLoad : Spares mf spReg sp (adjustLoad s sp) := by
  constructor
  · intro i member
    obtain rfl := List.mem_singleton.mp member
    exact ⟨rfl, rfl, rfl⟩
  · simp [adjustLoad, Inst.writes?]

namespace StackHost

/-- What `ADDI` gives for the stack pointer and an immediate. -/
theorem exec_addi (host : StackHost cx M spReg sp) {id : ValueId} {first second : Value}
    {a b : BitVec 64} {d : Data M.widths W} (left : evalInt d.env first = some ⟨64, a⟩)
    (right : evalInt d.env second = some ⟨64, b⟩) :
    execInst M d (.callInstr id "ADDI" [first, second]) = some (d.bind id (.int ⟨64, a + b⟩)) := by
  simp [execInst, host.getFunction, host.rv.addi, binary, left, right]

theorem sound_adjust (host : StackHost cx M spReg sp) {k : Int}
    (here : mf.instr? s.block s.idx = some (addi spReg spReg k)) :
    Sound cx mf M spReg sp (adjustCode s sp k (adjustLoad s sp)) := by
  have wide : M.widths sp.cls = 64 := host.widths ▸ host.rv.width
  apply Sound.of_noRet (by simp [adjustCode, adjustLoad])
  intro tail fine d slot at_
  rw [adjustCode, List.append_assoc]
  apply keeps_spares spares_adjustLoad at_
  intro d₁ at₁ run _
  have loaded : d₁ = d.bind (.operand s.block s.idx 0) (.int ⟨64, pointerSlot sp d.locals⟩) := by
    rw [adjustLoad, execCode, exec_load64 wide] at run
    exact (Option.some.inj run).symm
  have pointer : pointerSlot sp d₁.locals = pointerSlot sp d.locals := by rw [loaded]; rfl
  refine ⟨by simp, by simp [Inst.targets], by simp [Inst.isCall], by simp [Inst.reads?],
    by simp [Inst.stackIndex?], fun d₂ done _ => ?_⟩
  rw [host.exec_addi (a := pointerSlot sp d₁.locals) (b := BitVec.ofInt 64 ((-k).tdiv 8))
    (by rw [pointer, loaded]; simp [evalInt, evalValue, Data.bind]) rfl] at done
  obtain rfl := Option.some.inj done
  refine ⟨by simp, by simp [Inst.targets], by simp [Inst.isCall], by simp [Inst.reads?],
    by simp [Inst.stackIndex?], fun d₃ stored => fine d₃ _ ?_⟩
  rw [exec_store64 wide (x := pointerSlot sp d₁.locals + BitVec.ofInt 64 ((-k).tdiv 8))
    (by simp [evalInt, evalValue, Data.bind])] at stored
  obtain rfl := Option.some.inj stored
  have back : ∀ v : BitVec 64, (v.setWidth (M.widths sp.cls)).setWidth 64 = v := by
    intro v
    rw [wide]
    simp
  have moved : slotStep mf spReg (.callInstr (.result s.block s.idx) "ADDI"
      [.ssa (.operand s.block s.idx 0), .const (.ofInt 64 ((-k).tdiv 8))]) slot =
      slot + BitVec.ofInt 64 ((-k).tdiv 8) := by
    rw [slotStep, adjusted?, here, Option.bind_some, adjustment_addi]
    rfl
  have still : slotStep mf spReg (.store (.ssa (.result s.block s.idx)) (.cell sp)) = id := rfl
  rw [moved, still]
  simp only [LocalAt, pointerSlot, Function.update_self, back, id]
  rw [← pointerSlot, at₁]

end StackHost

/-- Behind a conditional branch an adjustment is never executed. -/
theorem sound_unloaded {k : Int} {mbb : MachineBasicBlock} (block : mf.blocks[s.block]? = some mbb)
    (branched : ¬Unbranched cx mbb s.idx) : Sound cx mf M spReg sp (adjustCode s sp k []) := by
  apply Sound.of_noRet (by simp [adjustCode])
  intro tail _ d slot _ unloaded
  have unbound : d.env (.operand s.block s.idx 0) = none := unloaded 0 block branched
  refine ⟨by simp, by simp [Inst.targets], by simp [Inst.isCall], by simp [Inst.reads?],
    by simp [Inst.stackIndex?], fun d' done => ?_⟩
  obtain ⟨f, -, done⟩ := Option.bind_eq_some_iff.mp done
  obtain ⟨vs, values, -⟩ := Option.bind_eq_some_iff.mp done
  simp [evalInt, evalValue, unbound] at values

theorem dispatch_adjust (rv : RV64 cx spReg sp) {T : StackPointerTracker} (tracked : spReg ∈ T)
    (k : Int) : dispatch cx (addi spReg spReg k) T = .stackPointerModification := by
  obtain ⟨ret, indirect⟩ := rv.ordinary (addi spReg spReg k) (.inl rfl)
  have branch : isBranch (addi spReg spReg k) = false := rfl
  have call : isCall (addi spReg spReg k) = false := rfl
  have memory : (addi spReg spReg k).mayLoadOrStore = false := rfl
  have defines : definesRegister (addi spReg spReg k) = true := rfl
  have used : usesStackPointer (addi spReg spReg k) T = true :=
    List.any_eq_true.mpr ⟨spReg, by simp [addi, MachineInstr.usedRegs, MachineInstr.uses, ADDI, use,
      MachineOperand.reg?], decide_eq_true tracked⟩
  simp [dispatch, ret, indirect, branch, call, isStackManipulation, memory, defines, used]

theorem sd_access (reg base : Register) (off : Int) : sd reg base off = AccessOp.sd.instr reg base off :=
  rfl

theorem ld_access (reg base : Register) (off : Int) : ld reg base off = AccessOp.ld.instr reg base off :=
  rfl

/-- Instructions without the stack pointer among their operands do not use it. -/
theorem unused_of_apart (rv : RV64 cx spReg sp)
    (apart : ∀ op ∈ minst.operands, ∀ r, op.reg? = some r → cx.rmap.find r ≠ some sp) :
    usesStackPointer minst {spReg} = false := by
  apply List.any_eq_false.mpr
  intro r member tracked
  obtain ⟨op, used, reg⟩ := List.mem_filterMap.mp member
  obtain rfl : r = spReg := by simpa using tracked
  exact apart op (List.mem_of_mem_drop used) r reg rv.cell

/-- The paths of a disciplined instruction: outside the control transfers each of its
forms has its own. -/
inductive StackPath (cx : Context W) (spReg : Register) (sp : Cell) (minst : MachineInstr) :
    Path → Prop where
  | adjust {k} (form : minst = addi spReg spReg k) (aligned : 8 ∣ k) :
      StackPath cx spReg sp minst .stackPointerModification
  | save {reg c off} (form : minst = sd reg spReg off) (wide : Wide cx reg c) (other : c ≠ sp)
      (aligned : 8 ∣ off) : StackPath cx spReg sp minst .stackAccess
  | restore {reg c off} (form : minst = ld reg spReg off) (wide : Wide cx reg c) (other : c ≠ sp)
      (aligned : 8 ∣ off) : StackPath cx spReg sp minst .stackAccess
  | plain (apart : ∀ op ∈ minst.operands, ∀ r, op.reg? = some r → cx.rmap.find r ≠ some sp) :
      StackPath cx spReg sp minst .generic
  | transfer {path} (member : path ∈ [.ret, .indirect, .jump, .branch, .call]) :
      StackPath cx spReg sp minst path

theorem StackInstr.path (rv : RV64 cx spReg sp) (instr : StackInstr cx spReg sp minst) :
    StackPath cx spReg sp minst (dispatch cx minst {spReg}) := by
  have tracked : spReg ∈ ({spReg} : StackPointerTracker) := Finset.mem_singleton_self _
  cases instr with
  | adjust aligned =>
    rw [dispatch_adjust rv tracked]
    exact .adjust rfl aligned
  | save wide other aligned =>
    rw [sd_access, rv.dispatch_access tracked]
    exact .save rfl wide other aligned
  | restore wide other aligned =>
    rw [ld_access, rv.dispatch_access tracked]
    exact .restore rfl wide other aligned
  | plain apart =>
    have unused := unused_of_apart rv apart
    cases path : dispatch cx minst {spReg} with
    | stackAccess | stackPointerModification =>
      unfold dispatch at path
      simp only [isStackManipulation, unused, Bool.and_false] at path
      split_ifs at path
      all_goals simp_all
    | generic => exact .plain apart
    | _ => exact .transfer (by simp)
  | transfer path _ => exact .transfer ((dispatch_congr path rfl).symm ▸ path)

theorem StackInstr.of_addi (rv : RV64 cx spReg sp) {k : Int}
    (instr : StackInstr cx spReg sp (addi spReg spReg k)) : 8 ∣ k := by
  have form := instr.path rv
  rw [dispatch_adjust rv (Finset.mem_singleton_self _)] at form
  cases form with
  | adjust form aligned =>
    cases form
    exact aligned
  | transfer member => simp at member

/-- What the lifting of an adjustment emits. -/
theorem adjust_blocks (rv : RV64 cx spReg sp) (varying : cx.instrs.constReg? cx.tm spReg = none)
    {k : Int} (tracked : st.sptrack = {spReg})
    (done : generateInstruction cx s addr (addi spReg spReg k) st = .ok st') :
    st'.cur = st.cur ∧ st'.sptrack = {spReg} ∧ ∀ l, st'.blocks l =
      ((st.insert s.label (adjustLoad s sp)).emit (adjustCode s sp k [])).blocks l := by
  rw [generateInstruction_eq, dispatch_adjust rv (tracked ▸ Finset.mem_singleton_self _)] at done
  obtain ⟨_, -, done⟩ := bind_ok.mp done
  obtain ⟨_, -, done⟩ := bind_ok.mp done
  obtain ⟨imm, loads, args, writes, first, ⟨vals, values, required⟩, written, rfl⟩ :=
    generateStackPointerModification_ok done
  obtain rfl : k = imm := Option.some.inj first
  have uses : (addi spReg spReg k).uses.map (slotOperand k) = [use spReg, .imm ((-k).tdiv 8)] := by
    simp [MachineInstr.uses, addi, ADDI, use, slotOperand]
  rw [uses] at values
  obtain ⟨⟨load, val⟩, operand, values⟩ := bind_ok.mp values
  obtain ⟨⟨later, vals'⟩, others, values⟩ := bind_ok.mp values
  cases others
  cases values
  obtain ⟨rfl, rfl⟩ : load = adjustLoad s sp ∧ val = some (.ssa (.operand s.block s.idx 0)) := by
    cases operandToValue_ok.mp operand with
    | constant found => simp [varying] at found
    | register _ found classed =>
      obtain rfl := Option.some.inj (rv.cell.symm.trans found)
      rw [rv.bitsize classed]
      exact ⟨rfl, rfl⟩
  cases required
  obtain ⟨write, stored, written⟩ := bind_ok.mp written
  cases written
  obtain rfl : write = [.store (.ssa (.result s.block s.idx)) (.cell sp)] := by
    obtain ⟨c, found, stored⟩ := bind_ok.mp stored
    obtain ⟨constants, -, stored⟩ := bind_ok.mp stored
    obtain ⟨rclass, -, stored⟩ := bind_ok.mp stored
    obtain rfl := Option.some.inj (rv.cell.symm.trans (regAddr_ok found))
    simp only [varying] at stored
    exact (Except.ok.inj stored).symm
  refine ⟨rfl, ?_, fun l => ?_⟩
  · simp [tracked, addDef, addi, dst, MachineInstr.defs, ADDI]
  · have named : (addi spReg spReg k).desc.name = "ADDI" := rfl
    simp only [named, Builder.emit_blocks, Builder.insert_blocks, Builder.insert_cur, adjustCode,
      List.append_nil, List.nil_append]
    rfl

/-- Sound code is appended to the blocks. -/
def Extended (cx : Context W) (mf : MachineFunction) (M : IRModule W)
    (spReg : Register) (sp : Cell) (st st' : Builder) : Prop :=
  ∀ l, ∃ new, st'.blocks l = st.blocks l ++ new ∧ Sound cx mf M spReg sp new

theorem extended_loads {loads : List Inst} (spares : Spares mf spReg sp loads)
    (sound : Sound cx mf M spReg sp code)
    (blocks : ∀ l, st'.blocks l = ((st.insert s.label loads).emit code).blocks l) :
    Extended cx mf M spReg sp st st' := by
  intro l
  refine ⟨(if l = s.label then loads else []) ++ if l = st.cur then code else [], ?_, .append ?_ ?_⟩
  · rw [blocks, Builder.emit_blocks, Builder.insert_blocks, List.append_assoc]
    rfl
  · split_ifs
    · exact .of_spares spares
    · exact .nil
  · split_ifs
    · exact sound
    · exact .nil

theorem extended_emit (sound : Sound cx mf M spReg sp code)
    (blocks : ∀ l, st'.blocks l = (st.emit code).blocks l) : Extended cx mf M spReg sp st st' := by
  intro l
  refine ⟨if l = st.cur then code else [], by simp [blocks], ?_⟩
  split_ifs
  · exact sound
  · exact .nil

/-- Where a site stands in its function, and whether the builder is still in its block. -/
structure Standing (cx : Context W) (mf : MachineFunction) (s : Site) (minst : MachineInstr)
    (cur : Label) : Prop where
  instr : mf.instr? s.block s.idx = some minst
  unnamed : 0 ∉ s.branchTargets cx minst
  own : cur = s.label ∨ ∃ mbb, mf.blocks[s.block]? = some mbb ∧ ¬Unbranched cx mbb s.idx

/-- Behind a conditional branch a save has no value, unless it is that of a constant. -/
theorem unloaded_operand {rs : Register} {load : List Inst} {value : Value} {mbb : MachineBasicBlock}
    (operand : OperandCode cx (.operand s.block s.idx 0) (use rs) load (some value))
    (block : mf.blocks[s.block]? = some mbb) (branched : ¬Unbranched cx mbb s.idx)
    (d d' : Data M.widths W) (run : execCode M [] d = some d') :
    d'.env (.index s.block s.idx) = d.env (.index s.block s.idx) ∧ (Unloaded cx mf d'.env →
      ∀ v, evalInt d'.env value = some v → v = ⟨64, operandValue cx d'.locals rs⟩) := by
  obtain rfl := Option.some.inj run
  refine ⟨rfl, fun unloaded v value => ?_⟩
  cases operand with
  | constant found =>
    obtain rfl := Option.some.inj value
    simp [operandValue, found, APInt.ofInt]
  | register varying found classed =>
    have unbound : d.env (.operand s.block s.idx 0) = none := unloaded 0 block branched
    simp [evalInt, evalValue, unbound] at value

namespace StackHost

/-- A control transfer leaves the stack pointer alone. -/
theorem transfer_sound (host : StackHost cx M spReg sp) (standing : Standing cx mf s minst st.cur)
    (transfer : dispatch cx minst {spReg} ∈ [.ret, .indirect, .jump, .branch, .call])
    (tracked : st.sptrack = {spReg}) (done : generateInstruction cx s addr minst st = .ok st') :
    st'.sptrack = {spReg} ∧ Extended cx mf M spReg sp st st' := by
  rw [generateInstruction_eq, tracked] at done
  have unnamed := standing.unnamed
  rw [Site.branchTargets, dispatch_congr transfer rfl] at unnamed
  cases path : dispatch cx minst {spReg} with
  | ret =>
    obtain rfl := Except.ok.inj (path ▸ done)
    exact ⟨tracked, extended_emit host.sound_ret fun _ => rfl⟩
  | indirect =>
    obtain ⟨loads, arg, rest, values, rfl⟩ := generateIndirectBranch_ok (path ▸ done)
    have lookup : Spares mf spReg sp [.symtabLookup (.callee s.block s.idx) arg] :=
      ⟨by simp [Quiet, Inst.isPlain, Inst.stackIndex?, adjusted?], by simp [Inst.writes?]⟩
    exact ⟨tracked, extended_loads (.operands values) (host.sound_call lookup rfl) fun _ => rfl⟩
  | jump =>
    rw [path] at unnamed
    obtain ⟨-, rfl⟩ | ⟨unfolded, b, operand, bound, rfl⟩ := generateJump_ok (path ▸ done)
    · exact ⟨tracked, fun l => ⟨[], by simp, .nil⟩⟩
    · refine ⟨tracked, extended_emit (sound_jump rfl (by simp) ?_) fun _ => rfl⟩
      simpa [unfolded, operand, Inst.targets, entryLabel, eq_comm] using unnamed
  | branch =>
    rw [path] at unnamed
    obtain ⟨f, loads, args, b, ifFalse, -, ⟨vals, values, -⟩, operand, bound, untaken, rfl⟩ :=
      generateBranch_ok (path ▸ done)
    have call : Spares mf spReg sp [.callInstr (.result s.block s.idx) minst.desc.name args] := by
      refine .function standing.instr ?_ _ _
      rintro k rfl
      rw [dispatch_adjust host.rv (Finset.mem_singleton_self _)] at path
      cases path
    refine ⟨tracked, extended_loads (.operands values) (.append (.of_spares call)
      (sound_jump (i := .condBr _ _ _) rfl (by simp) ?_)) fun _ => rfl⟩
    simp only [Inst.targets, List.mem_cons, List.not_mem_nil, or_false, not_or, untaken.entry]
    simp only [operand, Option.toList_some, List.mem_append, List.mem_singleton, not_or] at unnamed
    refine ⟨by simpa [entryLabel] using unnamed.1, ?_⟩
    rintro ⟨next, found, unconditional, target⟩
    simp [found, unconditional, target] at unnamed
  | call =>
    obtain ⟨callee, -, rfl⟩ := generateCall_ok (path ▸ done)
    have sound : Sound cx mf M spReg sp ([] ++ (cx.save ++ .call callee :: cx.reload)) :=
      host.sound_call .nil rfl
    refine ⟨tracked, extended_emit ?_ fun _ => rfl⟩
    simpa [host.real] using sound
  | stackAccess | stackPointerModification | generic => simp [path] at transfer

theorem adjust_sound (host : StackHost cx M spReg sp) {k : Int}
    (standing : Standing cx mf s (addi spReg spReg k) st.cur) (tracked : st.sptrack = {spReg})
    (done : generateInstruction cx s addr (addi spReg spReg k) st = .ok st') :
    st'.sptrack = {spReg} ∧ Extended cx mf M spReg sp st st' := by
  obtain ⟨-, sptrack, blocks⟩ := adjust_blocks host.rv host.varying tracked done
  refine ⟨sptrack, ?_⟩
  obtain own | ⟨mbb, block, branched⟩ := standing.own
  · apply extended_emit (host.sound_adjust standing.instr)
    intro l
    rw [blocks]
    by_cases here : l = s.label <;> simp [here, own, adjustCode]
  · exact extended_loads spares_adjustLoad (sound_unloaded block branched) blocks

theorem restore_sound (host : StackHost cx M spReg sp) {rd : Register} {c : Cell} {off : Int}
    (wide : Wide cx rd c) (other : c ≠ sp) (aligned : 8 ∣ off)
    (standing : Standing cx mf s (ld rd spReg off) st.cur) (tracked : st.sptrack = {spReg})
    (done : generateInstruction cx s addr (ld rd spReg off) st = .ok st') :
    st'.sptrack = {spReg} ∧ Extended cx mf M spReg sp st st' := by
  rw [ld_access] at done
  obtain ⟨-, sptrack, ⟨-, c', found, blocks⟩ | ⟨store, -⟩⟩ :=
    host.rv.access_blocks (tracked ▸ Finset.mem_singleton_self _) done
  · obtain rfl := Option.some.inj (wide.1.symm.trans found)
    exact ⟨sptrack.trans tracked,
      extended_emit (host.sound_load standing.instr other aligned) blocks⟩
  · cases store

/-- The operand of a save, where it is loaded in front of the save. -/
theorem loaded_operand (host : StackHost cx M spReg sp) {rs : Register} {c : Cell} {load : List Inst}
    {value : Value} (wide : Wide cx rs c)
    (operand : OperandCode cx (.operand s.block s.idx 0) (use rs) load (some value))
    (d d' : Data M.widths W) (run : execCode M load d = some d') :
    d'.env (.index s.block s.idx) = d.env (.index s.block s.idx) ∧ (Unloaded cx mf d'.env →
      ∀ v, evalInt d'.env value = some v → v = ⟨64, operandValue cx d'.locals rs⟩) := by
  obtain ⟨d'', run', locals, -, values, stored⟩ := exec_operand host.widths wide operand d
  obtain rfl := Option.some.inj (run.symm.trans run')
  refine ⟨values _ (by simp), fun _ v value => ?_⟩
  rw [stored] at value
  rw [locals]
  exact (Option.some.inj value).symm

theorem save_sound (host : StackHost cx M spReg sp) {rs : Register} {c : Cell} {off : Int}
    (wide : Wide cx rs c) (aligned : 8 ∣ off)
    (standing : Standing cx mf s (sd rs spReg off) st.cur) (tracked : st.sptrack = {spReg})
    (done : generateInstruction cx s addr (sd rs spReg off) st = .ok st') :
    st'.sptrack = {spReg} ∧ Extended cx mf M spReg sp st st' := by
  rw [sd_access] at done
  obtain ⟨-, sptrack, ⟨load, -⟩ | ⟨-, load, value, operand, blocks⟩⟩ :=
    host.rv.access_blocks (tracked ▸ Finset.mem_singleton_self _) done
  · cases load
  · refine ⟨sptrack.trans tracked, ?_⟩
    have spares : Spares mf spReg sp load := .operand (operandToValue_ok.mpr operand)
    by_cases own : st.cur = s.label
    · apply extended_emit (host.sound_store standing.instr aligned spares
        (host.loaded_operand wide operand))
      intro l
      rw [blocks]
      by_cases here : l = s.label <;> simp [here, own, storeCode]
    · obtain ⟨mbb, block, branched⟩ := standing.own.resolve_left own
      apply extended_loads (s := s) spares (host.sound_store standing.instr aligned .nil
        (unloaded_operand operand block branched))
      intro l
      rw [blocks]
      by_cases here : l = st.cur <;> simp [here, own, storeCode]

theorem plain_sound (host : StackHost cx M spReg sp)
    (apart : ∀ op ∈ minst.operands, ∀ r, op.reg? = some r → cx.rmap.find r ≠ some sp)
    (path : dispatch cx minst {spReg} = .generic)
    (standing : Standing cx mf s minst st.cur) (tracked : st.sptrack = {spReg})
    (done : generateInstruction cx s addr minst st = .ok st') :
    st'.sptrack = {spReg} ∧ Extended cx mf M spReg sp st st' := by
  rw [generateInstruction_eq, tracked, path] at done
  obtain ⟨_, -, done⟩ := bind_ok.mp done
  obtain ⟨_, -, done⟩ := bind_ok.mp done
  obtain ⟨f, loads, args, pc, writes, -, ⟨vals, values, -⟩, -, written, rfl⟩ :=
    generateGeneric_ok done
  have other : ∀ k, minst ≠ addi spReg spReg k := by
    rintro k rfl
    rw [dispatch_adjust host.rv (Finset.mem_singleton_self _)] at path
    cases path
  have results : Spares mf spReg sp writes :=
    .writes_defs written fun op member => apart op (List.mem_of_mem_take member)
  constructor
  · ext r
    rw [mem_eraseDefs, tracked, and_iff_left_iff_imp, Finset.mem_singleton]
    rintro rfl defined
    obtain ⟨op, member, reg⟩ := List.mem_filterMap.mp defined
    exact apart op (List.mem_of_mem_take member) r reg host.rv.cell
  · refine extended_loads (.operands values) (.of_spares (.append (.casts s (args ++ pc) f.params 0)
      ?_)) fun _ => rfl
    exact .append (.function standing.instr other _ _) results

/-- What is emitted for a disciplined instruction is sound, and the stack pointer
stays the only register tracked. -/
theorem instruction_sound (host : StackHost cx M spReg sp) (instr : StackInstr cx spReg sp minst)
    (standing : Standing cx mf s minst st.cur) (tracked : st.sptrack = {spReg})
    (done : generateInstruction cx s addr minst st = .ok st') :
    st'.sptrack = {spReg} ∧ Extended cx mf M spReg sp st st' := by
  have form := instr.path host.rv
  generalize path : dispatch cx minst {spReg} = taken at form
  cases form with
  | adjust form aligned =>
    subst form
    exact host.adjust_sound standing tracked done
  | save form wide other aligned =>
    subst form
    exact host.save_sound wide aligned standing tracked done
  | restore form wide other aligned =>
    subst form
    exact host.restore_sound wide other aligned standing tracked done
  | plain apart => exact host.plain_sound apart path standing tracked done
  | transfer member => exact host.transfer_sound standing (path ▸ member) tracked done

end StackHost

/-- The blocks of a builder are sound, the first behind the copies of the registers. -/
structure SoundBlocks (cx : Context W) (mf : MachineFunction) (M : IRModule W)
    (spReg : Register) (sp : Cell) (st : Builder) : Prop where
  tracked : st.sptrack = {spReg}
  others : ∀ l, l ≠ entryLabel → Sound cx mf M spReg sp (st.blocks l)
  entry : ∃ code, st.blocks entryLabel = materializeRegisters cx.stats ++ code ∧
    Sound cx mf M spReg sp code

theorem SoundBlocks.extend (before : SoundBlocks cx mf M spReg sp st) (tracked : st'.sptrack = {spReg})
    (extended : Extended cx mf M spReg sp st st') : SoundBlocks cx mf M spReg sp st' := by
  refine ⟨tracked, fun l other => ?_, ?_⟩
  · obtain ⟨new, blocks, sound⟩ := extended l
    rw [blocks]
    exact (before.others l other).append sound
  · obtain ⟨new, blocks, sound⟩ := extended entryLabel
    obtain ⟨code, first, rest⟩ := before.entry
    exact ⟨code ++ new, by rw [blocks, first, List.append_assoc], rest.append sound⟩

namespace StackHost
variable {addrs : FunctionAddresses} {fin : Builder}

theorem terminator_sound (host : StackHost cx M spReg sp) {b : BlockId} {mbb : MachineBasicBlock}
    (before : SoundBlocks cx mf M spReg sp st)
    (done : fillTerminator cx (mf.site b mbb 0) st = .ok st') : SoundBlocks cx mf M spReg sp st' := by
  obtain ⟨last, -, ⟨-, rfl⟩ | ⟨-, -, ⟨-, rfl⟩ | ⟨-, -, rfl⟩⟩⟩ := fillTerminator_ok done
  · exact before
  · exact before.extend before.tracked (extended_emit host.sound_ret fun _ => rfl)
  · refine before.extend before.tracked (extended_emit (sound_jump rfl (by simp) ?_) fun _ => rfl)
    simp [Inst.targets, entryLabel]

theorem builder_sound (host : StackHost cx M spReg sp) (discipline : StackDiscipline cx spReg sp mf)
    (whole : finalBuilder cx mf addrs = .ok fin) {b i : Nat} {mbb : MachineBasicBlock}
    (block : mf.blocks[b]? = some mbb) (bound : i ≤ mbb.length)
    (at_ : builderAt cx mf addrs b i = .ok st) : SoundBlocks cx mf M spReg sp st := by
  refine builder_induction whole (P := fun _ _ st => SoundBlocks cx mf M spReg sp st)
    ?_ ?_ ?_ block bound at_
  · intro st start
    have blocks : mf.blocks ≠ [] := fun empty => by simp [empty] at block
    obtain ⟨spReg', named, builder⟩ := builderAt_zero whole blocks
    obtain rfl := Option.some.inj (host.rv.stackPointer.symm.trans named)
    obtain rfl := Except.ok.inj (builder.symm.trans start)
    refine ⟨rfl, fun l other => ?_, [], ?_, .nil⟩
    · rw [initialBuilder_other other]
      exact .nil
    · exact (initialBuilder_entry spReg).trans (List.append_nil _).symm
  · intro b mbb i minst st st' code block here lifting before
    obtain ⟨addr, done⟩ := lifting.generated
    have bound := (List.getElem?_eq_some_iff.mp here).1
    have own : st.cur = .mbb b ∨ ∃ mbb, mf.blocks[b]? = some mbb ∧ ¬Unbranched cx mbb i := by
      obtain ⟨cur, -⟩ | ⟨branched, -⟩ := (origins whole block bound.le lifting.builder).cur block
      · exact .inl cur
      · exact .inr ⟨mbb, block, branched⟩
    obtain ⟨tracked, extended⟩ := host.instruction_sound (discipline.instr block here)
      ⟨instr_at block here, discipline.entry block here, own⟩ before.tracked done
    exact before.extend tracked extended
  · intro b mbb st st' block inside terminator before
    have done := host.terminator_sound before terminator
    exact ⟨done.tracked, done.others, done.entry⟩

theorem function_sound (host : StackHost cx M spReg sp) (discipline : StackDiscipline cx spReg sp mf)
    (whole : finalBuilder cx mf addrs = .ok fin) (blocks : mf.blocks ≠ []) :
    SoundBlocks cx mf M spReg sp fin := by
  obtain ⟨b, mbb, st, block, builder, terminator⟩ := fin_last whole blocks
  exact host.terminator_sound (host.builder_sound discipline whole block (Nat.le_refl _) builder)
    terminator

variable {adds : List Inst}

/-- Every block but the first may be entered with the stack pointer at the guest's. -/
theorem fine_block (host : StackHost cx M spReg sp) (discipline : StackDiscipline cx spReg sp mf)
    (whole : finalBuilder cx mf addrs = .ok fin) (blocks : mf.blocks ≠ []) {l : Label}
    (other : l ≠ entryLabel) : Fine cx mf M spReg sp (liftedBody cx adds fin l) := by
  rw [liftedBody_other other]
  exact ((host.function_sound discipline whole blocks).others l other).fine

theorem registration_quiet (registered : ∀ i ∈ adds, ∃ addr f, i = .symtabAdd addr f) :
    Quiet mf spReg adds := by
  intro i member
  obtain ⟨addr, f, rfl⟩ := registered i member
  exact ⟨rfl, rfl, rfl⟩

/-- The first block may be entered with the stack pointer of `register_state` there. -/
theorem keeps_entry (host : StackHost cx M spReg sp) (discipline : StackDiscipline cx spReg sp mf)
    (whole : finalBuilder cx mf addrs = .ok fin) (blocks : mf.blocks ≠ [])
    (registered : ∀ i ∈ adds, ∃ addr f, i = .symtabAdd addr f) {d : Data M.widths W}
    (at_ : StateAt cx.stats sp d.shared.slots slot) :
    Keeps cx mf spReg sp (liftedBody cx adds fin entryLabel) d slot := by
  obtain ⟨code, first, sound⟩ := (host.function_sound discipline whole blocks).entry
  rw [liftedBody_entry, first,
    saveRegistersBeforeReturn_append _ (plain_materialize cx.stats).noRet]
  refine keeps_quiet (P := fun _ => True) (registration_quiet registered) (fun i member read => ?_)
    (fun _ _ _ _ _ _ => trivial) trivial fun d₁ _ run => ?_
  · obtain ⟨addr, f, rfl⟩ := registered i member
    cases read
  obtain ⟨symtab, run'⟩ := Lifted.exec_adds (M := M) registered d
  obtain rfl := Option.some.inj (run.symm.trans run')
  refine keeps_loads host.rv.cell (registerLoad_materialize cx.stats) at_ (fun d' run => ?_) sound.fine
  obtain ⟨d'', run', reloaded⟩ := run_materializeRegisters host.widths
    { d with shared := { d.shared with symtab := symtab } }
  obtain rfl := Option.some.inj (run.symm.trans run')
  exact reloaded

end StackHost

end Bleach.RiscV
