import Bleach.Base.Fallible
import Bleach.Lifter.Module

/-! What each path of `generate_instruction` appends to which block. Every path
has one lemma; the rest of the development never unfolds a generator. -/
namespace Bleach
variable {W : Type} {cx : Context W} {s : Site} {minst : MachineInstr} {st st' : Builder}
  {addr : Option (BitVec 64)}

namespace Builder

/-- Code is only ever appended. -/
def Extends (st st' : Builder) : Prop := ∀ l, st.blocks l <+: st'.blocks l

theorem Extends.refl (st : Builder) : st.Extends st := fun _ => List.prefix_rfl

theorem Extends.trans {st st' st'' : Builder} (first : st.Extends st') (second : st'.Extends st'') :
    st.Extends st'' := fun l => (first l).trans (second l)

@[simp] theorem insert_blocks (st : Builder) (l l' : Label) (code : List Inst) :
    (st.insert l code).blocks l' = st.blocks l' ++ if l' = l then code else [] := by
  by_cases same : l' = l
  · subst same
    simp [insert]
  · simp [insert, same]

@[simp] theorem insert_cur (st : Builder) (l : Label) (code : List Inst) :
    (st.insert l code).cur = st.cur := rfl

@[simp] theorem insert_sptrack (st : Builder) (l : Label) (code : List Inst) :
    (st.insert l code).sptrack = st.sptrack := rfl

@[simp] theorem emit_blocks (st : Builder) (l : Label) (code : List Inst) :
    (st.emit code).blocks l = st.blocks l ++ if l = st.cur then code else [] :=
  insert_blocks st st.cur l code

@[simp] theorem emit_cur (st : Builder) (code : List Inst) : (st.emit code).cur = st.cur := rfl

@[simp] theorem emit_sptrack (st : Builder) (code : List Inst) :
    (st.emit code).sptrack = st.sptrack := rfl

theorem extends_insert (st : Builder) (l : Label) (code : List Inst) :
    st.Extends (st.insert l code) := fun l' => by simp

theorem extends_emit (st : Builder) (code : List Inst) : st.Extends (st.emit code) :=
  extends_insert st st.cur code

/-- The code appended where the builder stands. -/
def newCode (st st' : Builder) : List Inst := (st'.blocks st.cur).drop (st.blocks st.cur).length

end Builder

theorem generateInstruction_eq : generateInstruction cx s addr minst st =
    (match dispatch cx minst st.sptrack with
    | .ret => generateReturn st
    | .indirect => generateIndirectBranch cx s minst st
    | .jump => generateJump s minst st
    | .branch => generateBranch cx s minst st
    | .call => generateCall cx minst st
    | .stackAccess => generateLoadStoreFromStack cx s minst st
    | .stackPointerModification => do
      let _ ← pcArgument cx minst addr
      let _ ← findFunction cx minst
      generateStackPointerModification cx s minst { st with sptrack := addDef st.sptrack minst }
    | .generic => do
      let _ ← pcArgument cx minst addr
      let _ ← findFunction cx minst
      generateGeneric cx s minst addr st) := by
  unfold generateInstruction dispatch
  split_ifs <;> simp_all

theorem regAddr_ok {r : Register} {c : Cell} (done : regAddr cx r = .ok c) :
    cx.rmap.find r = some c := by
  unfold regAddr at done
  split at done
  · next addr found => exact (Except.ok.inj done) ▸ found
  · cases done

theorem getRegisterClassFor_ok {r : Register} {rclass : RegisterClass}
    (done : getRegisterClassFor cx r = .ok rclass) :
    cx.stats.getRegisterClassFor r = some rclass := by
  unfold getRegisterClassFor at done
  split at done
  · next found => exact (Except.ok.inj done) ▸ found
  · cases done

theorem findFunction_ok {f : InstrFunction W} (done : findFunction cx minst = .ok f) :
    cx.instrs.getFunction minst.desc.name = some f := by
  unfold findFunction at done
  split at done
  · next found => exact (Except.ok.inj done) ▸ found
  · cases done

theorem getStackPointer_ok {r : Register} (done : getStackPointer cx = .ok r) :
    cx.stackPointer? = some r := by
  unfold getStackPointer at done
  split at done
  · next found => exact (Except.ok.inj done) ▸ found
  · cases done

theorem readRegisterValue_ok {id : ValueId} {r : Register} {code : List Inst}
    (done : readRegisterValue cx id r = .ok code) :
    ∃ c rclass, cx.rmap.find r = some c ∧ cx.stats.getRegisterClassFor r = some rclass ∧
      code = [.load id rclass.bitsize (.cell c)] := by
  unfold readRegisterValue at done
  obtain ⟨c, found, done⟩ := bind_ok.mp done
  obtain ⟨rclass, classed, done⟩ := bind_ok.mp done
  exact ⟨c, rclass, regAddr_ok found, getRegisterClassFor_ok classed, (Except.ok.inj done).symm⟩

/-- The load an operand needs, and its value. -/
inductive OperandCode (cx : Context W) (id : ValueId) :
    MachineOperand → List Inst → Option Value → Prop where
  | constant {r isDef isImplicit k} (found : cx.instrs.constReg? cx.tm r = some k) :
      OperandCode cx id (.reg r isDef isImplicit) [] (some (.const (.ofInt 64 k.value)))
  | implicitDef {r} (varying : cx.instrs.constReg? cx.tm r = none) :
      OperandCode cx id (.reg r true true) [] none
  | register {r isImplicit c rclass} (varying : cx.instrs.constReg? cx.tm r = none)
      (found : cx.rmap.find r = some c) (classed : cx.stats.getRegisterClassFor r = some rclass) :
      OperandCode cx id (.reg r false isImplicit) [.load id rclass.bitsize (.cell c)] (some (.ssa id))
  | immediate {v} : OperandCode cx id (.imm v) [] (some (.const (.ofInt 64 v)))

theorem operandToValue_ok {id : ValueId} {op : MachineOperand} {load : List Inst}
    {val : Option Value} :
    operandToValue cx id op = .ok (load, val) ↔ OperandCode cx id op load val := by
  constructor
  · intro done
    unfold operandToValue at done
    split at done
    · next r isDef isImplicit =>
      split at done
      · next k found =>
        cases done
        exact .constant found
      · next absent =>
        split_ifs at done with implicit explicit
        · cases done
          obtain ⟨rfl, rfl⟩ : isDef = true ∧ isImplicit = true := by simpa using implicit
          exact .implicitDef absent
        · obtain ⟨rclass, classed, done⟩ := bind_ok.mp done
          obtain ⟨c, found, done⟩ := bind_ok.mp done
          cases done
          obtain rfl : isDef = false := by simpa using explicit
          exact .register absent (regAddr_ok found) (getRegisterClassFor_ok classed)
    · cases done
      exact .immediate
    · cases done
  · intro code
    cases code with
    | constant found => simp [operandToValue, found]
    | implicitDef varying => simp [operandToValue, varying]
    | register varying found classed =>
      simp [operandToValue, varying, getRegisterClassFor, classed, regAddr, found, bind, Except.bind]
    | immediate => rfl

/-- The loads of operand values, and the values. -/
def Operands (cx : Context W) (s : Site) (ops : List MachineOperand) (loads : List Inst)
    (args : List Value) : Prop :=
  ∃ vals, operandsToValues cx s ops 0 = .ok (loads, vals) ∧ requireArgs vals = .ok args

theorem required_values {vals : List (Option Value)} {args : List Value}
    (required : requireArgs vals = .ok args) : vals = args.map some := by
  induction vals generalizing args with
  | nil => cases required; rfl
  | cons val rest ih =>
    cases val with
    | none => cases required
    | some v =>
      obtain ⟨vs, later, done⟩ := bind_ok.mp required
      cases done
      simp [ih later]

theorem m2b_ok {b : BlockId} {l : Label} (done : s.m2b b = .ok l) : b < s.numBlocks ∧ l = .mbb b := by
  unfold Site.m2b at done
  split_ifs at done with bound
  exact ⟨bound, (Except.ok.inj done).symm⟩

/-- The blocks a conditional branch continues with when it is not taken. -/
inductive IfFalse (s : Site) : Label → Prop where
  | folded (next : MachineInstr) (b : BlockId) (found : s.next = some next)
      (unconditional : next.isUnconditionalBranch = true)
      (operand : (next.operands[0]?).bind MachineOperand.mbb? = some b) (bound : b < s.numBlocks) :
      IfFalse s (.mbb b)
  | split (next : MachineInstr) (found : s.next = some next)
      (other : next.isUnconditionalBranch = false) : IfFalse s (.split s.block s.idx)
  | fallthrough (last : s.next = none) (bound : s.block + 1 < s.numBlocks) :
      IfFalse s (.mbb (s.block + 1))

theorem getIfFalseBlock_ok {l : Label} (done : getIfFalseBlock s minst = .ok l) : IfFalse s l := by
  unfold getIfFalseBlock at done
  split_ifs at done with short
  cases found : s.next with
  | none =>
    obtain ⟨bound, rfl⟩ := m2b_ok (by simpa [found] using done)
    exact .fallthrough found bound
  | some next =>
    simp only [found] at done
    split_ifs at done with unconditional
    · split at done
      · next b operand =>
        obtain ⟨bound, rfl⟩ := m2b_ok done
        exact .folded _ b found unconditional operand bound
      · cases done
    · obtain rfl := Except.ok.inj done
      exact .split _ found (by simpa using unconditional)

theorem getIfTrueBlock_ok {l : Label} (done : getIfTrueBlock s minst = .ok l) :
    ∃ b, (minst.operands[2]?).bind MachineOperand.mbb? = some b ∧ b < s.numBlocks ∧ l = .mbb b := by
  unfold getIfTrueBlock at done
  split at done
  · next b operand => exact ⟨b, operand, m2b_ok done⟩
  · cases done

theorem generateJump_ok (done : generateJump s minst st = .ok st') :
    (s.prev.any MachineInstr.isConditionalBranch = true ∧ st' = st) ∨
    (s.prev.any MachineInstr.isConditionalBranch = false ∧ ∃ b, minst.mbbOperand = some b ∧
      b < s.numBlocks ∧ st' = st.emit [.br (.mbb b)]) := by
  unfold generateJump at done
  split_ifs at done with folded
  · exact .inl ⟨folded, (Except.ok.inj done).symm⟩
  · split at done
    · cases done
    · next b operand =>
      obtain ⟨l, found, emitted⟩ := bind_ok.mp done
      obtain ⟨bound, rfl⟩ := m2b_ok found
      exact .inr ⟨by simpa using folded, b, operand, bound, (Except.ok.inj emitted).symm⟩

theorem generateBranch_ok (done : generateBranch cx s minst st = .ok st') :
    ∃ f loads args b ifFalse, findFunction cx minst = .ok f ∧
      Operands cx s (minst.uses.filter (!·.isMBB)) loads args ∧
      (minst.operands[2]?).bind MachineOperand.mbb? = some b ∧ b < s.numBlocks ∧
      IfFalse s ifFalse ∧
      st' = { (st.insert s.label loads).emit
        [.callInstr (.result s.block s.idx) minst.desc.name args,
          .condBr (.ssa (.result s.block s.idx)) (.mbb b) ifFalse] with cur := ifFalse } := by
  unfold generateBranch at done
  obtain ⟨f, function, done⟩ := bind_ok.mp done
  obtain ⟨⟨loads, vals⟩, values, done⟩ := bind_ok.mp done
  obtain ⟨args, required, done⟩ := bind_ok.mp done
  obtain ⟨ifTrue, taken, done⟩ := bind_ok.mp done
  obtain ⟨ifFalse, untaken, done⟩ := bind_ok.mp done
  obtain ⟨b, operand, bound, rfl⟩ := getIfTrueBlock_ok taken
  exact ⟨f, loads, args, b, ifFalse, function, ⟨vals, values, required⟩, operand, bound,
    getIfFalseBlock_ok untaken, (Except.ok.inj done).symm⟩

theorem generateIndirectBranch_ok (done : generateIndirectBranch cx s minst st = .ok st') :
    ∃ loads arg rest, operandsToValues cx s (minst.uses.filter (!·.isMBB)) 0 =
        .ok (loads, some arg :: rest) ∧
      st' = (st.insert s.label loads).emit (.symtabLookup (.callee s.block s.idx) arg ::
        cx.save ++ .callPtr (.callee s.block s.idx) :: cx.reload) := by
  unfold generateIndirectBranch at done
  obtain ⟨⟨loads, vals⟩, values, done⟩ := bind_ok.mp done
  cases vals with
  | nil => cases done
  | cons val rest =>
    cases val with
    | none => cases done
    | some arg => exact ⟨loads, arg, rest, values, (Except.ok.inj done).symm⟩

theorem generateCall_ok (done : generateCall cx minst st = .ok st') :
    ∃ callee, minst.globalOperand = some callee ∧
      st' = st.emit (cx.save ++ .call callee :: if cx.functionsNop then [] else cx.reload) := by
  unfold generateCall at done
  split at done
  · cases done
  · next callee operand => exact ⟨callee, operand, (Except.ok.inj done).symm⟩

/-- The code in front of a stack access: the slot index is always computed from
the stack pointer itself. -/
def stackIndexCode (s : Site) (sp : Cell) (rclass : RegisterClass) (minst : MachineInstr) : List Inst :=
  [.load (.sp s.block s.idx) rclass.bitsize (.cell sp),
    .add (.index s.block s.idx) (.ssa (.sp s.block s.idx))
      (.const (.ofInt 64 (slotOffset minst (rclass.bitsize / 8))))]

theorem generateLoadStoreFromStack_ok (done : generateLoadStoreFromStack cx s minst st = .ok st') :
    ∃ spReg sp rclass write, cx.stackPointer? = some spReg ∧ cx.rmap.find spReg = some sp ∧
      cx.stats.getRegisterClassFor spReg = some rclass ∧
      storeResult cx minst (.ssa (.result s.block s.idx)) = .ok write ∧
      ((minst.desc.mayLoad = true ∧ minst.desc.mayStore = false ∧
          ∃ f, cx.instrs.getFunction minst.desc.name = some f ∧
            st' = (st.emit (stackIndexCode s sp rclass minst)).emit
              (.load (.result s.block s.idx) f.ret (.stack (.ssa (.index s.block s.idx))) :: write)) ∨
        (minst.desc.mayLoad = false ∧ ∃ op a o load value, minst.uses = [op, a, o] ∧
          operandToValue cx (.operand s.block s.idx 0) op = .ok (load, some value) ∧
          st' = ((st.emit (stackIndexCode s sp rclass minst)).insert s.label load).emit
            (.store value (.stack (.ssa (.index s.block s.idx))) :: write))) := by
  unfold generateLoadStoreFromStack at done
  obtain ⟨spReg, named, done⟩ := bind_ok.mp done
  obtain ⟨rclass, classed, done⟩ := bind_ok.mp done
  obtain ⟨readSp, read, done⟩ := bind_ok.mp done
  obtain ⟨sp, rclass', found, classed', rfl⟩ := readRegisterValue_ok read
  have classed := getRegisterClassFor_ok classed
  obtain rfl := Option.some.inj (classed.symm.trans classed')
  refine ⟨spReg, sp, rclass, ?_⟩
  cases loads : minst.desc.mayLoad with
  | true =>
    cases stores : minst.desc.mayStore with
    | true => simp [loads, stores] at done
    | false =>
      simp only [loads, stores, if_true, Bool.false_eq_true, if_false] at done
      obtain ⟨f, function, done⟩ := bind_ok.mp done
      obtain ⟨write, result, done⟩ := bind_ok.mp done
      exact ⟨write, getStackPointer_ok named, found, classed, result, .inl ⟨rfl, rfl, f,
        findFunction_ok function, (Except.ok.inj done).symm⟩⟩
  | false =>
    simp only [loads, Bool.false_eq_true, if_false] at done
    split at done
    · next op a o uses =>
      obtain ⟨⟨load, val⟩, operand, done⟩ := bind_ok.mp done
      obtain ⟨args, required, done⟩ := bind_ok.mp done
      split at done
      · next value =>
        obtain ⟨write, result, done⟩ := bind_ok.mp done
        cases val with
        | none => cases required
        | some v =>
          obtain rfl : v = value := by simpa [requireArgs, bind, Except.bind] using required
          exact ⟨write, getStackPointer_ok named, found, classed, result, .inr ⟨rfl, op, a, o,
            load, v, uses, operand, (Except.ok.inj done).symm⟩⟩
      · cases done
    · cases done

theorem generateStackPointerModification_ok
    (done : generateStackPointerModification cx s minst st = .ok st') :
    ∃ imm loads args writes, minst.immOperand = some imm ∧
      Operands cx s (minst.uses.map (slotOperand imm)) loads args ∧
      writeDefs cx (.ssa (.result s.block s.idx)) minst.defs = .ok writes ∧
      st' = (st.insert s.label loads).emit
        (.callInstr (.result s.block s.idx) minst.desc.name args :: writes) := by
  unfold generateStackPointerModification at done
  split at done
  · cases done
  · next imm found =>
    obtain ⟨⟨loads, vals⟩, values, done⟩ := bind_ok.mp done
    obtain ⟨args, required, done⟩ := bind_ok.mp done
    obtain ⟨writes, written, done⟩ := bind_ok.mp done
    exact ⟨imm, loads, args, writes, found, ⟨vals, values, required⟩, written,
      (Except.ok.inj done).symm⟩

theorem generateGeneric_ok (done : generateGeneric cx s minst addr st = .ok st') :
    ∃ f loads args pc writes, cx.instrs.getFunction minst.desc.name = some f ∧
      Operands cx s (minst.uses.filter MachineOperand.isArgument) loads args ∧
      pcArgument cx minst addr = .ok pc ∧
      writeDefs cx (.ssa (.result s.block s.idx)) minst.defs = .ok writes ∧
      st' = { (st.insert s.label loads).emit ((castArgs s (args ++ pc) f.params 0).1 ++
          .callInstr (.result s.block s.idx) minst.desc.name
            (castArgs s (args ++ pc) f.params 0).2 :: writes) with
        sptrack := eraseDefs st.sptrack minst } := by
  unfold generateGeneric at done
  obtain ⟨f, function, done⟩ := bind_ok.mp done
  obtain ⟨⟨loads, vals⟩, values, done⟩ := bind_ok.mp done
  obtain ⟨args, required, done⟩ := bind_ok.mp done
  obtain ⟨pc, counter, done⟩ := bind_ok.mp done
  obtain ⟨writes, written, done⟩ := bind_ok.mp done
  exact ⟨f, loads, args, pc, writes, findFunction_ok function, ⟨vals, values, required⟩, counter,
    written, (Except.ok.inj done).symm⟩

end Bleach
