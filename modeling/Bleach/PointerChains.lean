import Bleach.PointerArithmetic
import Bleach.Lifter.Chunk
import Mathlib.Algebra.BigOperators.Ring.List

/-! Chains of register-immediate instructions on pointers into the stack, lifted and
executed beside the guest. -/
namespace Bleach.RiscV
variable {W : Type} {w : Nat → Nat} {cx : Context W} {M : IRModule W} {s : Site} {st st' : Builder}
  {addr : Option (BitVec 64)} {B : BitVec 64}

def ImmOp.desc (op : ImmOp) : InstrDesc := { name := op.name, numDefs := 1 }

def ImmOp.function (op : ImmOp) : InstrFunction W where
  params := [64, 64]
  ret := 64
  eval
    | [a, b], world => (op.template (a.bits.setWidth 64) (b.bits.setWidth 64)).map (·, world)
    | _, _ => none

structure PointerOp where
  op : ImmOp
  rd : Register
  rs : Register
  imm : Int

namespace PointerOp

def instr (p : PointerOp) : MachineInstr := ⟨p.op.desc, [dst p.rd, use p.rs, .imm p.imm]⟩

def guestStep (p : PointerOp) (regs : Register → BitVec 64) : Register → BitVec 64 :=
  Function.update regs p.rd (p.op.guest (regs p.rs) p.imm)

variable (p : PointerOp)

@[simp] theorem instr_desc : p.instr.desc = p.op.desc := rfl

@[simp] theorem instr_defs : p.instr.defs = [dst p.rd] := rfl

@[simp] theorem instr_uses : p.instr.uses = [use p.rs, .imm p.imm] := rfl

@[simp] theorem instr_immOperand : p.instr.immOperand = some p.imm := rfl

end PointerOp

/-- A register of 64 bits with a variable of its own. -/
def PointerRegister (cx : Context W) (r : Register) : Prop :=
  ∃ cls, cx.rmap.find r = some ⟨cls, r⟩ ∧ cx.stats.widths cls = 64 ∧ cx.instrs.constReg? cx.tm r = none

/-- The opcodes are configured as the template has them for RV64. -/
structure ImmHost (cx : Context W) (M : IRModule W) (spReg : Register) : Prop where
  widths : M.widths = cx.stats.widths
  getFunction : M.getFunction = cx.instrs.getFunction
  functions : ∀ op : ImmOp, cx.instrs.getFunction op.name = some op.function
  ordinary : ∀ (minst : MachineInstr) (op : ImmOp), minst.desc = op.desc →
    isReturn cx minst = false ∧ isIndirectBranch cx minst = false ∧ isPcRelative cx minst = false
  constants : ∃ vals, constRegsVals cx cx.instrs.constRegs = .ok vals
  stackPointer : PointerRegister cx spReg

/-- The code of a modification: the operand, the call and the write. -/
def modificationCode (s : Site) (p : PointerOp) (cls cls' : Nat) : List Inst :=
  [.load (.operand s.block s.idx 0) 64 (.cell ⟨cls, p.rs⟩),
    .callInstr (.result s.block s.idx) p.op.name
      [.ssa (.operand s.block s.idx 0), .const (.ofInt 64 ((-p.imm).tdiv 8))],
    .store (.ssa (.result s.block s.idx)) (.cell ⟨cls', p.rd⟩)]

namespace ImmHost
variable {spReg : Register} {p : PointerOp}

theorem dispatch_eq (host : ImmHost cx M spReg) {T : StackPointerTracker} (tracked : p.rs ∈ T) :
    dispatch cx p.instr T = .stackPointerModification := by
  obtain ⟨ret, indirect, -⟩ := host.ordinary p.instr p.op rfl
  have branch : isBranch p.instr = false := rfl
  have call : isCall p.instr = false := rfl
  have memory : p.instr.mayLoadOrStore = false := rfl
  have defines : definesRegister p.instr = true := rfl
  have used : usesStackPointer p.instr T = true :=
    List.any_eq_true.mpr ⟨p.rs, by simp [MachineInstr.usedRegs, use, MachineOperand.reg?],
      decide_eq_true tracked⟩
  simp [dispatch, ret, indirect, branch, call, isStackManipulation, memory, defines, used]

/-- What the lifting of a modification emits. -/
theorem generate_eq (host : ImmHost cx M spReg) (addr : Option (BitVec 64)) (tracked : p.rs ∈ st.sptrack)
    {cls cls' : Nat}
    (source : cx.rmap.find p.rs = some ⟨cls, p.rs⟩) (wide : cx.stats.widths cls = 64)
    (varying : cx.instrs.constReg? cx.tm p.rs = none)
    (dest : cx.rmap.find p.rd = some ⟨cls', p.rd⟩) (varying' : cx.instrs.constReg? cx.tm p.rd = none)
    (own : st.cur = s.label) : ∃ st', generateInstruction cx s addr p.instr st = .ok st' ∧
      st'.cur = st.cur ∧ st'.sptrack = insert p.rd st.sptrack ∧
      st'.blocks st.cur = st.blocks st.cur ++ modificationCode s p cls cls' := by
  obtain ⟨-, -, absolute⟩ := host.ordinary p.instr p.op rfl
  obtain ⟨vals, constants⟩ := host.constants
  obtain ⟨rclass, -, classed⟩ := class_of_find source
  obtain ⟨rclass', -, classed'⟩ := class_of_find dest
  have bits : rclass.bitsize = 64 := (bitsize_of_find source classed).trans wide
  have operand : operandToValue cx (.operand s.block s.idx 0) (use p.rs) =
      .ok ([.load (.operand s.block s.idx 0) 64 (.cell ⟨cls, p.rs⟩)],
        some (.ssa (.operand s.block s.idx 0))) := by
    rw [← bits]
    exact operandToValue_ok.mpr (.register varying source classed)
  have values : operandsToValues cx s (p.instr.uses.map (slotOperand p.imm)) 0 =
      .ok ([.load (.operand s.block s.idx 0) 64 (.cell ⟨cls, p.rs⟩)],
        [some (.ssa (.operand s.block s.idx 0)), some (.const (.ofInt 64 ((-p.imm).tdiv 8)))]) := by
    have slot : p.instr.uses.map (slotOperand p.imm) = [use p.rs, .imm ((-p.imm).tdiv 8)] := by
      simp [slotOperand, use]
    simp only [slot, operandsToValues, operand, bind, Except.bind]
    rfl
  have writes : writeDefs cx (.ssa (.result s.block s.idx)) p.instr.defs =
      .ok [.store (.ssa (.result s.block s.idx)) (.cell ⟨cls', p.rd⟩)] := by
    simp [writeDefs, dst, writeValueToRegister, regAddr, dest, constants, getRegisterClassFor, classed',
      varying', bind, Except.bind]
  rw [generateInstruction_eq, host.dispatch_eq tracked]
  simp only [pcArgument, absolute, findFunction, PointerOp.instr_desc, ImmOp.desc, host.functions,
    generateStackPointerModification, PointerOp.instr_immOperand, values, writes, requireArgs, bind,
    Except.bind, Bool.false_eq_true, if_false]
  refine ⟨_, rfl, rfl, rfl, ?_⟩
  simp [own, modificationCode]

/-- The function of the instruction is applied to a slot and a number of slots. -/
theorem exec_call (host : ImmHost cx M spReg) {id : ValueId} {x y : Value} {a b : BitVec 64}
    {d : Data M.widths W} (left : evalInt d.env x = some ⟨64, a⟩) (right : evalInt d.env y = some ⟨64, b⟩) :
    execInst M d (.callInstr id p.op.name [x, y]) =
      (p.op.template a b).map fun t => d.bind id (.int ⟨64, t⟩) := by
  simp only [execInst, host.getFunction, host.functions, List.mapM_cons, List.mapM_nil, left, right,
    ImmOp.function, Option.bind_eq_bind, Option.bind_some, Option.pure_def, List.map_cons, List.map_nil,
    if_true, BitVec.setWidth_eq]
  cases p.op.template a b <;> rfl

theorem exec_modification (host : ImmHost cx M spReg) {cls cls' : Nat} (wide : M.widths cls = 64)
    (wide' : M.widths cls' = 64) (s : Site) (d : Data M.widths W) :
    match p.op.template ((d.locals ⟨cls, p.rs⟩).setWidth 64) (slots p.imm) with
    | some t => ∃ d', execCode M (modificationCode s p cls cls') d = some d' ∧
        d'.locals = Function.update d.locals ⟨cls', p.rd⟩ (t.setWidth _) ∧ d'.shared = d.shared
    | none => execCode M (modificationCode s p cls cls') d = none := by
  rw [modificationCode, execCode, exec_load64 wide, Option.bind_some, execCode,
    host.exec_call (a := (d.locals ⟨cls, p.rs⟩).setWidth 64) (b := slots p.imm)
      (by simp [evalInt, evalValue, Data.bind]) rfl]
  cases p.op.template ((d.locals ⟨cls, p.rs⟩).setWidth 64) (slots p.imm) with
  | none => rfl
  | some t =>
    rw [Option.map_some, Option.bind_some, execCode,
      exec_store64 wide' (x := t) (by simp [evalInt, evalValue, Data.bind])]
    exact ⟨_, rfl, rfl, rfl⟩

end ImmHost

/-- The tracked registers hold the slots of the guest's pointers. -/
def Mapped (cx : Context W) (B : BitVec 64) (T : StackPointerTracker) (locals : Locals w)
    (guest : Register → BitVec 64) : Prop :=
  ∀ r ∈ T, ∃ cls, cx.rmap.find r = some ⟨cls, r⟩ ∧ cx.stats.widths cls = 64 ∧
    cx.instrs.constReg? cx.tm r = none ∧ Covers B ((locals ⟨cls, r⟩).setWidth 64) (guest r)

/-- Each instruction reads a tracked register, and its result is tracked from then on. -/
def Chain (cx : Context W) : StackPointerTracker → List PointerOp → Prop
  | _, [] => True
  | T, p :: rest => p.rs ∈ T ∧ PointerRegister cx p.rd ∧ Chain cx (insert p.rd T) rest

theorem Mapped.write {T : StackPointerTracker} {locals : Locals w} {guest : Register → BitVec 64}
    (mapped : Mapped cx B T locals guest) (wide : w = cx.stats.widths) {rd : Register} {cls : Nat}
    (dest : cx.rmap.find rd = some ⟨cls, rd⟩) (width : cx.stats.widths cls = 64)
    (varying : cx.instrs.constReg? cx.tm rd = none) {t a : BitVec 64} (covers : Covers B t a) :
    Mapped cx B (insert rd T) (Function.update locals ⟨cls, rd⟩ (t.setWidth _))
      (Function.update guest rd a) := by
  intro r member
  by_cases own : r = rd
  · subst own
    have full : ((t.setWidth (w cls)).setWidth 64 : BitVec 64) = t := by
      rw [wide, width]
      simp
    refine ⟨cls, dest, width, varying, ?_⟩
    rw [Function.update_self, Function.update_self, full]
    exact covers
  · obtain ⟨cls', found, width', varying', covers'⟩ := mapped r (Finset.mem_of_mem_insert_of_ne member own)
    refine ⟨cls', found, width', varying', ?_⟩
    rw [Function.update_of_ne own, Function.update_of_ne fun same => own (congrArg Cell.reg same)]
    exact covers'

/-- One instruction that keeps slots keeps the map. -/
theorem ImmHost.step_mapped {spReg : Register} (host : ImmHost cx M spReg) {p : PointerOp}
    (tracked : p.rs ∈ st.sptrack) (pointer : PointerRegister cx p.rd) (own : st.cur = s.label)
    (commutes : Commutes B p.op p.imm) {d : Data M.widths W} {guest : Register → BitVec 64}
    (mapped : Mapped cx B st.sptrack d.locals guest)
    (done : generateInstruction cx s addr p.instr st = .ok st') :
    st'.cur = st.cur ∧ st'.sptrack = insert p.rd st.sptrack ∧
      ∃ code d', st'.blocks st.cur = st.blocks st.cur ++ code ∧ execCode M code d = some d' ∧
        d'.shared = d.shared ∧ Mapped cx B st'.sptrack d'.locals (p.guestStep guest) := by
  obtain ⟨cls, source, width, varying, covers⟩ := mapped p.rs tracked
  obtain ⟨cls', dest, width', varying'⟩ := pointer
  obtain ⟨_, lifted, cur, sptrack, blocks⟩ :=
    host.generate_eq addr tracked source width varying dest varying' own
  obtain rfl := Except.ok.inj (lifted.symm.trans done)
  obtain ⟨t, computes, result⟩ := commutes _ _ covers
  have run := host.exec_modification (p := p) (host.widths ▸ width) (host.widths ▸ width') s d
  rw [computes] at run
  obtain ⟨d', run, locals, shared⟩ := run
  refine ⟨cur, sptrack, _, d', blocks, run, shared, ?_⟩
  rw [sptrack, locals]
  exact mapped.write host.widths dest width' varying' result

/-- Lifted chains of allowed instructions keep the map. -/
def ChainsMapped (cx : Context W) (M : IRModule W) (B : BitVec 64) (allowed : ImmOp → Int → Prop) : Prop :=
  ∀ (s : Site) (addrs : BlockAddresses) (chain : List PointerOp) (st st' : Builder)
    (d : Data M.widths W) (guest : Register → BitVec 64),
    (∀ p ∈ chain, p.op.Encodes p.imm ∧ allowed p.op p.imm) → Chain cx st.sptrack chain →
      st.cur = s.label → Mapped cx B st.sptrack d.locals guest →
      fillInstrs cx s addrs (chain.map PointerOp.instr) st = .ok st' →
      ∃ d', execCode M (st.newCode st') d = some d' ∧ d'.shared = d.shared ∧
        Mapped cx B st'.sptrack d'.locals (chain.foldl (fun regs p => p.guestStep regs) guest)

theorem ImmHost.run_mapped {spReg : Register} (host : ImmHost cx M spReg) {addrs : BlockAddresses}
    {chain : List PointerOp} (commutes : ∀ p ∈ chain, Commutes B p.op p.imm)
    (reads : Chain cx st.sptrack chain) (own : st.cur = s.label) {d : Data M.widths W}
    {guest : Register → BitVec 64} (mapped : Mapped cx B st.sptrack d.locals guest)
    (done : fillInstrs cx s addrs (chain.map PointerOp.instr) st = .ok st') :
    st'.cur = st.cur ∧ ∃ code d', st'.blocks st.cur = st.blocks st.cur ++ code ∧
      execCode M code d = some d' ∧ d'.shared = d.shared ∧
      Mapped cx B st'.sptrack d'.locals (chain.foldl (fun regs p => p.guestStep regs) guest) := by
  induction chain generalizing s st d guest with
  | nil =>
    obtain rfl := Except.ok.inj done
    exact ⟨rfl, [], d, (List.append_nil _).symm, rfl, rfl, mapped⟩
  | cons p rest ih =>
    obtain ⟨tracked, pointer, reads⟩ := reads
    obtain ⟨first, others⟩ := List.forall_mem_cons.mp commutes
    obtain ⟨addr, -, done⟩ := bind_ok.mp done
    obtain ⟨st₁, lifted, done⟩ := bind_ok.mp done
    obtain ⟨cur, sptrack, code, d₁, blocks, run, shared, mapped₁⟩ :=
      host.step_mapped tracked pointer own first mapped lifted
    have own₁ : st₁.cur = ({ s with idx := s.idx + 1 } : Site).label := cur.trans own
    obtain ⟨cur', code', d', blocks', run', shared', mapped'⟩ :=
      ih others (sptrack ▸ reads) own₁ mapped₁ done
    refine ⟨cur'.trans cur, code ++ code', d', ?_, ?_, shared'.trans shared, mapped'⟩
    · rw [← cur, blocks', cur, blocks, List.append_assoc]
    · rw [execCode_append, run, Option.bind_some, run']

/-- A chain of one instruction shows what the instruction does to any slot. -/
theorem ImmHost.commutes_of_chain {spReg : Register} (host : ImmHost cx M spReg)
    (shared : Shared M.widths W) {allowed : ImmOp → Int → Prop} (mapped : ChainsMapped cx M B allowed)
    {op : ImmOp} {imm : Int} (fits : op.Encodes imm) (included : allowed op imm) : Commutes B op imm := by
  obtain ⟨cls, found, width, varying⟩ := host.stackPointer
  have full : M.widths cls = 64 := host.widths ▸ width
  intro slot a covers
  let p : PointerOp := ⟨op, spReg, spReg, imm⟩
  let s : Site := ⟨1, 0, [], 0⟩
  let st : Builder := ⟨fun _ => [], s.label, {spReg}⟩
  let d : Data M.widths W := ⟨fun _ => none, fun _ => slot.setWidth _, shared⟩
  have narrow : ∀ v : BitVec 64, ((v.setWidth (M.widths cls)).setWidth 64 : BitVec 64) = v := by
    intro v
    rw [full]
    simp
  have tracked : p.rs ∈ st.sptrack := Finset.mem_singleton_self spReg
  obtain ⟨st', lifted, cur, sptrack, blocks⟩ := host.generate_eq (s := s) none tracked found width varying
    found varying rfl
  have done : fillInstrs cx s none [p.instr] st = .ok st' := by
    simp only [fillInstrs, instrAddress, lifted, bind, Except.bind]
  have start : Mapped cx B st.sptrack d.locals fun _ => a := by
    intro r member
    obtain rfl := Finset.mem_singleton.mp member
    exact ⟨cls, found, width, varying, (narrow slot).symm ▸ covers⟩
  obtain ⟨d', run, -, after⟩ := mapped s none [p] st st' d (fun _ => a)
    (by simpa using ⟨fits, included⟩) ⟨Finset.mem_singleton_self _, host.stackPointer, trivial⟩ rfl start done
  have code : st.newCode st' = modificationCode s p cls cls := by
    rw [Builder.newCode, blocks, List.drop_left]
  have result := host.exec_modification (p := p) full full s d
  rw [← code, run] at result
  have source : (d.locals ⟨cls, p.rs⟩).setWidth 64 = slot := narrow slot
  rw [source] at result
  cases computes : op.template slot (slots imm) with
  | none => simp [p, computes] at result
  | some t =>
    rw [show p.op.template slot (slots p.imm) = some t from computes] at result
    obtain ⟨d'', same, locals, -⟩ := result
    obtain rfl := Option.some.inj same
    have member : spReg ∈ st'.sptrack := sptrack ▸ Finset.mem_insert_self ..
    obtain ⟨cls', found', -, -, result⟩ := after spReg member
    obtain rfl : cls' = cls := congrArg Cell.cls (Option.some.inj (found'.symm.trans found))
    rw [locals] at result
    have written : (Function.update d.locals ⟨cls', p.rd⟩ (t.setWidth _) ⟨cls', spReg⟩).setWidth 64 = t := by
      rw [show (⟨cls', p.rd⟩ : Cell) = ⟨cls', spReg⟩ from rfl, Function.update_self]
      exact narrow t
    have moved : [p].foldl (fun regs p => p.guestStep regs) (fun _ => a) spReg = op.guest a imm := by
      simp [PointerOp.guestStep, p]
    rw [written, moved] at result
    exact ⟨t, rfl, result⟩

/-- Chains of the allowed instructions keep the map exactly where each of them keeps slots. -/
theorem chains_mapped_iff {spReg : Register} (host : ImmHost cx M spReg) (shared : Shared M.widths W)
    (B : BitVec 64) (allowed : ImmOp → Int → Prop) : ChainsMapped cx M B allowed ↔
      ∀ op imm, ImmOp.Encodes op imm → allowed op imm → KeepsSlots B op imm := by
  constructor
  · intro mapped op imm fits included
    exact (commutes_iff fits).mp (host.commutes_of_chain shared mapped fits included)
  · intro keeps s addrs chain st st' d guest allowed reads own mapped done
    have commutes : ∀ p ∈ chain, Commutes B p.op p.imm := by
      intro p member
      obtain ⟨fits, included⟩ := allowed p member
      exact (commutes_iff fits).mpr (keeps p.op p.imm fits included)
    obtain ⟨-, code, d', blocks, run, shared, after⟩ := host.run_mapped commutes reads own mapped done
    refine ⟨d', ?_, shared, after⟩
    rw [Builder.newCode, blocks, List.drop_left, run]

/-- Whole slots add up: chains of additions with one total end in one slot. -/
theorem foldl_slots {imms : List Int} (whole : ∀ imm ∈ imms, 8 ∣ imm) (slot : BitVec 64) :
    imms.foldl (fun s imm => s + slots imm) slot = slot + slots imms.sum := by
  induction imms generalizing slot with
  | nil => exact (add_zero slot).symm
  | cons imm rest ih =>
    obtain ⟨⟨k, rfl⟩, others⟩ := List.forall_mem_cons.mp whole
    obtain ⟨l, total⟩ : 8 ∣ rest.sum := List.dvd_sum others
    have quotient : ∀ n : Int, (-(8 * n)).tdiv 8 = -n := by
      intro n
      rw [← Int.mul_neg, Int.mul_tdiv_cancel_left _ (by omega)]
    rw [List.foldl_cons, ih others, List.sum_cons, total, ← Int.mul_add, slots, slots, slots, quotient,
      quotient, quotient, Int.neg_add, BitVec.ofInt_add, add_assoc]

def immContext : Context World where
  instrs :=
    { instrs := [ImmOp.addi, .andi, .ori, .xori, .sltiu, .slli, .srli, .srai, .addiw, .slliw, .srliw,
        .sraiw].map fun op => { name := op.name, irModule := some op.function }
      stackPointer := "X2", constRegs := [⟨"X0", 0⟩] }
  tm := target
  stats := [gpr]

def immModule : IRModule World := ⟨immContext.stats.widths, 64, 0, immContext.instrs.getFunction, []⟩

theorem immHost : ImmHost immContext immModule 2 := by
  refine ⟨rfl, rfl, ?_, ?_, ⟨_, rfl⟩, 0, by decide, by decide, by decide⟩
  · intro op
    cases op <;> rfl
  · intro minst op desc
    cases op <;> simp only [isReturn, isIndirectBranch, isPcRelative, desc] <;> exact ⟨rfl, rfl, rfl⟩

/-- The slot a chain leaves in `X10`. -/
def chainSlot (chain : List PointerOp) (slot : BitVec 64) : Option (BitVec 64) :=
  let st : Builder := ⟨fun _ => [], .mbb 0, {2}⟩
  match fillInstrs immContext ⟨1, 0, [], 0⟩ none (chain.map PointerOp.instr) st with
  | .ok st' =>
    (execCode immModule (st.newCode st') ⟨fun _ => none, fun _ => slot.setWidth _, zeroed _⟩).map
      fun d => (d.locals ⟨0, 10⟩).setWidth 64
  | .error _ => none

/-- Two steps of four bytes end in another slot than one of eight, and the stack pointer is
aligned to an address above the guest's. -/
theorem chains_diverge :
    chainSlot [⟨.addi, 10, 2, 4⟩, ⟨.addi, 10, 10, 4⟩] 5 = some 5 ∧
      chainSlot [⟨.addi, 10, 2, 8⟩] 5 = some 4 ∧
      chainSlot [⟨.andi, 10, 2, -16⟩] 3 = some 2 ∧
      ∀ B : BitVec 64, B = 0x80000000 → Covers B 3 (B - 24) ∧ ¬Covers B 2 (ImmOp.andi.guest (B - 24) (-16)) := by
  refine ⟨by decide +kernel, by decide +kernel, by decide +kernel, ?_⟩
  rintro _ rfl
  decide

/-- Allocations of frames of 16 bytes keep the map, however many. -/
theorem frame_chains_mapped : ChainsMapped immContext immModule 0x80000000#64
    fun op imm => op = .addi ∧ imm = -16 := by
  apply (chains_mapped_iff immHost (zeroed _) _ _).mpr
  rintro _ _ - ⟨rfl, rfl⟩
  exact ⟨-2, rfl⟩

end Bleach.RiscV
