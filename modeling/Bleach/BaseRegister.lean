import Bleach.Lifter.StackCode
import Bleach.RiscV

/-! The base register of a stack access. A load or store is lifted as a stack access
when any register it uses is tracked, and its slot is counted from the stack
pointer, whichever register the instruction names. -/
namespace Bleach
variable {W : Type} {cx : Context W} {mfs : List MachineFunction}
  {addrs : FuncId → FunctionAddresses} {M : IRModule W} {s : Site} {minst : MachineInstr}
  {st st' : Builder} {addr : Option (BitVec 64)} {base spReg : Register} {off : Int}

/-- Loads and stores of a register at an offset from a base register. -/
inductive MemoryAccess : MachineInstr → Register → Int → Prop where
  | load {desc rd base off} (loads : desc.mayLoad = true) (defs : desc.numDefs = 1) :
      MemoryAccess ⟨desc, [.reg rd true false, .reg base false false, .imm off]⟩ base off
  | store {desc rs base off} (loads : desc.mayLoad = false) (stores : desc.mayStore = true)
      (defs : desc.numDefs = 0) :
      MemoryAccess ⟨desc, [.reg rs false false, .reg base false false, .imm off]⟩ base off

/-- The law: an access goes to the stack exactly when its base register is tracked,
and then to the slot counted from the value of that register. -/
structure UsesOwnBase (cx : Context W) (M : IRModule W) (sptrack : StackPointerTracker)
    (base : Register) (off : Int) (code : List Inst) (d : Data M.widths W) : Prop where
  stack : (∃ i ∈ code, (i.stackIndex?).isSome = true) ↔ base ∈ sptrack
  slot : base ∈ sptrack → ∃ v, registerValue cx.stats d.locals base = some v ∧
    accessedSlots M code d = [⟨v.width, v.bits - BitVec.ofInt v.width (off.tdiv (v.width / 8 : Nat))⟩]

theorem MemoryAccess.used (access : MemoryAccess minst base off) : base ∈ minst.usedRegs := by
  cases access with
  | load _ defs => simp [MachineInstr.usedRegs, MachineInstr.uses, defs, MachineOperand.reg?]
  | store _ _ defs => simp [MachineInstr.usedRegs, MachineInstr.uses, defs, MachineOperand.reg?]

theorem MemoryAccess.slotOffset_eq (access : MemoryAccess minst base off) (bytes : Nat) :
    slotOffset minst bytes = -off.tdiv bytes := by
  have imm : minst.immOperand = some off := by
    cases access with
    | load _ defs =>
      simp only [MachineInstr.immOperand, MachineInstr.uses, defs]
      rfl
    | store _ _ defs =>
      simp only [MachineInstr.immOperand, MachineInstr.uses, defs]
      rfl
  simp [slotOffset, imm, Int.neg_tdiv]

/-- The tracker decides between the stack and memory. -/
theorem MemoryAccess.dispatch_eq (access : MemoryAccess minst base off) {T : StackPointerTracker}
    (straight : dispatch cx minst T ∉ [.ret, .indirect, .jump, .branch, .call]) :
    dispatch cx minst T = if usesStackPointer minst T then .stackAccess else .generic := by
  have memory : minst.mayLoadOrStore = true := by
    cases access with
    | load loads _ => simp [MachineInstr.mayLoadOrStore, loads]
    | store _ stores _ => simp [MachineInstr.mayLoadOrStore, stores]
  unfold dispatch isStackManipulation at *
  split_ifs at *
  all_goals simp_all

/-- The slot counted from one value is the slot counted from another exactly if the
values are equal. -/
theorem slot_eq_iff {w : Nat} (x : BitVec w) (v : APInt) (off : Int) :
    (if w = 64 then [(⟨w, x + (BitVec.ofInt 64 (-off.tdiv (w / 8 : Nat))).setWidth w⟩ : APInt)] else []) =
      [⟨v.width, v.bits - BitVec.ofInt v.width (off.tdiv (v.width / 8 : Nat))⟩] ↔
    ∃ y : BitVec 64, v = ⟨64, y⟩ ∧ (⟨w, x⟩ : APInt) = ⟨64, y⟩ := by
  obtain ⟨vw, y⟩ := v
  have cancel : ∀ {x y : BitVec 64} {k : Int},
      x + BitVec.ofInt 64 (-k) = y - BitVec.ofInt 64 k ↔ x = y := by
    intro x y k
    rw [BitVec.ofInt_neg, ← sub_eq_add_neg, sub_left_inj]
  by_cases wide : w = 64
  · subst wide
    rw [if_pos rfl, List.cons.injEq, APInt.mk.injEq]
    constructor
    · rintro ⟨⟨rfl, same⟩, -⟩
      rw [BitVec.setWidth_eq, heq_eq_eq] at same
      exact ⟨y, rfl, congrArg _ (cancel.mp same)⟩
    · rintro ⟨z, value, same⟩
      cases value
      cases same
      refine ⟨⟨rfl, heq_of_eq ?_⟩, rfl⟩
      rw [BitVec.setWidth_eq]
      exact cancel.mpr rfl
  · rw [if_neg wide]
    constructor
    · intro same
      cases same
    · rintro ⟨z, -, same⟩
      exact absurd (congrArg APInt.width same) wide

/-- A load or store uses its own base register exactly when none of its registers is
tracked, or the base register is and holds what the stack pointer holds. -/
theorem usesOwnBase_iff {finfo : Option FileInfo} {stackSize : Nat} {liftedPrefix : String}
    (module : bleachModule cx mfs addrs finfo stackSize liftedPrefix = .ok M)
    (sp : cx.stackPointer? = some spReg) (access : MemoryAccess minst base off)
    (straight : dispatch cx minst st.sptrack ∉ [.ret, .indirect, .jump, .branch, .call])
    (done : generateInstruction cx s addr minst st = .ok st') :
    ∃ code, st'.blocks st.cur = st.blocks st.cur ++ code ∧ ∀ d : Data M.widths W,
      UsesOwnBase cx M st.sptrack base off code d ↔
        (∀ r ∈ minst.usedRegs, r ∉ st.sptrack) ∨
        base ∈ st.sptrack ∧ ∃ x : BitVec 64, registerValue cx.stats d.locals base = some ⟨64, x⟩ ∧
          registerValue cx.stats d.locals spReg = some ⟨64, x⟩ := by
  obtain ⟨funcs, adds, -, lifted, -, -, -⟩ := lifted_of_bleachModule module
  rw [generateInstruction_eq, access.dispatch_eq straight] at done
  by_cases used : usesStackPointer minst st.sptrack = true
  · simp only [used, if_true] at done
    obtain ⟨spReg', c, rclass, code, sp', found, classed, appended, accesses, slots⟩ :=
      stackAccess_slots lifted.widths done
    obtain rfl := Option.some.inj (sp.symm.trans sp')
    have full := width_of_find lifted.widths found classed
    have value : ∀ d : Data M.widths W,
        registerValue cx.stats d.locals spReg = some ⟨M.widths c.cls, d.locals c⟩ :=
      fun d => congrArg (Option.map _) found
    have slots : ∀ d : Data M.widths W, accessedSlots M code d = if M.widths c.cls = 64 then
        [⟨_, d.locals c + (BitVec.ofInt 64 (-off.tdiv (M.widths c.cls / 8 : Nat))).setWidth _⟩] else [] :=
      fun d => by rw [slots d, access.slotOffset_eq, ← full]
    refine ⟨code, appended, fun d => ⟨fun law => .inr ?_, ?_⟩⟩
    · have tracked := law.stack.mp accesses
      obtain ⟨v, baseValue, slot⟩ := law.slot tracked
      obtain ⟨x, rfl, same⟩ := (slot_eq_iff _ v off).mp ((slots d).symm.trans slot)
      exact ⟨tracked, x, baseValue, (value d).trans (congrArg some same)⟩
    · rintro (untracked | ⟨tracked, x, baseValue, spValue⟩)
      · obtain ⟨r, member, tracked⟩ := List.any_eq_true.mp used
        exact absurd (of_decide_eq_true tracked) (untracked r member)
      · have same := Option.some.inj ((value d).symm.trans spValue)
        exact ⟨iff_of_true accesses tracked, fun _ => ⟨_, baseValue,
          (slots d).trans ((slot_eq_iff _ _ off).mpr ⟨x, rfl, same⟩)⟩⟩
  · simp only [used, Bool.false_eq_true, if_false] at done
    obtain ⟨_, -, done⟩ := bind_ok.mp done
    obtain ⟨_, -, done⟩ := bind_ok.mp done
    obtain ⟨code, appended, offStack⟩ := offStack_generic done
    have untracked : ∀ r ∈ minst.usedRegs, r ∉ st.sptrack := by
      simpa [usesStackPointer] using used
    have away := untracked base access.used
    refine ⟨code, appended, fun d => ⟨fun _ => .inl untracked, fun _ => ⟨?_, fun h => absurd h away⟩⟩⟩
    refine ⟨fun ⟨i, member, stack⟩ => ?_, fun h => absurd h away⟩
    simp [offStack i member] at stack

namespace RiscV

def frameBody : MachineBasicBlock := [addi X8 X2 16, ld X10 X8 8, ld X11 X2 8, ret]

def framePointer : MachineFunction := ⟨"frame", [frameBody]⟩

def frameModule : IRModule World := module [framePointer] none

/-- The state behind the first instruction if the stack pointer started at slot 10. -/
def framed : Data frameModule.widths World :=
  ⟨fun _ => none, fun c => if c.reg = X8 then 8 else 10, zeroed _⟩

/-- An access through `s0 = sp + 16` goes to the slot of the same offset from `sp`. -/
theorem framePointer_ignored : ¬∀ st st' addr code (d : Data frameModule.widths World),
    builderAt context framePointer none 0 1 = .ok st →
    generateInstruction context (framePointer.site 0 frameBody 1) addr (ld X10 X8 8) st = .ok st' →
    st'.blocks st.cur = st.blocks st.cur ++ code →
    UsesOwnBase context frameModule st.sptrack X8 8 code d := by
  intro law
  obtain ⟨v, value, slots⟩ := (law _ _ none
    (stackIndexCode (framePointer.site 0 frameBody 1) ⟨0, X2⟩ gpr (ld X10 X8 8) ++
      [.load (.result 0 1) 64 (.stack (.ssa (.index 0 1))), .store (.ssa (.result 0 1)) (.cell ⟨0, X10⟩)])
    framed rfl rfl rfl).slot (by decide)
  obtain rfl : v = ⟨64, 8⟩ := (Option.some.inj value).symm
  exact absurd slots (by decide)

/-- An access through `sp` uses its own base register in every state. -/
theorem stackPointer_used : ∃ st st' code,
    generateInstruction context (framePointer.site 0 frameBody 2) none (ld X11 X2 8) st = .ok st' ∧
    st'.blocks st.cur = st.blocks st.cur ++ code ∧ ∀ d : Data frameModule.widths World,
      UsesOwnBase context frameModule st.sptrack X2 8 code d := by
  obtain ⟨st, st', done, tracked, straight⟩ : ∃ st st',
      generateInstruction context (framePointer.site 0 frameBody 2) none (ld X11 X2 8) st = .ok st' ∧
      X2 ∈ st.sptrack ∧ dispatch context (ld X11 X2 8) st.sptrack ∉
        [.ret, .indirect, .jump, .branch, .call] :=
    ⟨⟨fun _ => [], entryLabel, {X2, X8}⟩, _, rfl, by decide, by decide⟩
  obtain ⟨code, appended, law⟩ := @usesOwnBase_iff World context [framePointer] (fun _ => none)
    frameModule (framePointer.site 0 frameBody 2) (ld X11 X2 8) st st' none X2 X2 8 none 64 "" rfl rfl
    (.load rfl rfl) straight done
  exact ⟨st, st', code, done, appended, fun d =>
    (law d).mpr (.inr ⟨tracked, d.locals ⟨0, X2⟩, rfl, rfl⟩)⟩

end RiscV
end Bleach
