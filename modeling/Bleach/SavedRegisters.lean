import Bleach.StackSimulation
import Bleach.AccessWidths

/-! Saved registers. A save writes the slot of the guest's address and nothing else
writes that slot unless it is saved to again, so that in any call tree what a
function saves in its prologue it restores in its epilogue. -/
namespace Bleach.RiscV
open SlotMirror (Mirrors slotAddress)
open Transition
variable {W : Type} {w : Nat → Nat} {cx : Context W} {mfs : List MachineFunction}
  {addrs : FuncId → FunctionAddresses} {adds : List Inst} {M : IRModule W} {spReg : Register}
  {sp : Cell} {B : BitVec 64} {g : StackGuest}

section
variable {s t : Config M.widths W × StackGuest} {r : Register} {a : BitVec 64}

theorem saving_eq (saving : saving? mfs spReg s = some (r, a)) : ∃ fr rest mf value b k code,
    s.1.frames = fr :: rest ∧ mfs[fr.func]? = some mf ∧
      fr.code = .store value (.stack (.ssa (.index b k))) :: code ∧
      (mf.instr? b k).bind (saves? spReg · s.2.sp) = some (r, a) := by
  obtain ⟨fr, top, saving⟩ := Option.bind_eq_some_iff.mp saving
  obtain ⟨mf, found, saving⟩ := Option.bind_eq_some_iff.mp saving
  obtain ⟨rest, frames⟩ := List.head?_eq_some_iff.mp top
  split at saving
  · next value b k code at_ => exact ⟨fr, rest, mf, value, b, k, code, frames, found, at_, saving⟩
  · cases saving

/-- A step that saves writes its register to the slot of the guest's address. -/
theorem StackProgram.saving_step (program : StackProgram cx mfs addrs adds M spReg sp)
    (inStep : InStep cx mfs B spReg sp M s.1 s.2) (saving : saving? mfs spReg s = some (r, a))
    (done : pairedStep cx mfs spReg M s = some t) : ∃ x fr rest, s.1.frames = fr :: rest ∧
      x < M.stackCount ∧ slotAddress B 8 x = a ∧
      t.1.shared.stack = ByteMemory.store s.1.shared.stack (x * 8) (operandValue cx fr.locals r) 8 ∧
      t.2.mem = ByteMemory.store s.2.mem a (operandValue cx fr.locals r) 8 := by
  obtain ⟨fr, rest, mf, value, b, k, code, top, found, at_, saves⟩ := saving_eq saving
  obtain ⟨⟨frames, shared⟩, g⟩ := s
  obtain rfl : frames = fr :: rest := top
  obtain ⟨c, step, rfl⟩ := Option.map_eq_some_iff.mp done
  obtain ⟨mf', found', accesses⟩ := program.accesses inStep at_
  obtain rfl := Option.some.inj (found.symm.trans found')
  obtain ⟨d, one, rfl⟩ := stepped_plain at_ rfl step
  cases accesses rfl with
  | @store b k rs offset x value here index address stored =>
    rw [here, Option.bind_some, saves_sd] at saves
    obtain ⟨rfl, rfl⟩ := Prod.mk.inj (Option.some.inj saves)
    have eval : evalInt (fr.data shared).env (.ssa (.index b k)) = some ⟨64, x⟩ := by
      simp [evalInt, evalValue, index]
    obtain ⟨v, present, -⟩ := Option.bind_eq_some_iff.mp one
    obtain rfl := stored v present
    rw [exec_stackStore program.host.slots eval present] at one
    split_ifs at one with inside
    obtain rfl := Option.some.inj one
    refine ⟨x.toNat, fr, rest, rfl, inside, address, rfl, ?_⟩
    rw [guestFollows_eq found at_]
    simp [memoryStep, here, memoryAfter, saves_sd]

theorem guestFollows_unsaving {c : Config w W} (saving : saving? mfs spReg (c, g) = none) :
    (guestFollows cx mfs spReg c g).mem = g.mem := by
  unfold guestFollows
  split
  · rfl
  · next fr rest frames =>
    split
    · next mf i code found at_ =>
      show memoryStep mf spReg (operandValue cx fr.locals) i g = g.mem
      unfold memoryStep
      split
      · next b k =>
        have unsaved : (mf.instr? b k).bind (saves? spReg · g.sp) = none := by
          simpa [saving?, frames, found, at_] using saving
        cases here : mf.instr? b k with
        | none => rfl
        | some minst =>
          rw [here, Option.bind_some] at unsaved
          simp [memoryAfter, unsaved]
      · rfl
    · rfl

theorem StackProgram.unsaving_step (program : StackProgram cx mfs addrs adds M spReg sp)
    (inStep : InStep cx mfs B spReg sp M s.1 s.2) (saving : saving? mfs spReg s = none)
    (done : pairedStep cx mfs spReg M s = some t) :
    t.1.shared.stack = s.1.shared.stack ∧ t.2.mem = s.2.mem := by
  obtain ⟨c, g⟩ := s
  obtain ⟨c', step, rfl⟩ := Option.map_eq_some_iff.mp done
  refine ⟨?_, guestFollows_unsaving saving⟩
  cases stepped step with
  | @plain fr rest shared i code d at_ one =>
    obtain ⟨mf, found, accesses⟩ := program.accesses inStep at_
    cases off : i.stackIndex? with
    | none => exact (exec_framed one).stack off
    | some idx =>
      cases accesses (by simp [off]) with
      | load here index address =>
        obtain ⟨v, -, one⟩ := Option.bind_eq_some_iff.mp one
        exact Option.some.inj one ▸ rfl
      | store here index address stored =>
        simp [saving?, found, at_, here, saves_sd] at saving
  | ret | jump | enter => rfl

theorem StackProgram.saved_apart (program : StackProgram cx mfs addrs adds M spReg sp) {x y : Nat}
    (inside : x < M.stackCount) (inside' : y < M.stackCount)
    (other : slotAddress B 8 y ≠ slotAddress B 8 x) :
    ByteMemory.Apart (slotAddress B 8 x) 8 (slotAddress B 8 y) 8 := by
  intro i before j before' same
  obtain ⟨rfl, -⟩ := SlotMirror.slotAddress_inj program.fits inside inside' before before' same
  exact other rfl

/-- A step that saves nothing to the address of a slot leaves the slot alone. -/
theorem StackProgram.slot_step (program : StackProgram cx mfs addrs adds M spReg sp) {x : Nat}
    (inside : x < M.stackCount) (inStep : InStep cx mfs B spReg sp M s.1 s.2)
    (spared : ∀ r, saving? mfs spReg s ≠ some (r, slotAddress B 8 x))
    (done : pairedStep cx mfs spReg M s = some t) :
    ByteMemory.load t.2.mem (slotAddress B 8 x) 8 = ByteMemory.load s.2.mem (slotAddress B 8 x) 8 := by
  cases saving : saving? mfs spReg s with
  | none => rw [(program.unsaving_step inStep saving done).2]
  | some save =>
    obtain ⟨r, a⟩ := save
    obtain ⟨y, fr, rest, -, inside', rfl, -, memory⟩ := program.saving_step inStep saving done
    have other : slotAddress B 8 y ≠ slotAddress B 8 x := fun same => spared r (same ▸ saving)
    rw [memory, ByteMemory.load_store_apart (program.saved_apart inside inside' other)]

theorem StackProgram.slot_run (program : StackProgram cx mfs addrs adds M spReg sp) {x : Nat}
    (inside : x < M.stackCount) (run : Within (pairedStep cx mfs spReg M)
      (fun s => ∀ r, saving? mfs spReg s ≠ some (r, slotAddress B 8 x)) s t)
    (inStep : InStep cx mfs B spReg sp M s.1 s.2) :
    ByteMemory.load t.2.mem (slotAddress B 8 x) 8 = ByteMemory.load s.2.mem (slotAddress B 8 x) 8 := by
  induction run with
  | refl => rfl
  | next spared first rest ih =>
    have onward := ih (program.inStep_run inStep (.single first))
    exact onward.trans (program.slot_step inside inStep spared first)

end

theorem StackInstr.of_ld (rv : RV64 cx spReg sp) {rd : Register} {off : Int}
    (instr : StackInstr cx spReg sp (ld rd spReg off)) : ∃ c, Wide cx rd c ∧ 8 ∣ off := by
  have form := instr.path rv
  rw [ld_access, rv.dispatch_access (Finset.mem_singleton_self _)] at form
  cases form with
  | save form =>
    have names : "LD" = "SD" := congrArg (·.desc.name) form
    simp at names
  | restore form wide other aligned =>
    cases form
    exact ⟨_, wide, aligned⟩
  | transfer member => simp at member

theorem StackInstr.of_sd (rv : RV64 cx spReg sp) {rs : Register} {off : Int}
    (instr : StackInstr cx spReg sp (sd rs spReg off)) : ∃ c, Wide cx rs c ∧ 8 ∣ off := by
  have form := instr.path rv
  rw [sd_access, rv.dispatch_access (Finset.mem_singleton_self _)] at form
  cases form with
  | save form wide other aligned =>
    cases form
    exact ⟨_, wide, aligned⟩
  | restore form =>
    have names : "SD" = "LD" := congrArg (·.desc.name) form
    simp at names
  | transfer member => simp at member

/-- The frame on top is about to execute an instruction. -/
structure Executes (cx : Context W) (mfs : List MachineFunction) (addrs : FuncId → FunctionAddresses)
    (c : Config w W) (fr : Frame w) (rest : List (Frame w)) (f : FuncId) (b : BlockId) (i : Nat)
    (mbb : MachineBasicBlock) (minst : MachineInstr) : Prop where
  top : c.frames = fr :: rest
  at_ : fr.At cx mfs addrs f b i
  block : ∃ mf, mfs[f]? = some mf ∧ mf.blocks[b]? = some mbb
  instr : mbb[i]? = some minst

/-- The inline stack stands for the guest's stack in a state of a run. In front of the
conditional branches of its block an instruction has its operands at hand. -/
structure SimulatesStack (cx : Context W) (mfs : List MachineFunction)
    (addrs : FuncId → FunctionAddresses) (M : IRModule W) (B : BitVec 64) (spReg : Register) (sp : Cell)
    (s : Config M.widths W × StackGuest) : Prop where
  /-- Every slot has the bytes the guest has at its address. -/
  mirrors : Mirrors B 8 M.stackCount s.2.mem s.1.shared.stack
  /-- `ADDI` moves the stack pointers of both. -/
  adjusts : ∀ {fr rest f b i mbb k}, Executes cx mfs addrs s.1 fr rest f b i mbb (addi spReg spReg k) →
    Unbranched cx mbb i →
    Passes cx mfs addrs M spReg s rest f b i
      (Function.update fr.locals sp
        ((pointerSlot sp fr.locals + BitVec.ofInt 64 ((-k).tdiv 8)).setWidth _))
      s.1.shared.stack ⟨s.2.sp + BitVec.ofInt 64 k, s.2.mem⟩
  /-- `LD` reads the slot of the guest's address, and so what the guest has there. -/
  restores : ∀ {fr rest f b i mbb rd off c},
    Executes cx mfs addrs s.1 fr rest f b i mbb (ld rd spReg off) → cx.rmap.find rd = some c →
    slotAddress B 8 (accessSlot sp off fr.locals) = s.2.sp + BitVec.ofInt 64 off ∧
    (accessSlot sp off fr.locals < M.stackCount →
      Passes cx mfs addrs M spReg s rest f b i
        (Function.update fr.locals c
          ((ByteMemory.load s.2.mem (s.2.sp + BitVec.ofInt 64 off) 8).setWidth _))
        s.1.shared.stack s.2)
  /-- `SD` writes the slot of the guest's address. -/
  saves : ∀ {fr rest f b i mbb rs off},
    Executes cx mfs addrs s.1 fr rest f b i mbb (sd rs spReg off) → Unbranched cx mbb i →
    slotAddress B 8 (accessSlot sp off fr.locals) = s.2.sp + BitVec.ofInt 64 off ∧
    (accessSlot sp off fr.locals < M.stackCount →
      Passes cx mfs addrs M spReg s rest f b i fr.locals
        (ByteMemory.store s.1.shared.stack (accessSlot sp off fr.locals * 8)
          (operandValue cx fr.locals rs) 8)
        ⟨s.2.sp, ByteMemory.store s.2.mem (s.2.sp + BitVec.ofInt 64 off)
          (operandValue cx fr.locals rs) 8⟩)
  /-- Nothing else is written. -/
  writes : ∀ {t}, pairedStep cx mfs spReg M s = some t → match saving? mfs spReg s with
    | some (r, a) => ∃ x fr rest, s.1.frames = fr :: rest ∧ x < M.stackCount ∧ slotAddress B 8 x = a ∧
      t.1.shared.stack = ByteMemory.store s.1.shared.stack (x * 8) (operandValue cx fr.locals r) 8 ∧
      t.2.mem = ByteMemory.store s.2.mem a (operandValue cx fr.locals r) 8
    | none => t.1.shared.stack = s.1.shared.stack ∧ t.2.mem = s.2.mem
  /-- A saved value is restored, whatever is saved elsewhere in between. -/
  preserves : ∀ {r a t u}, saving? mfs spReg s = some (r, a) → pairedStep cx mfs spReg M s = some t →
    Within (pairedStep cx mfs spReg M) (fun u => ∀ r, saving? mfs spReg u ≠ some (r, a)) t u →
    ∀ {fr rest f b i mbb rd off c},
      Executes cx mfs addrs u.1 fr rest f b i mbb (ld rd spReg off) → cx.rmap.find rd = some c →
      u.2.sp + BitVec.ofInt 64 off = a → accessSlot sp off fr.locals < M.stackCount →
      ∃ saver callers, s.1.frames = saver :: callers ∧
        Passes cx mfs addrs M spReg u rest f b i
          (Function.update fr.locals c ((operandValue cx saver.locals r).setWidth _))
          u.1.shared.stack u.2

section
variable {s t : Config M.widths W × StackGuest}

theorem StackProgram.executes_ld (program : StackProgram cx mfs addrs adds M spReg sp)
    (inStep : InStep cx mfs B spReg sp M s.1 s.2) {fr : Frame M.widths} {rest : List (Frame M.widths)}
    {f : FuncId} {b i : Nat} {mbb : MachineBasicBlock} {rd : Register} {off : Int} {c : Cell}
    (here : Executes cx mfs addrs s.1 fr rest f b i mbb (ld rd spReg off))
    (named : cx.rmap.find rd = some c) :
    slotAddress B 8 (accessSlot sp off fr.locals) = s.2.sp + BitVec.ofInt 64 off ∧
    (accessSlot sp off fr.locals < M.stackCount →
      Passes cx mfs addrs M spReg s rest f b i
        (Function.update fr.locals c
          ((ByteMemory.load s.2.mem (s.2.sp + BitVec.ofInt 64 off) 8).setWidth _))
        s.1.shared.stack s.2) := by
  obtain ⟨⟨frames, shared⟩, g⟩ := s
  obtain ⟨rfl, at_, ⟨mf, found, block⟩, instr⟩ := here
  have discipline := program.disciplined mf (List.mem_of_getElem? found)
  obtain ⟨c', wide, aligned⟩ := (discipline.instr block instr).of_ld program.host.rv
  obtain rfl := Option.some.inj (named.symm.trans wide.1)
  exact program.restores inStep at_ found block instr wide aligned

theorem StackProgram.preserves (program : StackProgram cx mfs addrs adds M spReg sp)
    (inStep : InStep cx mfs B spReg sp M s.1 s.2) {u : Config M.widths W × StackGuest} {r : Register}
    {a : BitVec 64} (saving : saving? mfs spReg s = some (r, a))
    (done : pairedStep cx mfs spReg M s = some t)
    (run : Within (pairedStep cx mfs spReg M) (fun u => ∀ r, saving? mfs spReg u ≠ some (r, a)) t u)
    {fr : Frame M.widths} {rest : List (Frame M.widths)} {f : FuncId} {b i : Nat}
    {mbb : MachineBasicBlock} {rd : Register} {off : Int} {c : Cell}
    (here : Executes cx mfs addrs u.1 fr rest f b i mbb (ld rd spReg off))
    (named : cx.rmap.find rd = some c) (address : u.2.sp + BitVec.ofInt 64 off = a)
    (inside : accessSlot sp off fr.locals < M.stackCount) :
    ∃ saver callers, s.1.frames = saver :: callers ∧ Passes cx mfs addrs M spReg u rest f b i
      (Function.update fr.locals c ((operandValue cx saver.locals r).setWidth _))
      u.1.shared.stack u.2 := by
  obtain ⟨x, saver, callers, top, slot, rfl, -, memory⟩ := program.saving_step inStep saving done
  have behind := program.inStep_run inStep (.single done)
  have later := program.inStep_run behind run.reaches
  obtain ⟨-, passes⟩ := program.executes_ld later here named
  have value : ByteMemory.load u.2.mem (u.2.sp + BitVec.ofInt 64 off) 8 =
      operandValue cx saver.locals r := by
    rw [address, program.slot_run slot run behind, memory,
      ByteMemory.load_store_same (SlotMirror.spread_slot program.fits slot)]
    exact BitVec.setWidth_eq _
  refine ⟨saver, callers, top, ?_⟩
  rw [← value]
  exact passes inside

theorem StackProgram.simulates (program : StackProgram cx mfs addrs adds M spReg sp)
    (inStep : InStep cx mfs B spReg sp M s.1 s.2) : SimulatesStack cx mfs addrs M B spReg sp s where
  mirrors := inStep.mirrors
  adjusts := by
    intro fr rest f b i mbb k here unbranched
    obtain ⟨⟨frames, shared⟩, g⟩ := s
    obtain ⟨rfl, at_, ⟨mf, found, block⟩, instr⟩ := here
    exact program.adjusts at_ found block instr unbranched
  restores := program.executes_ld inStep
  saves := by
    intro fr rest f b i mbb rs off here unbranched
    obtain ⟨⟨frames, shared⟩, g⟩ := s
    obtain ⟨rfl, at_, ⟨mf, found, block⟩, instr⟩ := here
    have discipline := program.disciplined mf (List.mem_of_getElem? found)
    obtain ⟨c, wide, aligned⟩ := (discipline.instr block instr).of_sd program.host.rv
    exact program.saves inStep at_ found block instr wide aligned unbranched
  writes := by
    intro t done
    cases saving : saving? mfs spReg s with
    | none => exact program.unsaving_step inStep saving done
    | some save => exact program.saving_step inStep saving done
  preserves := program.preserves inStep

end

/-- The slots of a lifted program simulate the guest's stack, whatever the calls. -/
theorem slots_simulate_stack {finfo : Option FileInfo} {stackSize : Nat} {liftedPrefix : String}
    (module : bleachModule cx mfs addrs finfo stackSize liftedPrefix = .ok M)
    (rv : RV64 cx spReg sp) (varying : cx.instrs.constReg? cx.tm spReg = none)
    (disjoint : cx.stats.Disjoint) (real : cx.functionsNop = false) (fits : stackSize ≤ 2 ^ 64)
    (disciplined : ∀ mf ∈ mfs, StackDiscipline cx spReg sp mf) {f : FuncId}
    {blocks : Label → List Inst} (body : M.body f = some blocks) {shared : Shared M.widths W}
    {v : APInt} (pointer : stateValue cx.stats shared.slots spReg = some v)
    (standing : slotAddress B 8 v.bits.toNat = g.sp)
    (mirrors : Mirrors B 8 M.stackCount g.mem shared.stack) {s : Config M.widths W × StackGuest}
    (run : Reaches (pairedStep cx mfs spReg M) (⟨[M.entryFrame f blocks], shared⟩, g) s) :
    SimulatesStack cx mfs addrs M B spReg sp s := by
  obtain ⟨funcs, adds, -, lifted, count, -, -⟩ := lifted_of_bleachModule module
  have slots : M.stackElemBits = 64 := lifted.stackElemBits.trans rv.slotBits
  have count : M.stackCount = stackSize / 8 := by rw [count, rv.slotBits]
  have host : StackHost cx M spReg sp :=
    ⟨lifted.widths, slots, lifted.getFunction, rv, varying, disjoint, real⟩
  have program : StackProgram cx mfs addrs adds M spReg sp := ⟨lifted, host, by omega, disciplined⟩
  obtain ⟨slot, at_, same⟩ := stateAt_value rv (lifted.widths ▸ rv.width) pointer
  have start : InStep cx mfs B spReg sp M ⟨[M.entryFrame f blocks], shared⟩ g :=
    ⟨mirrors, slot, program.holds_entry body at_, by rwa [same]⟩
  exact program.simulates (program.inStep_run start run)

def savingCaller : MachineFunction :=
  ⟨"caller", [[addi X2 X2 (-16), sd X10 X2 8, call 1, ld X11 X2 8, addi X2 X2 16, ret]]⟩

def savingLeaf : MachineFunction :=
  ⟨"leaf", [[addi X2 X2 (-16), sd X11 X2 8, ld X10 X2 8, addi X2 X2 16, ret]]⟩

def savingCallers : List MachineFunction := [savingCaller, savingLeaf]

theorem savingCallers_disciplined : ∀ mf ∈ savingCallers, StackDiscipline context X2 ⟨0, X2⟩ mf := by
  have adjust : ∀ k : Int, 8 ∣ k → StackInstr context X2 ⟨0, X2⟩ (addi X2 X2 k) := fun _ => .adjust
  have sd10 : StackInstr context X2 ⟨0, X2⟩ (sd X10 X2 8) :=
    .save (c := ⟨0, X10⟩) ⟨rfl, rfl⟩ (by decide) (by decide)
  have sd11 : StackInstr context X2 ⟨0, X2⟩ (sd X11 X2 8) :=
    .save (c := ⟨0, X11⟩) ⟨rfl, rfl⟩ (by decide) (by decide)
  have ld10 : StackInstr context X2 ⟨0, X2⟩ (ld X10 X2 8) :=
    .restore (c := ⟨0, X10⟩) ⟨rfl, rfl⟩ (by decide) (by decide)
  have ld11 : StackInstr context X2 ⟨0, X2⟩ (ld X11 X2 8) :=
    .restore (c := ⟨0, X11⟩) ⟨rfl, rfl⟩ (by decide) (by decide)
  have calls : StackInstr context X2 ⟨0, X2⟩ (call 1) := .transfer (by decide) (by simp [call])
  have returns : StackInstr context X2 ⟨0, X2⟩ ret := .transfer (by decide) (by simp [ret])
  have instrs : ∀ mf ∈ savingCallers, ∀ mbb ∈ mf.blocks, ∀ minst ∈ mbb,
      StackInstr context X2 ⟨0, X2⟩ minst := by
    simp only [savingCallers, savingCaller, savingLeaf, List.forall_mem_singleton, List.forall_mem_cons]
    exact ⟨⟨adjust _ (by omega), sd10, calls, ld11, adjust _ (by omega), returns⟩,
      adjust _ (by omega), sd11, ld10, adjust _ (by omega), returns⟩
  intro mf member
  refine ⟨fun block here => instrs mf member _ (List.mem_of_getElem? block) _
    (List.mem_of_getElem? here), fun {b i mbb minst} block here => ?_⟩
  have targets : ∀ mf ∈ savingCallers, ∀ mbb ∈ mf.blocks, ∀ minst ∈ mbb,
      dispatch context minst ∅ ≠ .jump ∧ dispatch context minst ∅ ≠ .branch := by decide
  obtain ⟨jump, branch⟩ :=
    targets mf member mbb (List.mem_of_getElem? block) minst (List.mem_of_getElem? here)
  unfold Site.branchTargets
  split <;> simp_all

def savingStart : Config (module savingCallers none).widths World × StackGuest :=
  (⟨[(module savingCallers none).entryFrame 0 (((module savingCallers none).body 0).getD fun _ => [])],
    ⟨fun s => if s.idx = 4 then 10 else 0, fun _ => 0, [], fun _ => 0⟩⟩, ⟨0x1000, fun _ => 0⟩)

theorem savingCaller_restores : ∃ s fr rest,
    Reaches (pairedStep context savingCallers X2 (module savingCallers none)) savingStart s ∧
    Executes context savingCallers (fun _ => none) s.1 fr rest 0 0 3 savingCaller.blocks[0]
      (ld X11 X2 8) ∧
    Passes context savingCallers (fun _ => none) (module savingCallers none) X2 s rest 0 0 3
      (Function.update fr.locals ⟨0, X11⟩ 10) s.1.shared.stack s.2 := by
  have facts : ((iterate (pairedStep context savingCallers X2 (module savingCallers none)) 95
      savingStart).any fun s => s.1.frames.head?.any fun fr => fr.func = 0 ∧
        pcAt context savingCaller none 0 3 = .ok (fr.label, fr.code) ∧
        ByteMemory.load s.2.mem (s.2.sp + 8) 8 = 10 ∧
        accessSlot ⟨0, X2⟩ 8 fr.locals < (module savingCallers none).stackCount) = true := by
    decide +kernel
  obtain ⟨s, run, checks⟩ := (Option.any_eq_true _ _).mp facts
  obtain ⟨fr, top, checks⟩ := (Option.any_eq_true _ _).mp checks
  obtain ⟨rest, frames⟩ := List.head?_eq_some_iff.mp top
  obtain ⟨func, code, value, inside⟩ := of_decide_eq_true checks
  have reached : Reaches (pairedStep context savingCallers X2 (module savingCallers none))
      savingStart s := ⟨95, run⟩
  have here : Executes context savingCallers (fun _ => none) s.1 fr rest 0 0 3 savingCaller.blocks[0]
      (ld X11 X2 8) := ⟨frames, ⟨func, savingCaller, rfl, code⟩, ⟨savingCaller, rfl, rfl⟩, rfl⟩
  have simulates := @slots_simulate_stack World context savingCallers (fun _ => none)
    (module savingCallers none) X2 ⟨0, X2⟩ 0x1000 ⟨0x1000, fun _ => 0⟩ none 64 "" rfl rv64 rfl
    (by decide) rfl (by decide) savingCallers_disciplined 0 _ rfl _ ⟨64, 0⟩ rfl (by decide)
    (fun _ _ _ _ => rfl) s reached
  obtain ⟨-, passes⟩ := simulates.restores here rfl
  refine ⟨s, fr, rest, reached, here, ?_⟩
  have read : ByteMemory.load s.2.mem (s.2.sp + BitVec.ofInt 64 8) 8 = 10 := value
  have passed := passes inside
  rw [read] at passed
  exact passed

end Bleach.RiscV
