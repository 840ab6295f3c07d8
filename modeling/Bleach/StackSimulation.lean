import Bleach.StackLifting
import Bleach.CallProtocol

/-! Runs of a lifted program beside its guest. In every state reached the stack pointer
has the slot the adjustments executed so far make it, the slots of the inline stack mirror
the guest's stack, and every load reads and every store writes the slot of the guest's
address. -/
namespace Bleach.RiscV
open ByteMemory (Memory)
open SlotMirror (Mirrors slotAddress)
open Transition
variable {W : Type} {w : Nat → Nat} {cx : Context W} {mfs : List MachineFunction}
  {mf : MachineFunction} {addrs : FuncId → FunctionAddresses} {adds : List Inst} {M : IRModule W}
  {spReg : Register} {sp : Cell} {B slot : BitVec 64} {g : StackGuest}

/-- A module lifted from disciplined functions, its stack array no larger than memory. -/
structure StackProgram (cx : Context W) (mfs : List MachineFunction)
    (addrs : FuncId → FunctionAddresses) (adds : List Inst) (M : IRModule W) (spReg : Register)
    (sp : Cell) : Prop where
  lifted : Lifted cx mfs addrs adds M
  host : StackHost cx M spReg sp
  fits : 8 * M.stackCount ≤ 2 ^ 64
  disciplined : ∀ mf ∈ mfs, StackDiscipline cx spReg sp mf

/-- What is left of the frame keeps to the stack pointer. -/
def Frame.Keeping (cx : Context W) (mfs : List MachineFunction) (spReg : Register) (sp : Cell)
    (fr : Frame M.widths) (shared : Shared M.widths W) (slot : BitVec 64) : Prop :=
  ∃ mf, mfs[fr.func]? = some mf ∧ Keeps cx mf spReg sp fr.code (fr.data shared) slot

/-- So it does once a callee returns to it. -/
def Frame.Resuming (cx : Context W) (mfs : List MachineFunction) (spReg : Register) (sp : Cell)
    (fr : Frame M.widths) : Prop :=
  ∀ (shared : Shared M.widths W) slot, StateAt cx.stats sp shared.slots slot →
    Frame.Keeping cx mfs spReg sp fr shared slot

/-- The stack pointer of the lifted program has a slot. -/
structure HoldsSlot (cx : Context W) (mfs : List MachineFunction) (spReg : Register) (sp : Cell)
    (M : IRModule W) (c : Config M.widths W) (slot : BitVec 64) : Prop where
  grounded : c.Grounded M
  pointer : match c.frames with
    | [] => StateAt cx.stats sp c.shared.slots slot
    | fr :: rest => Frame.Keeping cx mfs spReg sp fr c.shared slot ∧
        ∀ fr' ∈ rest, Frame.Resuming cx mfs spReg sp fr'

/-- The lifted program is in step with its guest. -/
structure InStep (cx : Context W) (mfs : List MachineFunction) (B : BitVec 64) (spReg : Register)
    (sp : Cell) (M : IRModule W) (c : Config M.widths W) (g : StackGuest) : Prop where
  mirrors : Mirrors B 8 M.stackCount g.mem c.shared.stack
  pointer : ∃ slot, HoldsSlot cx mfs spReg sp M c slot ∧ slotAddress B 8 slot.toNat = g.sp

theorem guestFollows_eq {fr : Frame w} {rest : List (Frame w)} {shared : Shared w W} {i : Inst}
    {code : List Inst} (found : mfs[fr.func]? = some mf) (at_ : fr.code = i :: code) (g : StackGuest) :
    guestFollows cx mfs spReg ⟨fr :: rest, shared⟩ g =
      ⟨pointerStep mf spReg i g.sp, memoryStep mf spReg (operandValue cx fr.locals) i g⟩ := by
  simp [guestFollows, found, at_]

/-- Control transfers are nothing to the guest's stack. -/
theorem guestFollows_control {fr : Frame w} {rest : List (Frame w)} {shared : Shared w W} {i : Inst}
    {code : List Inst} (found : mfs[fr.func]? = some mf) (at_ : fr.code = i :: code)
    (control : i.isPlain = false) (g : StackGuest) :
    guestFollows cx mfs spReg ⟨fr :: rest, shared⟩ g = g := by
  rw [guestFollows_eq found at_]
  cases i <;> first | rfl | cases control

theorem memoryStep_offStack {i : Inst} (off : i.stackIndex? = none) (value : Register → BitVec 64)
    (g : StackGuest) : memoryStep mf spReg value i g = g.mem := by
  cases i with
  | store val dst => cases dst <;> first | rfl | cases off
  | _ => rfl

/-- Moving the stack pointer by whole slots moves the guest's by as many bytes. -/
theorem slotAddress_adjust {k : Int} (aligned : 8 ∣ k) (i : BitVec 64) :
    slotAddress B 8 (i + BitVec.ofInt 64 ((-k).tdiv 8)).toNat =
      slotAddress B 8 i.toNat + BitVec.ofInt 64 k := by
  obtain ⟨n, rfl⟩ := aligned
  have quotient : (-(8 * n)).tdiv 8 = -n := by
    rw [← Int.mul_neg, Int.mul_tdiv_cancel_left _ (by omega)]
  rw [slotAddress_ofInt, quotient, Int.mul_ediv_cancel_left _ (by omega), BitVec.ofInt_neg,
    ← sub_eq_add_neg, Int.mul_emod_right]
  exact (add_zero _).symm

/-- An access to the slot of the guest's address; a store stores the register's value. -/
inductive AccessesGuest (cx : Context W) (mf : MachineFunction) (B : BitVec 64) (spReg : Register)
    (d : Data w W) (gsp : BitVec 64) : Inst → Prop where
  | load {b k rd off x} (here : mf.instr? b k = some (ld rd spReg off))
      (index : d.env (.index b k) = some (.int ⟨64, x⟩))
      (address : slotAddress B 8 x.toNat = gsp + BitVec.ofInt 64 off) :
      AccessesGuest cx mf B spReg d gsp (.load (.result b k) 64 (.stack (.ssa (.index b k))))
  | store {b k rs off x value} (here : mf.instr? b k = some (sd rs spReg off))
      (index : d.env (.index b k) = some (.int ⟨64, x⟩))
      (address : slotAddress B 8 x.toNat = gsp + BitVec.ofInt 64 off)
      (stored : ∀ v, evalInt d.env value = some v → v = ⟨64, operandValue cx d.locals rs⟩) :
      AccessesGuest cx mf B spReg d gsp (.store value (.stack (.ssa (.index b k))))

theorem slotAddress_behind {off : Int} (aligned : 8 ∣ off) (slot : BitVec 64) :
    slotAddress B 8 (slotBehind slot off).toNat = slotAddress B 8 slot.toNat + BitVec.ofInt 64 off := by
  rw [slotBehind, slotAddress_ofInt, Int.emod_eq_zero_of_dvd aligned]
  exact (add_zero _).symm

theorem AccessesSlot.guest {d : Data w W} {i : Inst} {gsp : BitVec 64}
    (accesses : AccessesSlot cx mf spReg d slot i) (stands : slotAddress B 8 slot.toNat = gsp) :
    AccessesGuest cx mf B spReg d gsp i := by
  subst stands
  cases accesses with
  | load here aligned index => exact .load here index (slotAddress_behind aligned slot)
  | store here aligned index stored => exact .store here index (slotAddress_behind aligned slot) stored

/-- A plain instruction does to the stack array what the guest does to memory. -/
theorem StackProgram.mirrors_exec (program : StackProgram cx mfs addrs adds M spReg sp) {i : Inst}
    {d d' : Data M.widths W} (mirrors : Mirrors B 8 M.stackCount g.mem d.shared.stack)
    (accesses : (i.stackIndex?).isSome = true → AccessesGuest cx mf B spReg d g.sp i)
    (done : execInst M d i = some d') :
    Mirrors B 8 M.stackCount (memoryStep mf spReg (operandValue cx d.locals) i g) d'.shared.stack := by
  cases off : i.stackIndex? with
  | none =>
    rw [memoryStep_offStack off, (exec_framed done).stack off]
    exact mirrors
  | some idx =>
    cases accesses (by simp [off]) with
    | load here index address =>
      obtain ⟨v, -, done⟩ := Option.bind_eq_some_iff.mp done
      exact Option.some.inj done ▸ mirrors
    | @store b k rs offset x value here index address stored =>
      have eval : evalInt d.env (.ssa (.index b k)) = some ⟨64, x⟩ := by
        simp [evalInt, evalValue, index]
      obtain ⟨v, present, -⟩ := Option.bind_eq_some_iff.mp done
      obtain rfl := stored v present
      rw [exec_stackStore program.host.slots eval present] at done
      split_ifs at done with inside
      obtain rfl := Option.some.inj done
      have saved : memoryStep mf spReg (operandValue cx d.locals)
          (.store value (.stack (.ssa (.index b k)))) g =
          ByteMemory.store g.mem (slotAddress B 8 x.toNat) (operandValue cx d.locals rs) 8 := by
        simp [memoryStep, here, memoryAfter, saves_sd, address]
      rw [saved]
      exact mirrors.store program.fits inside (Nat.le_refl 8) _

theorem StackProgram.unloaded (program : StackProgram cx mfs addrs adds M spReg sp)
    {fr : Frame M.widths} (grounded : fr.Grounded M) (found : mfs[fr.func]? = some mf) :
    Unloaded cx mf fr.env :=
  fun k block branched => grounded.operand_unbound program.lifted found block branched k

theorem StackProgram.ready (program : StackProgram cx mfs addrs adds M spReg sp)
    {fr : Frame M.widths} {rest : List (Frame M.widths)} {shared : Shared M.widths W} {i : Inst}
    {code : List Inst} (holds : HoldsSlot cx mfs spReg sp M ⟨fr :: rest, shared⟩ slot)
    (at_ : fr.code = i :: code) : ∃ mf, mfs[fr.func]? = some mf ∧
      Ready cx mf spReg sp (Keeps cx mf spReg sp code) i (fr.data shared) slot := by
  obtain ⟨⟨mf, found, keeps⟩, -⟩ := holds.pointer
  rw [at_] at keeps
  exact ⟨mf, found, keeps (program.unloaded (holds.grounded fr List.mem_cons_self) found)⟩

theorem StackProgram.accesses (program : StackProgram cx mfs addrs adds M spReg sp)
    {fr : Frame M.widths} {rest : List (Frame M.widths)} {shared : Shared M.widths W} {i : Inst}
    {code : List Inst} (inStep : InStep cx mfs B spReg sp M ⟨fr :: rest, shared⟩ g)
    (at_ : fr.code = i :: code) : ∃ mf, mfs[fr.func]? = some mf ∧
      ((i.stackIndex?).isSome = true → AccessesGuest cx mf B spReg (fr.data shared) g.sp i) := by
  obtain ⟨slot, holds, stands⟩ := inStep.pointer
  obtain ⟨mf, found, ready⟩ := program.ready holds at_
  exact ⟨mf, found, fun some => (ready.accesses some).guest stands⟩

theorem StackProgram.function {f : FuncId} {blocks : Label → List Inst}
    (program : StackProgram cx mfs addrs adds M spReg sp) (body : M.body f = some blocks) :
    ∃ mf fin, mfs[f]? = some mf ∧ mf.blocks ≠ [] ∧ StackDiscipline cx spReg sp mf ∧
      finalBuilder cx mf (addrs f) = .ok fin ∧ blocks = liftedBody cx adds fin := by
  obtain ⟨mf, fin, found, nonempty, whole, rfl⟩ := program.lifted.body body
  exact ⟨mf, fin, found, nonempty, program.disciplined mf (List.mem_of_getElem? found), whole, rfl⟩

theorem StackProgram.entry_keeping (program : StackProgram cx mfs addrs adds M spReg sp) {f : FuncId}
    {blocks : Label → List Inst} (body : M.body f = some blocks) {shared : Shared M.widths W}
    (at_ : StateAt cx.stats sp shared.slots slot) :
    Frame.Keeping cx mfs spReg sp (M.entryFrame f blocks) shared slot := by
  obtain ⟨mf, fin, found, nonempty, discipline, whole, rfl⟩ := program.function body
  exact ⟨mf, found, program.host.keeps_entry discipline whole nonempty program.lifted.adds at_⟩

theorem stateAt_value {shared : Shared M.widths W} {v : APInt} (rv : RV64 cx spReg sp)
    (wide : M.widths sp.cls = 64) (pointer : stateValue cx.stats shared.slots spReg = some v) :
    ∃ slot : BitVec 64, StateAt cx.stats sp shared.slots slot ∧ slot.toNat = v.bits.toNat := by
  obtain ⟨c, found, pointer⟩ := Option.bind_eq_some_iff.mp pointer
  obtain rfl := Option.some.inj (found.symm.trans rv.cell)
  obtain ⟨s, here, rfl⟩ := Option.map_eq_some_iff.mp pointer
  refine ⟨(shared.slots s).setWidth 64, fun t member same => ?_, ?_⟩
  · subst same
    rw [Option.some.inj ((slotOf_cell member).symm.trans here)]
  · have cls : s.cls = c.cls := by
      obtain ⟨rclass, -, ranked⟩ := Option.bind_eq_some_iff.mp here
      obtain ⟨idx, -, rfl⟩ := Option.map_eq_some_iff.mp ranked
      rfl
    rw [BitVec.toNat_setWidth, Nat.mod_eq_of_lt]
    exact wide ▸ cls ▸ (shared.slots s).isLt

theorem StackProgram.holds_entry (program : StackProgram cx mfs addrs adds M spReg sp) {f : FuncId}
    {blocks : Label → List Inst} (body : M.body f = some blocks) {shared : Shared M.widths W}
    (at_ : StateAt cx.stats sp shared.slots slot) :
    HoldsSlot cx mfs spReg sp M ⟨[M.entryFrame f blocks], shared⟩ slot :=
  ⟨List.forall_mem_singleton.mpr (grounded_entry body), program.entry_keeping body at_, by simp⟩

/-- The adjustment the next step executes. -/
def adjusting? (mfs : List MachineFunction) (spReg : Register) (c : Config w W) : Option Int := do
  let fr ← c.frames.head?
  let mf ← mfs[fr.func]?
  let i ← fr.code.head?
  adjusted? mf spReg i

/-- The slot of the stack pointer behind the next step. -/
def slotFollows (mfs : List MachineFunction) (spReg : Register) (c : Config w W) (slot : BitVec 64) :
    BitVec 64 :=
  (adjusting? mfs spReg c).elim slot fun k => slot + BitVec.ofInt 64 ((-k).tdiv 8)

theorem adjusting_eq {fr : Frame w} {rest : List (Frame w)} {shared : Shared w W} {i : Inst}
    {code : List Inst} (found : mfs[fr.func]? = some mf) (at_ : fr.code = i :: code) :
    adjusting? mfs spReg ⟨fr :: rest, shared⟩ = adjusted? mf spReg i := by
  simp [adjusting?, found, at_]

theorem adjusted_control {i : Inst} (control : i.isPlain = false) : adjusted? mf spReg i = none := by
  cases i <;> first | rfl | cases control

theorem guestFollows_sp (c : Config w W) (g : StackGuest) :
    (guestFollows cx mfs spReg c g).sp =
      (adjusting? mfs spReg c).elim g.sp (g.sp + BitVec.ofInt 64 ·) := by
  obtain ⟨frames, shared⟩ := c
  cases frames with
  | nil => rfl
  | cons fr rest =>
    cases found : mfs[fr.func]? with
    | none => simp [guestFollows, adjusting?, found]
    | some mf =>
      cases at_ : fr.code with
      | nil => simp [guestFollows, adjusting?, found, at_]
      | cons i code =>
        rw [guestFollows_eq found at_, adjusting_eq found at_]
        rfl

theorem StackProgram.adjusting_aligned (program : StackProgram cx mfs addrs adds M spReg sp)
    {c : Config M.widths W} {k : Int} (adjusts : adjusting? mfs spReg c = some k) : 8 ∣ k := by
  obtain ⟨fr, -, adjusts⟩ := Option.bind_eq_some_iff.mp adjusts
  obtain ⟨mf, found, adjusts⟩ := Option.bind_eq_some_iff.mp adjusts
  obtain ⟨i, -, adjusts⟩ := Option.bind_eq_some_iff.mp adjusts
  unfold adjusted? at adjusts
  split at adjusts
  · obtain ⟨minst, here, adjusts⟩ := Option.bind_eq_some_iff.mp adjusts
    obtain rfl := addi_of_adjustment adjusts
    obtain ⟨mbb, block, instr⟩ := Option.bind_eq_some_iff.mp here
    have discipline := program.disciplined mf (List.mem_of_getElem? found)
    exact (discipline.instr block instr).of_addi program.host.rv
  · cases adjusts

/-- One step of the program, whatever it is, does to the stack pointer what its adjustment says. -/
theorem StackProgram.holds_step (program : StackProgram cx mfs addrs adds M spReg sp)
    {c c' : Config M.widths W} (here : HoldsSlot cx mfs spReg sp M c slot) (done : M.step c = some c') :
    HoldsSlot cx mfs spReg sp M c' (slotFollows mfs spReg c slot) := by
  refine ⟨grounded_step here.grounded done, ?_⟩
  cases stepped done with
  | @plain fr rest shared i code d at_ one =>
    obtain ⟨mf, found, ready⟩ := program.ready here at_
    rw [slotFollows, adjusting_eq found at_]
    exact ⟨⟨mf, found, ready.onward d one⟩, here.pointer.2⟩
  | @ret fr rest shared code at_ =>
    obtain ⟨mf, found, ready⟩ := program.ready here at_
    have saved := ready.returns rfl
    rw [slotFollows, adjusting_eq found at_, adjusted_control rfl]
    cases rest with
    | nil => exact saved
    | cons fr' rest =>
      obtain ⟨resuming, others⟩ := List.forall_mem_cons.mp here.pointer.2
      exact ⟨resuming shared slot saved, others⟩
  | @jump fr rest shared i code l blocks at_ target body =>
    obtain ⟨mf, found, ready⟩ := program.ready here at_
    have control : i.isPlain = false := by
      cases i <;> first | rfl | cases target
    obtain ⟨other, stays⟩ := ready.jumps l target
    rw [slotFollows, adjusting_eq found at_, adjusted_control control]
    obtain ⟨mf', fin, found', nonempty, discipline, whole, rfl⟩ := program.function body
    obtain rfl := Option.some.inj (found.symm.trans found')
    exact ⟨⟨mf, found, program.host.fine_block discipline whole nonempty other _ _ stays⟩,
      here.pointer.2⟩
  | @enter fr rest shared i code f blocks at_ calls body =>
    obtain ⟨mf, found, ready⟩ := program.ready here at_
    have call : i.isCall = true := by
      obtain rfl | ⟨v, rfl, -⟩ := calls <;> rfl
    obtain ⟨saved, resumed⟩ := ready.calls call
    rw [slotFollows, adjusting_eq found at_, adjusted_control (Inst.call_enters call).1]
    refine ⟨program.entry_keeping body saved, List.forall_mem_cons.mpr ⟨?_, here.pointer.2⟩⟩
    exact fun shared slot returned => ⟨mf, found, resumed shared slot returned⟩

theorem StackProgram.mirrors_step (program : StackProgram cx mfs addrs adds M spReg sp)
    {c c' : Config M.widths W} (here : InStep cx mfs B spReg sp M c g) (done : M.step c = some c') :
    Mirrors B 8 M.stackCount (guestFollows cx mfs spReg c g).mem c'.shared.stack := by
  have mirrors := here.mirrors
  cases stepped done with
  | @plain fr rest shared i code d at_ one =>
    obtain ⟨mf, found, accesses⟩ := program.accesses here at_
    rw [guestFollows_eq found at_]
    exact program.mirrors_exec (d := fr.data shared) mirrors accesses one
  | ret at_ =>
    obtain ⟨mf, found, -⟩ := program.accesses here at_
    rwa [guestFollows_control found at_ rfl]
  | @jump fr rest shared i code l blocks at_ target body =>
    obtain ⟨mf, found, -⟩ := program.accesses here at_
    have control : i.isPlain = false := by
      cases i <;> first | rfl | cases target
    rwa [guestFollows_control found at_ control]
  | @enter fr rest shared i code f blocks at_ calls body =>
    obtain ⟨mf, found, -⟩ := program.accesses here at_
    have control : i.isPlain = false := by
      obtain rfl | ⟨v, rfl, -⟩ := calls <;> rfl
    rwa [guestFollows_control found at_ control]

/-- One step of the program, whatever it is, is one of the guest. -/
theorem StackProgram.inStep_step (program : StackProgram cx mfs addrs adds M spReg sp)
    {c c' : Config M.widths W} (here : InStep cx mfs B spReg sp M c g) (done : M.step c = some c') :
    InStep cx mfs B spReg sp M c' (guestFollows cx mfs spReg c g) := by
  refine ⟨program.mirrors_step here done, ?_⟩
  obtain ⟨slot, holds, stands⟩ := here.pointer
  refine ⟨_, program.holds_step holds done, ?_⟩
  rw [guestFollows_sp, slotFollows, ← stands]
  cases adjusts : adjusting? mfs spReg c with
  | none => rfl
  | some k => exact slotAddress_adjust (program.adjusting_aligned adjusts) slot

/-- In every state reached the program is in step with its guest. -/
theorem StackProgram.inStep_run (program : StackProgram cx mfs addrs adds M spReg sp)
    {s t : Config M.widths W × StackGuest} (start : InStep cx mfs B spReg sp M s.1 s.2)
    (run : Reaches (pairedStep cx mfs spReg M) s t) : InStep cx mfs B spReg sp M t.1 t.2 := by
  refine run.invariant (P := fun s => InStep cx mfs B spReg sp M s.1 s.2) (fun here done => ?_) start
  obtain ⟨c', step, rfl⟩ := Option.map_eq_some_iff.mp done
  exact program.inStep_step here step

/-- The slot of an offset from a frame's stack pointer. -/
def accessSlot (sp : Cell) (off : Int) (locals : Locals w) : Nat :=
  (pointerSlot sp locals - BitVec.ofInt 64 (off / 8)).toNat

section
variable {f : FuncId} {b i : Nat} {mbb : MachineBasicBlock} {minst : MachineInstr}
  {fr : Frame M.widths} {rest : List (Frame M.widths)} {shared : Shared M.widths W}

/-- The code of an instruction a frame stands at, once it is known what is emitted for it. -/
theorem StackProgram.at_code (program : StackProgram cx mfs addrs adds M spReg sp)
    (at_ : fr.At cx mfs addrs f b i) (found : mfs[f]? = some mf) (block : mf.blocks[b]? = some mbb)
    (here : mbb[i]? = some minst) : ∃ st st' addr, st.sptrack = {spReg} ∧
      (Unbranched cx mbb i → st.cur = .mbb b) ∧
      generateInstruction cx (mf.site b mbb i) addr minst st = .ok st' ∧
      ∀ code, st'.blocks st.cur = st.blocks st.cur ++ code → st'.cur = st.cur → .retVoid ∉ code →
        ∃ later, fr.code = code ++ later ∧ ∀ env (locals : Locals M.widths),
          Frame.At cx mfs addrs ⟨fr.func, fr.label, later, env, locals⟩ f b (i + 1) := by
  obtain ⟨rfl, mf', found', pc⟩ := at_
  obtain rfl := Option.some.inj (found.symm.trans found')
  obtain ⟨fin, whole, -⟩ := program.lifted.functions found
  obtain ⟨st, st', code₀, lifting⟩ := instrLifting whole block here
  have bound := (List.getElem?_eq_some_iff.mp here).1
  have discipline := program.disciplined mf (List.mem_of_getElem? found)
  obtain ⟨addr, generated⟩ := lifting.generated
  refine ⟨st, st', addr, (program.host.builder_sound discipline whole block bound.le
    lifting.builder).tracked, fun unbranched => ?_, generated, fun code blocks cur noRet => ?_⟩
  · obtain ⟨own, -⟩ | ⟨branched, -⟩ := (origins whole block bound.le lifting.builder).cur block
    · exact own
    · exact absurd unbranched branched
  · obtain rfl : code₀ = code := List.append_cancel_left (lifting.appends.here.symm.trans blocks)
    rw [pcAt_ok whole lifting.builder] at pc
    obtain ⟨label, split⟩ := Prod.mk.inj (Except.ok.inj pc)
    refine ⟨codeAt cx fin st', ?_, fun env locals => ⟨rfl, mf, found, ?_⟩⟩
    · rw [← split, codeAt_next cx lifting.appends lifting.rest cur noRet]
    · rw [pcAt_ok whole lifting.next, cur, label]

theorem StackProgram.local_at (program : StackProgram cx mfs addrs adds M spReg sp)
    (inStep : InStep cx mfs B spReg sp M ⟨fr :: rest, shared⟩ g) {x : Inst} {code : List Inst}
    (code_ : fr.code = x :: code) (reads : x.reads? = some sp) :
    slotAddress B 8 (pointerSlot sp fr.locals).toNat = g.sp := by
  obtain ⟨slot, holds, stands⟩ := inStep.pointer
  obtain ⟨mf, found, ready⟩ := program.ready holds code_
  have at_ : pointerSlot sp fr.locals = slot := ready.reads reads
  rw [at_, stands]

theorem accessSlot_address {off : Int} {locals : Locals w} {gsp : BitVec 64} (aligned : 8 ∣ off)
    (at_ : slotAddress B 8 (pointerSlot sp locals).toNat = gsp) :
    slotAddress B 8 (accessSlot sp off locals) = gsp + BitVec.ofInt 64 off :=
  at_ ▸ slotAddress_behind aligned (pointerSlot sp locals)

theorem paired_one (cx : Context W) (spReg : Register) (fr : Frame M.widths)
    (rest : List (Frame M.widths)) (g : StackGuest) {x : Inst} {later : List Inst}
    {d : Data M.widths W} (found : mfs[fr.func]? = some mf) (code : fr.code = x :: later)
    (done : execInst M (fr.data shared) x = some d) :
    pairedStep cx mfs spReg M (⟨fr :: rest, shared⟩, g) =
      some (⟨⟨fr.func, fr.label, later, d.env, d.locals⟩ :: rest, d.shared⟩,
        ⟨pointerStep mf spReg x g.sp, memoryStep mf spReg (operandValue cx fr.locals) x g⟩) := by
  rw [pairedStep, IRModule.step_plain code done, guestFollows_eq found code]
  rfl

/-- Code that is nothing to the guest. -/
def Still (mf : MachineFunction) (spReg : Register) (code : List Inst) : Prop :=
  ∀ x ∈ code, ∀ (value : Register → BitVec 64) (g : StackGuest),
    pointerStep mf spReg x g.sp = g.sp ∧ memoryStep mf spReg value x g = g.mem

theorem paired_still (cx : Context W) (rest : List (Frame M.widths)) (g : StackGuest)
    {code later : List Inst} {d : Data M.widths W} (found : mfs[fr.func]? = some mf)
    (still : Still mf spReg code) (code_ : fr.code = code ++ later)
    (done : execCode M code (fr.data shared) = some d) :
    Reaches (pairedStep cx mfs spReg M) (⟨fr :: rest, shared⟩, g)
      (⟨⟨fr.func, fr.label, later, d.env, d.locals⟩ :: rest, d.shared⟩, g) := by
  induction code generalizing fr shared with
  | nil =>
    obtain rfl := Option.some.inj done
    obtain ⟨func, label, _, env, locals⟩ := fr
    obtain rfl : _ = later := code_
    exact .refl _
  | cons x code ih =>
    obtain ⟨here, others⟩ := List.forall_mem_cons.mp still
    obtain ⟨middle, one, tail⟩ := Option.bind_eq_some_iff.mp done
    have first := paired_one cx spReg fr rest g found code_ one
    obtain ⟨pointer, memory⟩ := here (operandValue cx fr.locals) g
    rw [pointer, memory] at first
    exact .head first (ih found others rfl tail)

theorem Quiet.still {code : List Inst} (quiet : Quiet mf spReg code) : Still mf spReg code := by
  intro x member value g
  obtain ⟨-, off, still⟩ := quiet x member
  refine ⟨?_, memoryStep_offStack off value g⟩
  rw [pointerStep, still]
  rfl

theorem still_loadCode (s : Site) (off : Int) (c : Cell) : Still mf spReg (loadCode s sp off c) := by
  intro x member value g
  obtain rfl | rfl | rfl | rfl : x = _ ∨ x = _ ∨ x = _ ∨ x = _ := by
    simpa [loadCode, indexCode] using member
  all_goals exact ⟨rfl, rfl⟩

theorem accessSlot_index {off : Int} (aligned : 8 ∣ off) (d : Data M.widths W) :
    accessSlot sp off d.locals = (slotIndex sp off d).toNat := by
  rw [slotIndex_aligned aligned]
  rfl

/-- The frame on top runs through an instruction: its variables, the stack array and
the guest behind it. -/
def Passes (cx : Context W) (mfs : List MachineFunction) (addrs : FuncId → FunctionAddresses)
    (M : IRModule W) (spReg : Register) (s : Config M.widths W × StackGuest)
    (rest : List (Frame M.widths)) (f : FuncId) (b : BlockId) (i : Nat) (locals : Locals M.widths)
    (stack : Memory Nat) (g : StackGuest) : Prop :=
  ∃ fr, Reaches (pairedStep cx mfs spReg M) s (⟨fr :: rest, { s.1.shared with stack := stack }⟩, g) ∧
    Frame.At cx mfs addrs fr f b (i + 1) ∧ fr.locals = locals

/-- A load reads the slot of the guest's address, and so what the guest has there. -/
theorem StackProgram.restores (program : StackProgram cx mfs addrs adds M spReg sp)
    (inStep : InStep cx mfs B spReg sp M ⟨fr :: rest, shared⟩ g)
    (at_ : fr.At cx mfs addrs f b i) (found : mfs[f]? = some mf) (block : mf.blocks[b]? = some mbb)
    {rd : Register} {c : Cell} {off : Int} (here : mbb[i]? = some (ld rd spReg off))
    (wide : Wide cx rd c) (aligned : 8 ∣ off) :
    slotAddress B 8 (accessSlot sp off fr.locals) = g.sp + BitVec.ofInt 64 off ∧
      (accessSlot sp off fr.locals < M.stackCount →
        Passes cx mfs addrs M spReg (⟨fr :: rest, shared⟩, g) rest f b i
          (Function.update fr.locals c
            ((ByteMemory.load g.mem (g.sp + BitVec.ofInt 64 off) 8).setWidth _)) shared.stack g) := by
  obtain ⟨st, st', addr, tracked, -, generated, pass⟩ := program.at_code at_ found block here
  rw [ld_access] at generated
  obtain ⟨cur, -, ⟨-, c', named, blocks⟩ | ⟨store, -⟩⟩ :=
    program.host.rv.access_blocks (tracked ▸ Finset.mem_singleton_self _) generated
  · obtain rfl := Option.some.inj (wide.1.symm.trans named)
    obtain ⟨later, code, next⟩ := pass (loadCode (mf.site b mbb i) sp off c) (by simp [blocks]) cur
      (by simp [loadCode, indexCode])
    have address := accessSlot_address aligned (program.local_at inStep code rfl)
    refine ⟨address, fun inside => ?_⟩
    obtain ⟨rfl, -⟩ := at_
    have widths := program.host.widths
    have slot : accessSlot sp off fr.locals = (slotIndex sp off (fr.data shared)).toNat :=
      accessSlot_index aligned (fr.data shared)
    obtain ⟨d, run, locals, same⟩ := (run_loadCode program.host.slots
      (widths ▸ program.host.rv.width) (widths ▸ wide.2) (mf.site b mbb i) off (fr.data shared)).1
      (slot ▸ inside)
    have still : Still mf spReg (loadCode (mf.site b mbb i) sp off c) := still_loadCode _ off c
    have path := paired_still cx rest g found still code run
    rw [same] at path
    refine ⟨_, path, next _ _, ?_⟩
    have read := inStep.mirrors.load_eq inside (Nat.le_refl 8)
    rw [← address, ← read, slot]
    exact locals
  · cases store

/-- A save writes its register to the slot of the guest's address and nowhere else. -/
theorem StackProgram.saves (program : StackProgram cx mfs addrs adds M spReg sp)
    (inStep : InStep cx mfs B spReg sp M ⟨fr :: rest, shared⟩ g)
    (at_ : fr.At cx mfs addrs f b i) (found : mfs[f]? = some mf) (block : mf.blocks[b]? = some mbb)
    {rs : Register} {c : Cell} {off : Int} (here : mbb[i]? = some (sd rs spReg off))
    (wide : Wide cx rs c) (aligned : 8 ∣ off) (unbranched : Unbranched cx mbb i) :
    slotAddress B 8 (accessSlot sp off fr.locals) = g.sp + BitVec.ofInt 64 off ∧
      (accessSlot sp off fr.locals < M.stackCount →
        Passes cx mfs addrs M spReg (⟨fr :: rest, shared⟩, g) rest f b i fr.locals
          (ByteMemory.store shared.stack (accessSlot sp off fr.locals * 8)
            (operandValue cx fr.locals rs) 8)
          ⟨g.sp, ByteMemory.store g.mem (g.sp + BitVec.ofInt 64 off) (operandValue cx fr.locals rs) 8⟩) := by
  obtain ⟨st, st', addr, tracked, own, generated, pass⟩ := program.at_code at_ found block here
  rw [sd_access] at generated
  obtain ⟨cur, -, ⟨load, -⟩ | ⟨-, load, value, operand, blocks⟩⟩ :=
    program.host.rv.access_blocks (tracked ▸ Finset.mem_singleton_self _) generated
  · cases load
  let s := mf.site b mbb i
  have spares : Spares mf spReg sp (indexCode s sp off ++ load) :=
    .append (spares_index s off) (.operand (operandToValue_ok.mpr operand))
  have plain : Plain (indexCode s sp off ++ load) := fun x member => (spares.quiet x member).1
  have inBlock : st.cur = s.label := own unbranched
  obtain ⟨later, code, next⟩ := pass (storeCode s sp off load value)
    (by simp [blocks, inBlock, storeCode, s]) cur (by
      rw [storeCode]
      exact List.not_mem_append plain.noRet (by simp))
  have first : fr.code = indexCode s sp off ++
      (load ++ [.store value (.stack (.ssa (.index b i)))] ++ later) := by
    rw [code, storeCode]
    simp [s, MachineFunction.site]
  have address := accessSlot_address aligned (program.local_at inStep first rfl)
  refine ⟨address, fun inside => ?_⟩
  obtain ⟨rfl, -⟩ := at_
  have widths := program.host.widths
  have slot : accessSlot sp off fr.locals = (slotIndex sp off (fr.data shared)).toNat :=
    accessSlot_index aligned (fr.data shared)
  obtain ⟨d, run, locals, same⟩ := (run_storeCode widths program.host.slots
    (widths ▸ program.host.rv.width) wide operand off (fr.data shared)).1 (slot ▸ inside)
  rw [storeCode, execCode_append] at run
  obtain ⟨d₁, front, last⟩ := Option.bind_eq_some_iff.mp run
  obtain ⟨d', stored, done⟩ := Option.bind_eq_some_iff.mp last
  obtain rfl := Option.some.inj done
  have kept : d₁.locals = fr.locals := by
    rw [← show d'.locals = fr.locals from locals]
    funext c
    exact ((exec_framed stored).locals (by simp [Inst.writes?])).symm
  have saved : memoryStep mf spReg (operandValue cx d₁.locals)
      (.store value (.stack (.ssa (.index b i)))) g =
      ByteMemory.store g.mem (g.sp + BitVec.ofInt 64 off) (operandValue cx fr.locals rs) 8 := by
    simp [memoryStep, instr_at block here, memoryAfter, saves_sd, kept]
  have path := paired_still cx rest g found spares.quiet.still
    (code.trans (by rw [storeCode, List.append_assoc])) front
  have one := paired_one cx spReg ⟨fr.func, fr.label,
    .store value (.stack (.ssa (.index b i))) :: later, d₁.env, d₁.locals⟩ rest g found rfl stored
  rw [saved, same, ← slot] at one
  exact ⟨_, path.trans (.single one), next _ _, locals⟩

theorem StackProgram.adjusts (program : StackProgram cx mfs addrs adds M spReg sp)
    (at_ : fr.At cx mfs addrs f b i) (found : mfs[f]? = some mf) (block : mf.blocks[b]? = some mbb)
    {k : Int} (here : mbb[i]? = some (addi spReg spReg k)) (unbranched : Unbranched cx mbb i) :
    Passes cx mfs addrs M spReg (⟨fr :: rest, shared⟩, g) rest f b i
      (Function.update fr.locals sp
        ((pointerSlot sp fr.locals + BitVec.ofInt 64 ((-k).tdiv 8)).setWidth _))
      shared.stack ⟨g.sp + BitVec.ofInt 64 k, g.mem⟩ := by
  obtain ⟨st, st', addr, tracked, own, generated, pass⟩ := program.at_code at_ found block here
  obtain ⟨cur, -, blocks⟩ := adjust_blocks program.host.rv program.host.varying tracked generated
  let s := mf.site b mbb i
  have inBlock : st.cur = s.label := own unbranched
  obtain ⟨later, code, next⟩ := pass (adjustCode s sp k (adjustLoad s sp))
    (by simp [blocks, inBlock, adjustCode, s]) cur (by simp [adjustCode, adjustLoad])
  obtain ⟨rfl, -⟩ := at_
  have wide : M.widths sp.cls = 64 := program.host.widths ▸ program.host.rv.width
  let d := (fr.data shared).bind (.operand b i 0) (.int ⟨64, pointerSlot sp fr.locals⟩)
  have loaded : execCode M (adjustLoad s sp) (fr.data shared) = some d := by
    rw [adjustLoad, execCode, exec_load64 wide]
    rfl
  have still : Still mf spReg (adjustLoad s sp) := spares_adjustLoad.quiet.still
  have path := paired_still cx rest g found still code loaded
  let moved := pointerSlot sp fr.locals + BitVec.ofInt 64 ((-k).tdiv 8)
  let d' := d.bind (.result b i) (.int ⟨64, moved⟩)
  have added : execInst M d (.callInstr (.result b i) "ADDI"
      [.ssa (.operand b i 0), .const (.ofInt 64 ((-k).tdiv 8))]) = some d' :=
    program.host.exec_addi (by simp [evalInt, evalValue, Data.bind, d]) rfl
  have stored : execInst M d' (.store (.ssa (.result b i)) (.cell sp)) =
      some { d' with locals := Function.update d'.locals sp (moved.setWidth _) } :=
    exec_store64 wide (by simp [evalInt, evalValue, Data.bind, d'])
  have pointer : pointerStep mf spReg (.callInstr (.result b i) "ADDI"
      [.ssa (.operand b i 0), .const (.ofInt 64 ((-k).tdiv 8))]) g.sp = g.sp + BitVec.ofInt 64 k := by
    simp [pointerStep, adjusted?, instr_at block here, adjustment_addi]
  have call := paired_one cx spReg
    ⟨fr.func, fr.label, _ :: .store (.ssa (.result b i)) (.cell sp) :: later, d.env, d.locals⟩
    rest g found rfl added
  rw [pointer] at call
  have store := paired_one cx spReg
    ⟨fr.func, fr.label, .store (.ssa (.result b i)) (.cell sp) :: later, d'.env, d'.locals⟩
    rest ⟨g.sp + BitVec.ofInt 64 k, g.mem⟩ found rfl stored
  exact ⟨_, path.trans (.head call (.single store)), next _ _, rfl⟩

end

end Bleach.RiscV
