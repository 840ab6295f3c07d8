import Bleach.SavedRegisters
import Bleach.StackEvents

/-! The bounds of the inline stack. The events of a lifted program are read off its run: its
stack pointer has the slot of the events, its guest their depth, and its accesses their indices. -/
namespace Bleach
variable {stats : RegisterStats} {spReg : Register} {stackSize : Nat}

namespace RiscV
open Transition
variable {W : Type} {w : Nat → Nat} {cx : Context W} {mfs : List MachineFunction}
  {addrs : FuncId → FunctionAddresses} {adds : List Inst} {M : IRModule W} {B : BitVec 64} {sp : Cell}
  {g : StackGuest}

/-- The instruction whose stack access the next step executes. -/
def accessing? (mfs : List MachineFunction) (c : Config w W) : Option MachineInstr := do
  let fr ← c.frames.head?
  let mf ← mfs[fr.func]?
  match fr.code.head? with
  | some (.load (.result b k) _ (.stack _)) => mf.instr? b k
  | some (.store _ (.stack (.ssa (.index b k)))) => mf.instr? b k
  | _ => none

/-- The index it has in the environment. -/
def accessedIndex? (c : Config w W) : Option APInt := do
  let fr ← c.frames.head?
  let i ← fr.code.head?
  let idx ← i.stackIndex?
  evalInt fr.env idx

/-- What the next step does with the stack. -/
def stackEvent? (mfs : List MachineFunction) (spReg : Register) (c : Config w W) : Option StackEvent :=
  match adjusting? mfs spReg c with
  | some imm => some (.adjust spReg spReg imm)
  | none => (accessing? mfs c).map (.access · spReg 8)

/-- The paired program with the events of the run so far. -/
def tracedStep (cx : Context W) (mfs : List MachineFunction) (spReg : Register) (M : IRModule W)
    (s : (Config M.widths W × StackGuest) × List StackEvent) :
    Option ((Config M.widths W × StackGuest) × List StackEvent) :=
  (pairedStep cx mfs spReg M s.1).map (·, s.2 ++ (stackEvent? mfs spReg s.1.1).toList)

/-- The slot of an access is the one its instruction computes. -/
theorem slotBehind_stackSlot {off : Int} (aligned : 8 ∣ off) (n : Int) {minst : MachineInstr}
    (imm : minst.immOperand = some off) :
    slotBehind (BitVec.ofInt 64 n) off = BitVec.ofInt 64 (stackSlot 8 n minst) := by
  have quotient : off.tdiv (8 : Nat) = off / 8 := Int.tdiv_eq_ediv_of_dvd aligned
  rw [stackSlot_eq imm, slotBehind, quotient, sub_eq_add_neg, sub_eq_add_neg, ← BitVec.ofInt_neg,
    BitVec.ofInt_add]

theorem AccessesSlot.accessed {mf : MachineFunction} {fr : Frame w} {rest : List (Frame w)}
    {shared : Shared w W} {i : Inst} {code : List Inst} {n : Int} {minst : MachineInstr}
    (accesses : AccessesSlot cx mf spReg (fr.data shared) (BitVec.ofInt 64 n) i)
    (found : mfs[fr.func]? = some mf) (at_ : fr.code = i :: code)
    (here : accessing? mfs ⟨fr :: rest, shared⟩ = some minst) :
    accessedIndex? ⟨fr :: rest, shared⟩ = some (.ofInt 64 (stackSlot 8 n minst)) := by
  simp only [accessing?, List.head?_cons, Option.bind_eq_bind, Option.bind_some, found, at_] at here
  simp only [accessedIndex?, List.head?_cons, Option.bind_eq_bind, Option.bind_some, at_]
  have eval : ∀ {v x}, fr.env v = some (.int x) → evalInt fr.env (.ssa v) = some x :=
    fun bound => by simp [evalInt, evalValue, bound]
  cases accesses with
  | load instr aligned index =>
    obtain rfl := Option.some.inj (instr.symm.trans here)
    rw [APInt.ofInt, ← slotBehind_stackSlot aligned n rfl]
    exact eval index
  | store instr aligned index =>
    obtain rfl := Option.some.inj (instr.symm.trans here)
    rw [APInt.ofInt, ← slotBehind_stackSlot aligned n rfl]
    exact eval index

/-- The lifted program has the slots of its events, and the guest their depth. -/
structure FollowsEvents (cx : Context W) (mfs : List MachineFunction) (M : IRModule W) (B : BitVec 64)
    (spReg : Register) (sp : Cell) (s : (Config M.widths W × StackGuest) × List StackEvent) : Prop where
  whole : (pointersBehind spReg s.2 (.reg spReg)).whole = true
  depth : s.1.2.sp = B - BitVec.ofInt 64 (pointersBehind spReg s.2 (.reg spReg)).depth
  holds : HoldsSlot cx mfs spReg sp M s.1.1 (BitVec.ofInt 64 (pointersBehind spReg s.2 (.reg spReg)).slot)

theorem StackPointers.step_adjust (p : StackPointers) (r : Register) (k : Int) :
    p.step (.adjust r r k) (.reg r) =
      ⟨(p (.reg r)).slot + (-k).tdiv 8, (p (.reg r)).depth - k, (p (.reg r)).whole && decide (8 ∣ k)⟩ := by
  simp [StackPointers.step, allocate_addi]

theorem depth_step (B : BitVec 64) (depth k : Int) :
    B - BitVec.ofInt 64 depth + BitVec.ofInt 64 k = B - BitVec.ofInt 64 (depth - k) := by
  rw [sub_eq_add_neg depth k, BitVec.ofInt_add, BitVec.ofInt_neg, ← sub_eq_add_neg, sub_sub_eq_add_sub,
    sub_add_eq_add_sub]

theorem pointersBehind_append (events : List StackEvent) (e? : Option StackEvent) :
    pointersBehind spReg (events ++ e?.toList) = e?.elim (pointersBehind spReg events) (pointersBehind spReg events).step := by
  cases e? <;> simp [pointersBehind]

theorem StackProgram.follows_step (program : StackProgram cx mfs addrs adds M spReg sp)
    {s t : (Config M.widths W × StackGuest) × List StackEvent}
    (follows : FollowsEvents cx mfs M B spReg sp s) (done : tracedStep cx mfs spReg M s = some t) :
    FollowsEvents cx mfs M B spReg sp t := by
  obtain ⟨⟨c, g⟩, events⟩ := s
  obtain ⟨_, paired, rfl⟩ := Option.map_eq_some_iff.mp done
  obtain ⟨c', step, rfl⟩ := Option.map_eq_some_iff.mp paired
  have holds := program.holds_step follows.holds step
  have pointer : (guestFollows cx mfs spReg c g).sp =
      (adjusting? mfs spReg c).elim g.sp (g.sp + BitVec.ofInt 64 ·) := guestFollows_sp c g
  cases adjusts : adjusting? mfs spReg c with
  | some k =>
    have behind : pointersBehind spReg (events ++ (stackEvent? mfs spReg c).toList) =
        (pointersBehind spReg events).step (.adjust spReg spReg k) := by
      rw [pointersBehind_append, stackEvent?, adjusts]
      rfl
    have multiple := program.adjusting_aligned adjusts
    rw [slotFollows, adjusts, Option.elim_some, ← BitVec.ofInt_add] at holds
    rw [adjusts, Option.elim_some] at pointer
    constructor
    · simp [behind, StackPointers.step_adjust, follows.whole, multiple]
    · rw [behind, StackPointers.step_adjust]
      have deeper := depth_step B (pointersBehind spReg events (.reg spReg)).depth k
      rw [← follows.depth] at deeper
      exact pointer.trans deeper
    · rw [behind, StackPointers.step_adjust]
      exact holds
  | none =>
    have behind : pointersBehind spReg (events ++ (stackEvent? mfs spReg c).toList) = pointersBehind spReg events := by
      rw [pointersBehind_append, stackEvent?, adjusts]
      cases accessing? mfs c <;> rfl
    rw [slotFollows, adjusts] at holds
    rw [adjusts] at pointer
    constructor
    · rw [behind]
      exact follows.whole
    · rw [behind]
      exact pointer.trans follows.depth
    · rw [behind]
      exact holds

theorem StackProgram.follows_run (program : StackProgram cx mfs addrs adds M spReg sp)
    {s t : (Config M.widths W × StackGuest) × List StackEvent}
    (start : FollowsEvents cx mfs M B spReg sp s) (run : Reaches (tracedStep cx mfs spReg M) s t) :
    FollowsEvents cx mfs M B spReg sp t :=
  run.invariant (P := FollowsEvents cx mfs M B spReg sp) (fun here done => program.follows_step here done)
    start

theorem StackProgram.accessed (program : StackProgram cx mfs addrs adds M spReg sp)
    {s : (Config M.widths W × StackGuest) × List StackEvent} {minst : MachineInstr}
    (follows : FollowsEvents cx mfs M B spReg sp s) (here : accessing? mfs s.1.1 = some minst) :
    accessedIndex? s.1.1 =
      some (.ofInt 64 (StackAccess.index ⟨pointersBehind spReg s.2, minst, spReg, 8⟩ spReg 8)) := by
  obtain ⟨⟨⟨frames, shared⟩, g⟩, events⟩ := s
  obtain ⟨fr, top, inFunction⟩ := Option.bind_eq_some_iff.mp here
  obtain ⟨mf, found, shape⟩ := Option.bind_eq_some_iff.mp inFunction
  obtain ⟨rest, rfl⟩ := List.head?_eq_some_iff.mp top
  have onStack : ∃ i code, fr.code = i :: code ∧ i.stackIndex?.isSome = true := by
    split at shape
    · next next_ => exact (List.head?_eq_some_iff.mp next_).elim fun code at_ => ⟨_, code, at_, rfl⟩
    · next next_ => exact (List.head?_eq_some_iff.mp next_).elim fun code at_ => ⟨_, code, at_, rfl⟩
    · cases shape
  obtain ⟨i, code, at_, onStack⟩ := onStack
  obtain ⟨mf', found', ready⟩ := program.ready follows.holds at_
  exact (ready.accesses onStack).accessed found' at_ here

/-- A state of a run of a lifted program from a zero-initialised `register_state`, and the
events of the run. -/
structure ZeroedRun (cx : Context W) (mfs : List MachineFunction) (addrs : FuncId → FunctionAddresses)
    (M : IRModule W) (stackSize : Nat) (B : BitVec 64) (spReg : Register) (sp : Cell)
    (s : (Config M.widths W × StackGuest) × List StackEvent) : Prop where
  module : ∃ finfo liftedPrefix, bleachModule cx mfs addrs finfo stackSize liftedPrefix = .ok M
  rv : RV64 cx spReg sp
  varying : cx.instrs.constReg? cx.tm spReg = none
  disjoint : cx.stats.Disjoint
  real : cx.functionsNop = false
  fits : stackSize ≤ 2 ^ 64
  disciplined : ∀ mf ∈ mfs, StackDiscipline cx spReg sp mf
  run : ∃ f blocks shared mem, M.body f = some blocks ∧ shared.slots = (fun _ => 0) ∧
    Reaches (tracedStep cx mfs spReg M) ((⟨[M.entryFrame f blocks], shared⟩, ⟨B, mem⟩), []) s

/-- In front of an access the lifted program has the index of the event, the guest the depth, and the
index is in the array exactly where the depth covers the access. -/
structure AccessesIndex (cx : Context W) (M : IRModule W) (stackSize : Nat)
    (B : BitVec 64) (spReg : Register) (s : (Config M.widths W × StackGuest) × List StackEvent)
    (a : StackAccess) : Prop where
  whole : (a.pointers (.reg spReg)).whole = true
  depth : s.1.2.sp = B - BitVec.ofInt 64 (a.depth spReg)
  index : accessedIndex? s.1.1 = some (.ofInt 64 (a.index spReg 8))
  bounds : LegalRun cx.stats spReg stackSize (.initial spReg) (s.2 ++ [.access a.minst a.base a.bytes]) →
    ((BitVec.ofInt 64 (a.index spReg 8)).toNat < M.stackCount ↔ a.Covered spReg 8 M.stackCount)

theorem ZeroedRun.accesses {s : (Config M.widths W × StackGuest) × List StackEvent}
    (zeroed : ZeroedRun cx mfs addrs M stackSize B spReg sp s) {minst : MachineInstr}
    (here : accessing? mfs s.1.1 = some minst) :
    AccessesIndex cx M stackSize B spReg s ⟨pointersBehind spReg s.2, minst, spReg, 8⟩ := by
  obtain ⟨finfo, liftedPrefix, module⟩ := zeroed.module
  obtain ⟨funcs, adds, -, lifted, count, -, -⟩ := lifted_of_bleachModule module
  have slots : M.stackElemBits = 64 := lifted.stackElemBits.trans zeroed.rv.slotBits
  have count : M.stackCount = stackSize / 8 := by rw [count, zeroed.rv.slotBits]
  have fits := zeroed.fits
  have host : StackHost cx M spReg sp :=
    ⟨lifted.widths, slots, lifted.getFunction, zeroed.rv, zeroed.varying, zeroed.disjoint, zeroed.real⟩
  have program : StackProgram cx mfs addrs adds M spReg sp :=
    ⟨lifted, host, by omega, zeroed.disciplined⟩
  obtain ⟨f, blocks, shared, mem, body, zeros, run⟩ := zeroed.run
  have start : FollowsEvents cx mfs M B spReg sp ((⟨[M.entryFrame f blocks], shared⟩, ⟨B, mem⟩), []) := by
    refine ⟨decide_eq_true rfl, (sub_zero B).symm, program.holds_entry body fun t _ _ => ?_⟩
    simp [zeros, pointersBehind, StackPointers.initial]
  have follows := program.follows_run start run
  have index := program.accessed follows here
  refine ⟨follows.whole, follows.depth, index, fun run => ?_⟩
  have member : ⟨pointersBehind spReg s.2, minst, spReg, 8⟩ ∈
      Bleach.accesses (.initial spReg) (s.2 ++ [.access minst spReg 8]) := mem_accesses_last _ s.2
  obtain ⟨legal, bounded⟩ := run.legal _ member
  have counted := accesses_counted (counted_initial _) _ _ member
  exact legal.element_iff rfl counted follows.whole (by omega) M.stackCount

end RiscV

/-- In a legal run whose stack pointers are whole every index lies in the array exactly where the
depth covers every access. The runs of lifted programs are such runs. -/
theorem stack_bounds_iff {rclass : RegisterClass} {events : List StackEvent} {W : Type} {cx : Context W}
    {mfs : List MachineFunction} {addrs : FuncId → FunctionAddresses} {M : IRModule W} {B : BitVec 64}
    {sp : Cell} {s : (Config M.widths W × RiscV.StackGuest) × List StackEvent} {minst : MachineInstr} :
    (stats.getRegisterClassFor spReg = some rclass → LegalRun stats spReg stackSize (.initial spReg) events →
      WholeRun spReg events →
        (IndicesInside stats spReg stackSize (rclass.bitsize / 8) events ↔
          AllCovered stats spReg stackSize (rclass.bitsize / 8) events)) ∧
    (RiscV.ZeroedRun cx mfs addrs M stackSize B spReg sp s → RiscV.accessing? mfs s.1.1 = some minst →
      RiscV.AccessesIndex cx M stackSize B spReg s ⟨pointersBehind spReg s.2, minst, spReg, 8⟩) :=
  ⟨fun _ run whole => inside_covered run whole _, fun zeroed here => zeroed.accesses here⟩

def doubles : RegisterClass where
  name := "FPR"
  bitsize := 64
  regs := .single 40 []

def words : RegisterClass := { RiscV.gpr with bitsize := 32 }

/-- General registers of 32 bits beside floating registers of 64. -/
def mixedClasses : RegisterStats := [words, doubles]

/-- A frame of 16 bytes whose last word is stored. -/
def lastWord : List StackEvent :=
  [.adjust RiscV.X2 RiscV.X2 (-16), .access (RiscV.sw RiscV.X10 RiscV.X2 12) RiscV.X2 4]

/-- A frame of 16 bytes whose first double word is stored. -/
def firstDoubleWord : List StackEvent :=
  [.adjust RiscV.X2 RiscV.X2 (-16), .access (RiscV.sd RiscV.X10 RiscV.X2 0) RiscV.X2 8]

/-- The pointers behind the allocation of a frame of 16 bytes. -/
def allocated : StackPointers :=
  (StackPointers.initial RiscV.X2).step (.adjust RiscV.X2 RiscV.X2 (-16))

theorem legal_frame (large : 16 ≤ stackSize) {minst : MachineInstr} {bytes : Nat}
    (legal : StackAccess.Legal ⟨allocated, minst, RiscV.X2, bytes⟩ RiscV.X2 stats) :
    LegalRun stats RiscV.X2 stackSize (.initial RiscV.X2)
      [.adjust RiscV.X2 RiscV.X2 (-16), .access minst RiscV.X2 bytes] := by
  have depth : (allocated (.reg RiscV.X2)).depth = 16 := by decide
  have bounded : (allocated (.reg RiscV.X2)).depth ≤ stackSize := by omega
  exact .step (Int.natCast_nonneg _) (by simp [accesses])
    (.step bounded (List.forall_mem_singleton.mpr legal) (.done bounded))

theorem legal_lastWord : LegalRun mixedClasses RiscV.X2 16 (.initial RiscV.X2) lastWord :=
  legal_frame (by omega)
    ⟨by decide, ⟨_, List.mem_cons_self, rfl⟩, by decide, by decide, by decide, by decide⟩

theorem legal_firstDoubleWord (large : 16 ≤ stackSize) :
    LegalRun [RiscV.gpr] RiscV.X2 stackSize (.initial RiscV.X2) firstDoubleWord :=
  legal_frame large ⟨by decide, ⟨_, List.mem_cons_self, rfl⟩, by decide, by decide, by decide, by decide⟩

/-- An array of two elements is accessed at 2, and at −1 where the classes are mixed. -/
theorem stack_left :
    (LegalRun [RiscV.gpr] RiscV.X2 16 (.initial RiscV.X2) firstDoubleWord ∧ stackElements [RiscV.gpr] 16 = 2 ∧
      (accesses (.initial RiscV.X2) firstDoubleWord).map (·.index RiscV.X2 8) = [2]) ∧
    LegalRun mixedClasses RiscV.X2 16 (.initial RiscV.X2) lastWord ∧ stackElements mixedClasses 16 = 2 ∧
      (accesses (.initial RiscV.X2) lastWord).map (·.index RiscV.X2 4) = [-1] :=
  ⟨⟨legal_firstDoubleWord (by omega), rfl, by decide⟩, legal_lastWord, rfl, by decide⟩

namespace RiscV
open Transition

/-- The caller from a zero-initialised `register_state`, its stack pointer at 0x1000. -/
def savingRun : (Config (module savingCallers none).widths World × StackGuest) × List StackEvent :=
  ((⟨[(module savingCallers none).entryFrame 0 (((module savingCallers none).body 0).getD fun _ => [])],
    zeroed _⟩, ⟨0x1000, fun _ => 0⟩), [])

theorem savingRun_zeroed {n : Nat} {s : (Config (module savingCallers none).widths World × StackGuest) ×
    List StackEvent} (run : iterate (tracedStep context savingCallers X2 (module savingCallers none)) n
      savingRun = some s) :
    ZeroedRun context savingCallers (fun _ => none) (module savingCallers none) 64 0x1000 X2 ⟨0, X2⟩ s where
  module := ⟨none, "", rfl⟩
  rv := rv64
  varying := rfl
  disjoint := by decide
  real := rfl
  fits := by decide
  disciplined := savingCallers_disciplined
  run := ⟨0, _, zeroed _, fun _ => 0, rfl, rfl, n, run⟩

end RiscV

/-- With an element more the frame fits, and a lifted caller has the index of its first save. -/
theorem firstDoubleWord_inside :
    (stackElements [RiscV.gpr] 24 = 3 ∧ IndicesInside [RiscV.gpr] RiscV.X2 24 8 firstDoubleWord) ∧
    ∃ s, RiscV.accessing? RiscV.savingCallers s.1.1 = some (RiscV.sd RiscV.X10 RiscV.X2 8) ∧
      RiscV.AccessesIndex RiscV.context (RiscV.module RiscV.savingCallers none) 64 0x1000 RiscV.X2 s
        ⟨pointersBehind RiscV.X2 s.2, RiscV.sd RiscV.X10 RiscV.X2 8, RiscV.X2, 8⟩ := by
  have classed : RegisterStats.getRegisterClassFor [RiscV.gpr] RiscV.X2 = some RiscV.gpr := rfl
  have covered : AllCovered [RiscV.gpr] RiscV.X2 24 8 firstDoubleWord := by
    unfold AllCovered StackAccess.Covered
    decide
  have whole : WholeRun RiscV.X2 firstDoubleWord := by
    unfold WholeRun
    decide
  have facts : ((Transition.iterate (RiscV.tracedStep RiscV.context RiscV.savingCallers RiscV.X2
      (RiscV.module RiscV.savingCallers none)) 24 RiscV.savingRun).any fun s =>
        RiscV.accessing? RiscV.savingCallers s.1.1 = some (RiscV.sd RiscV.X10 RiscV.X2 8)) = true := by
    decide +kernel
  obtain ⟨s, run, here⟩ := (Option.any_eq_true _ _).mp facts
  have saves := of_decide_eq_true here
  -- the frame needs no program, and the program no frame
  have bounds := fun stackSize => @stack_bounds_iff [RiscV.gpr] RiscV.X2 stackSize RiscV.gpr firstDoubleWord
    RiscV.World RiscV.context RiscV.savingCallers (fun _ => none) (RiscV.module RiscV.savingCallers none)
    0x1000 ⟨0, RiscV.X2⟩ s (RiscV.sd RiscV.X10 RiscV.X2 8)
  exact ⟨⟨rfl, ((bounds 24).1 classed (legal_firstDoubleWord (by omega)) whole).mpr covered⟩, s, saves,
    (bounds 64).2 (RiscV.savingRun_zeroed run) saves⟩

end Bleach
