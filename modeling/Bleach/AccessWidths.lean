import Bleach.StackAccess

/-! Widths of stack accesses. Whatever its opcode, a stack access moves one whole slot
of the inline stack. Accesses of 8 bytes therefore behave like memory, and
accesses of 4 bytes do not. -/
namespace Bleach.RiscV
open ByteMemory (Memory)
open SlotMirror (Mirrors slotAddress)
variable {W : Type} {cx : Context W} {M : IRModule W} {s : Site} {st st' : Builder}
  {spReg : Register} {sp c : Cell} {w : Nat → Nat} {B : BitVec 64}

/-- A loaded value as the register receives it. -/
def AccessOp.extend (op : AccessOp) (v : BitVec n) : BitVec 64 :=
  match op with
  | lw => (v.setWidth 32).signExtend 64
  | flw => nanBox (v.setWidth 32)
  | _ => v.setWidth 64

/-- A load or store of a register at an offset from the stack pointer. -/
structure Access where
  op : AccessOp
  reg : Register
  off : Int

/-- The registers and the memory of the guest. -/
structure GuestState (w : Nat → Nat) where
  locals : Locals w
  mem : Memory (BitVec 64)

namespace Access

def instr (spReg : Register) (a : Access) : MachineInstr := a.op.instr a.reg spReg a.off

/-- The access stores the stack pointer itself. -/
def storesPointer (cx : Context W) (sp : Cell) (a : Access) : Bool :=
  !a.op.isLoad && (cx.instrs.constReg? cx.tm a.reg).isNone && cx.rmap.find a.reg = some sp

/-- Naturally aligned accesses of 64-bit registers that leave the stack pointer alone. -/
structure Valid (cx : Context W) (sp : Cell) (a : Access) : Prop where
  wide : ∃ c, Wide cx a.reg c
  fixed : a.op.isLoad = true → cx.rmap.find a.reg ≠ some sp
  aligned : (a.op.bytes : Int) ∣ a.off

/-- The access as the guest executes it while its stack pointer is `gsp`. -/
def exec (cx : Context W) (sp : Cell) (gsp : BitVec 64) (a : Access) (g : GuestState w) :
    GuestState w :=
  let address := gsp + BitVec.ofInt 64 a.off
  if a.op.isLoad then
    match cx.rmap.find a.reg with
    | some c =>
      let value := a.op.extend (ByteMemory.load g.mem address a.op.bytes)
      { g with locals := Function.update g.locals c (value.setWidth _) }
    | none => g
  else
    let value := if a.storesPointer cx sp then gsp else operandValue cx g.locals a.reg
    { g with mem := ByteMemory.store g.mem address value a.op.bytes }

/-- The access lies in the stack array when the stack pointer is at slot `i`. -/
def InArray (n : Nat) (i : BitVec 64) (a : Access) : Prop :=
  (i - BitVec.ofInt 64 (a.off / 8)).toNat < n

instance (n : Nat) (i : BitVec 64) (a : Access) : Decidable (a.InArray n i) :=
  inferInstanceAs (Decidable (_ < _))

end Access

def execAll (cx : Context W) (sp : Cell) (gsp : BitVec 64) (accs : List Access) (g : GuestState w) :
    GuestState w := accs.foldl (fun g a => a.exec cx sp gsp g) g

/-- Executing the lifted accesses in sequence gives the registers and the memory the
guest has after executing them. -/
def BehavesLikeMemory (cx : Context W) (M : IRModule W) (spReg : Register) (sp : Cell)
    (accs : List Access) : Prop :=
  ∀ s st st' code, spReg ∈ st.sptrack → st.cur = s.label →
    fillInstrs cx s none (accs.map (Access.instr spReg)) st = .ok st' →
    st'.blocks st.cur = st.blocks st.cur ++ code →
    ∀ (B : BitVec 64) (mem : Memory (BitVec 64)) (d : Data M.widths W),
      Mirrors B 8 M.stackCount mem d.shared.stack →
      (∀ a ∈ accs, a.InArray M.stackCount (pointerSlot sp d.locals)) →
      ∃ d', execCode M code d = some d' ∧
        let g := execAll cx sp (slotAddress B 8 (pointerSlot sp d.locals).toNat) accs ⟨d.locals, mem⟩
        Mirrors B 8 M.stackCount g.mem d'.shared.stack ∧ d'.locals = g.locals

theorem extend_whole {op : AccessOp} (whole : op.bytes = 8) (mem : Memory (BitVec 64))
    (address : BitVec 64) :
    op.extend (ByteMemory.load mem address op.bytes) = ByteMemory.load mem address 8 := by
  cases op with
  | sd | fsd | ld | fld => exact BitVec.setWidth_eq _
  | sw | fsw | lw | flw => cases whole

/-- An access of 8 bytes does to the array what the guest's access does to memory. -/
theorem whole_access (rv : RV64 cx spReg sp) (widths : M.widths = cx.stats.widths)
    (slots : M.stackElemBits = 64) (fits : 8 * M.stackCount ≤ 2 ^ 64) {a : Access}
    (valid : a.Valid cx sp) (whole : a.op.bytes = 8) (other : a.storesPointer cx sp = false)
    (tracked : spReg ∈ st.sptrack) (own : st.cur = s.label) {addr : Option (BitVec 64)}
    (done : generateInstruction cx s addr (a.instr spReg) st = .ok st') :
    ∃ code, (∀ l, st'.blocks l = (st.emit code).blocks l) ∧ st'.cur = st.cur ∧
      st'.sptrack = st.sptrack ∧ ∀ (B : BitVec 64) (mem : Memory (BitVec 64)) (d : Data M.widths W),
        Mirrors B 8 M.stackCount mem d.shared.stack →
        a.InArray M.stackCount (pointerSlot sp d.locals) →
        ∃ d', execCode M code d = some d' ∧
          let g := a.exec cx sp (slotAddress B 8 (pointerSlot sp d.locals).toNat) ⟨d.locals, mem⟩
          Mirrors B 8 M.stackCount g.mem d'.shared.stack ∧ d'.locals = g.locals ∧
          pointerSlot sp d'.locals = pointerSlot sp d.locals := by
  obtain ⟨code, blocks, cur, sptrack, paths⟩ := rv.access_code tracked own done
  have aligned : 8 ∣ a.off := by simpa [whole] using valid.aligned
  have address : ∀ (B : BitVec 64) (d : Data M.widths W),
      slotAddress B 8 (pointerSlot sp d.locals).toNat + BitVec.ofInt 64 a.off =
        slotAddress B 8 (slotIndex sp a.off d).toNat := by
    intro B d
    rw [slotAddress_ofInt, slotIndex_aligned aligned, Int.emod_eq_zero_of_dvd aligned]
    exact add_zero _
  obtain ⟨c, wide⟩ := valid.wide
  refine ⟨code, blocks, cur, sptrack, fun B mem d mirrors inside => ?_⟩
  have inside : (slotIndex sp a.off d).toNat < M.stackCount := by
    rw [slotIndex_aligned aligned]
    exact inside
  have wideSp : M.widths sp.cls = 64 := widths ▸ rv.width
  obtain ⟨load, c', found, rfl⟩ | ⟨store, load, value, operand, rfl⟩ := paths
  · obtain rfl := Option.some.inj (wide.1.symm.trans found)
    obtain ⟨d', run, locals, shared⟩ :=
      (run_loadCode slots wideSp (widths ▸ wide.2) s a.off d).1 inside
    refine ⟨d', run, ?_⟩
    simp only [Access.exec, load, if_true, found, address, extend_whole whole]
    refine ⟨shared ▸ mirrors, ?_, ?_⟩
    · rw [locals, mirrors.load_eq inside (Nat.le_refl 8)]
    · have apart : sp ≠ c := fun same => valid.fixed load (same ▸ found)
      rw [pointerSlot, locals, Function.update_of_ne apart, pointerSlot]
  · obtain ⟨d', run, locals, shared⟩ :=
      (run_storeCode widths slots wideSp wide operand a.off d).1 inside
    refine ⟨d', run, ?_⟩
    simp only [Access.exec, store, other, Bool.false_eq_true, if_false, address, whole]
    refine ⟨?_, locals, by rw [locals]⟩
    rw [shared]
    exact mirrors.store fits inside (Nat.le_refl 8) _

theorem whole_accesses (rv : RV64 cx spReg sp) (widths : M.widths = cx.stats.widths)
    (slots : M.stackElemBits = 64) (fits : 8 * M.stackCount ≤ 2 ^ 64) {accs : List Access}
    (valid : ∀ a ∈ accs, a.Valid cx sp)
    (whole : ∀ a ∈ accs, a.op.bytes = 8 ∧ a.storesPointer cx sp = false) :
    BehavesLikeMemory cx M spReg sp accs := by
  induction accs with
  | nil =>
    intro s st st' code _ _ done appended B mem d mirrors _
    obtain rfl := Except.ok.inj done
    obtain rfl : code = [] := by simpa using appended
    exact ⟨d, rfl, mirrors, rfl⟩
  | cons a rest ih =>
    obtain ⟨validA, validRest⟩ := List.forall_mem_cons.mp valid
    obtain ⟨⟨bytes, other⟩, wholeRest⟩ := List.forall_mem_cons.mp whole
    intro s st st' code tracked own done appended B mem d mirrors inside
    obtain ⟨insideA, insideRest⟩ := List.forall_mem_cons.mp inside
    obtain ⟨addr, -, done⟩ := bind_ok.mp done
    obtain ⟨middle, first, later⟩ := bind_ok.mp done
    obtain ⟨code₁, blocks, cur, sptrack, step⟩ :=
      whole_access rv widths slots fits validA bytes other tracked own first
    obtain ⟨code₂, more⟩ : ∃ code₂, st'.blocks middle.cur = middle.blocks middle.cur ++ code₂ := by
      obtain ⟨code₂, more⟩ := extends_instrs later middle.cur
      exact ⟨code₂, more.symm⟩
    obtain rfl : code = code₁ ++ code₂ := by
      rw [cur, blocks] at more
      simpa [appended] using more
    obtain ⟨d₁, run₁, mirrors₁, locals₁, pointer⟩ := step B mem d mirrors insideA
    obtain ⟨d', run, mirrors', locals'⟩ := ih validRest wholeRest { s with idx := s.idx + 1 } middle
      st' code₂ (sptrack ▸ tracked) (cur.trans own) later more B _ d₁ mirrors₁ (pointer ▸ insideRest)
    refine ⟨d', by rw [execCode_append, run₁]; exact run, ?_⟩
    rw [pointer, locals₁] at mirrors' locals'
    exact ⟨mirrors', locals'⟩

/-- The stack pointer at slot `i`, every other register zero. -/
def pinnedLocals (w : Nat → Nat) (sp : Cell) (i : BitVec 64) : Locals w :=
  Function.update (fun _ => 0) sp (i.setWidth _)

/-- The stack pointer at slot `i`, every byte of the stack `b`. -/
def pinned [Inhabited W] (M : IRModule W) (sp : Cell) (i : BitVec 64) (b : BitVec 8) :
    Data M.widths W :=
  ⟨fun _ => none, pinnedLocals M.widths sp i, ⟨fun _ => 0, fun _ => b, [], default⟩⟩

theorem pinned_pointer [Inhabited W] (wide : M.widths sp.cls = 64) (i : BitVec 64) (b : BitVec 8) :
    pointerSlot sp (pinned M sp i b).locals = i := by
  simp [pointerSlot, pinned, pinnedLocals, wide]

theorem single_access [Inhabited W] (rv : RV64 cx spReg sp) (widths : M.widths = cx.stats.widths)
    (slots : M.stackElemBits = 64) (pos : 0 < M.stackCount) {a : Access} (wide : Wide cx a.reg c)
    (behaves : BehavesLikeMemory cx M spReg sp [a]) (B : BitVec 64) (b : BitVec 8) :
    let i := BitVec.ofInt 64 (a.off / 8)
    let d := pinned M sp i b
    let g := a.exec cx sp (slotAddress B 8 i.toNat) ⟨pinnedLocals M.widths sp i, fun _ => b⟩
    (slotIndex sp a.off d).toNat < M.stackCount ∧
    (a.op.isLoad = true →
      (g.locals c).setWidth 64 = ByteMemory.load (fun _ : Nat => b) ((slotIndex sp a.off d).toNat * 8) 8) ∧
    (a.op.isLoad = false → Mirrors B 8 M.stackCount g.mem (ByteMemory.store (fun _ => b)
      ((slotIndex sp a.off d).toNat * 8)
      (operandValue cx (pinnedLocals M.widths sp i) a.reg) 8)) := by
  intro i d g
  let s : Site := ⟨1, 0, [], 0⟩
  let st : Builder := ⟨fun _ => [], s.label, {spReg}⟩
  have tracked : spReg ∈ st.sptrack := Finset.mem_singleton_self _
  have wideSp : M.widths sp.cls = 64 := widths ▸ rv.width
  have pointer : pointerSlot sp d.locals = i := pinned_pointer wideSp i b
  obtain ⟨st', lifted⟩ :=
    rv.access_lifts tracked wide.1 a.op a.off s none
  obtain ⟨code, blocks, -, -, paths⟩ := rv.access_code tracked rfl lifted
  have filled : fillInstrs cx s none ([a].map (Access.instr spReg)) st = .ok st' :=
    bind_ok.mpr ⟨none, rfl, bind_ok.mpr ⟨st', lifted, rfl⟩⟩
  obtain ⟨d', run, mirrors, locals⟩ := behaves s st st' code (Finset.mem_singleton_self _) rfl filled
    (by simp [blocks]) B (fun _ => b) d (fun _ _ _ _ => rfl) (by
      simp only [List.mem_singleton, forall_eq, Access.InArray, pointer, i, sub_self]
      exact pos)
  have final : execAll cx sp (slotAddress B 8 (pointerSlot sp d.locals).toNat) [a]
      ⟨d.locals, fun _ => b⟩ = g := by
    rw [pointer]
    rfl
  simp only [final] at mirrors locals
  obtain ⟨load, c', found, rfl⟩ | ⟨store, load, value, operand, rfl⟩ := paths
  · obtain rfl := Option.some.inj (wide.1.symm.trans found)
    have wideC : M.widths c.cls = 64 := widths ▸ wide.2
    obtain ⟨reads, stuck⟩ := run_loadCode slots wideSp wideC s a.off d
    have inside : (slotIndex sp a.off d).toNat < M.stackCount := by
      by_contra outside
      rw [stuck outside] at run
      cases run
    refine ⟨inside, fun _ => ?_, fun other => by simp [load] at other⟩
    obtain ⟨d'', run', locals', -⟩ := reads inside
    obtain rfl := Option.some.inj (run.symm.trans run')
    rw [← locals, locals', Function.update_self]
    have back : ∀ v : BitVec 64, (v.setWidth (M.widths c.cls)).setWidth 64 = v := by
      intro v
      rw [wideC]
      simp
    exact back _
  · obtain ⟨writes, stuck⟩ := run_storeCode widths slots wideSp wide operand a.off d
    have inside : (slotIndex sp a.off d).toNat < M.stackCount := by
      by_contra outside
      rw [stuck outside] at run
      cases run
    refine ⟨inside, fun other => by simp [store] at other, fun _ => ?_⟩
    obtain ⟨d'', run', -, shared⟩ := writes inside
    obtain rfl := Option.some.inj (run.symm.trans run')
    rw [shared] at mirrors
    exact mirrors

theorem half_load {op : AccessOp} (load : op.isLoad = true) (half : op.bytes = 4)
    (address : BitVec 64) (p : Nat) :
    op.extend (ByteMemory.load (fun _ => 1#8) address op.bytes) ≠
      ByteMemory.load (fun _ => 1#8) p 8 := by
  have four : ByteMemory.load (fun _ => 1#8) address 4 = 0x01010101#32 := by simp [ByteMemory.load]
  have eight : ByteMemory.load (fun _ => 1#8) p 8 = 0x0101010101010101#64 := by
    simp [ByteMemory.load]
  intro same
  cases op with
  | sw | sd | fsw | fsd => cases load
  | ld | fld => cases half
  | lw =>
    rw [AccessOp.bytes, four, eight] at same
    exact absurd same (by decide)
  | flw =>
    rw [AccessOp.bytes, four, eight] at same
    exact absurd same (by decide)

/-- A store of four bytes leaves the other half of the slot alone; a whole slot is
never stored that way. -/
theorem half_store {n k : Nat} (fits : 8 * n ≤ 2 ^ 64) (pos : 0 < n) (inside : k < n) {j : Nat}
    (aligned : j = 0 ∨ j = 4) {x y : BitVec 64} {b : BitVec 8}
    (fresh : b ≠ ByteMemory.byte x (4 - j)) :
    ¬Mirrors B 8 n (ByteMemory.store (fun _ => b) (slotAddress B 8 0 + (j : BitVec 64)) y 4)
      (ByteMemory.store (fun _ => b) (k * 8) x 8) := by
  intro mirrors
  have short : 4 - j < 8 := by omega
  have stored := mirrors k inside (4 - j) short
  have here : ByteMemory.store (fun _ => b) (k * 8) x 8 (k * 8 + (4 - j : Nat)) =
      ByteMemory.byte x (4 - j) := ByteMemory.store_at (ByteMemory.spread_nat _ 8) short
  rw [here, ByteMemory.store_other] at stored
  · exact fresh stored.symm
  · intro l before same
    have joined : slotAddress B 8 0 + (j : BitVec 64) + (l : BitVec 64) =
        slotAddress B 8 0 + ((j + l : Nat) : BitVec 64) := by
      rw [add_assoc, Nat.cast_add]
    rw [joined] at same
    have := (SlotMirror.slotAddress_inj fits inside pos short (by omega) same).2
    omega

/-- A stored stack pointer is the slot, not the guest's address. -/
theorem pointer_store [Inhabited W] (rv : RV64 cx spReg sp) (widths : M.widths = cx.stats.widths)
    (slots : M.stackElemBits = 64) (fits : 8 * M.stackCount ≤ 2 ^ 64) (pos : 0 < M.stackCount)
    {a : Access} (whole : a.op.bytes = 8) (aligned : 8 ∣ a.off) (pointer : a.storesPointer cx sp = true) :
    ¬BehavesLikeMemory cx M spReg sp [a] := by
  intro behaves
  obtain ⟨⟨store, varying⟩, found⟩ : (a.op.isLoad = false ∧ cx.instrs.constReg? cx.tm a.reg = none) ∧
      cx.rmap.find a.reg = some sp := by
    simpa [Access.storesPointer] using pointer
  have wideSp : M.widths sp.cls = 64 := widths ▸ rv.width
  generalize start : BitVec.ofInt 64 (a.off / 8) = i
  have shifted : slotAddress (8#64 * i + i + 1) 8 i.toNat = i + 1 := by
    rw [slotAddress, BitVec.ofNat_mul, BitVec.ofNat_toNat, BitVec.setWidth_eq]
    ring
  have index : slotIndex sp a.off (pinned M sp i 0) = 0 := by
    rw [slotIndex_aligned aligned, pinned_pointer wideSp, start, sub_self]
  have value : operandValue cx (pinnedLocals M.widths sp i) a.reg = i := by
    simp [operandValue, varying, found, pinnedLocals, wideSp]
  have single := single_access rv widths slots pos ⟨found, rv.width⟩ behaves (8#64 * i + i + 1) 0
  simp only [start] at single
  obtain ⟨-, -, stored⟩ := single
  have mirrors := stored store
  have address : i + 1 + BitVec.ofInt 64 a.off = slotAddress (8#64 * i + i + 1) 8 0 := by
    rw [← shifted, slotAddress_ofInt, start, sub_self, Int.emod_eq_zero_of_dvd aligned]
    exact add_zero _
  simp only [Access.exec, store, Bool.false_eq_true, if_false, pointer, if_true, whole, address, shifted,
    index, value] at mirrors
  have loaded := mirrors.load_eq pos (Nat.le_refl 8)
  rw [show (0 : BitVec 64).toNat * 8 = 0 * 8 from rfl, ByteMemory.load_store_same
    (ByteMemory.spread_nat _ _), ByteMemory.load_store_same (SlotMirror.spread_slot fits pos),
    BitVec.setWidth_eq, BitVec.setWidth_eq] at loaded
  exact absurd (add_left_cancel ((add_zero i).trans loaded)) (by decide)

theorem whole_of_behaves [Inhabited W] (rv : RV64 cx spReg sp) (widths : M.widths = cx.stats.widths)
    (slots : M.stackElemBits = 64) (fits : 8 * M.stackCount ≤ 2 ^ 64) (pos : 0 < M.stackCount)
    {a : Access} (valid : a.Valid cx sp) (behaves : BehavesLikeMemory cx M spReg sp [a]) :
    a.op.bytes = 8 ∧ a.storesPointer cx sp = false := by
  obtain ⟨c, wide⟩ := valid.wide
  have single := single_access rv widths slots pos wide behaves
  have start : ∀ B : BitVec 64, slotAddress B 8 (BitVec.ofInt 64 (a.off / 8)).toNat +
      BitVec.ofInt 64 a.off = slotAddress B 8 0 + ((a.off % 8).toNat : BitVec 64) := by
    intro B
    rw [slotAddress_ofInt, sub_self]
    rfl
  have whole : a.op.bytes = 8 := by
    by_contra other
    have half : a.op.bytes = 4 := by cases op : a.op <;> simp_all [AccessOp.bytes]
    have aligned : (a.off % 8).toNat = 0 ∨ (a.off % 8).toNat = 4 := by
      have := valid.aligned
      rw [half] at this
      omega
    cases load : a.op.isLoad with
    | true =>
      obtain ⟨-, loaded, -⟩ := single 0 1
      have value := loaded load
      simp only [Access.exec, load, if_true, wide.1, Function.update_self] at value
      have back : ∀ v : BitVec 64, (v.setWidth (M.widths c.cls)).setWidth 64 = v := by
        intro v
        rw [widths, wide.2]
        simp
      exact half_load load half _ _ ((back _).symm.trans value)
    | false =>
      obtain ⟨inside, -, stored⟩ := single 0 (ByteMemory.byte (operandValue cx
        (pinnedLocals M.widths sp (BitVec.ofInt 64 (a.off / 8))) a.reg) (4 - (a.off % 8).toNat) + 1)
      have mirrors := stored load
      simp only [Access.exec, load, Bool.false_eq_true, if_false, half, start] at mirrors
      refine half_store fits pos inside aligned ?_ mirrors
      intro same
      exact absurd (add_left_cancel (same.trans (add_zero _).symm)) (by decide)
  refine ⟨whole, ?_⟩
  by_contra pointer
  exact pointer_store rv widths slots fits pos whole (by simpa [whole] using valid.aligned)
    (by simpa using pointer) behaves

/-- All sequences of some accesses behave like memory exactly when each access moves
eight bytes, and none stores the stack pointer. -/
theorem accesses_behave_iff [Inhabited W] {mfs : List MachineFunction}
    {addrs : FuncId → FunctionAddresses} {finfo : Option FileInfo} {stackSize : Nat}
    {liftedPrefix : String}
    (module : bleachModule cx mfs addrs finfo stackSize liftedPrefix = .ok M)
    (rv : RV64 cx spReg sp) (fits : stackSize ≤ 2 ^ 64) (pos : 8 ≤ stackSize) (A : Access → Prop)
    (valid : ∀ a, A a → a.Valid cx sp) :
    (∀ accs, (∀ a ∈ accs, A a) → BehavesLikeMemory cx M spReg sp accs) ↔
      ∀ a, A a → a.op.bytes = 8 ∧ a.storesPointer cx sp = false := by
  obtain ⟨funcs, adds, -, lifted, count, -, -⟩ := lifted_of_bleachModule module
  have slots : M.stackElemBits = 64 := lifted.stackElemBits.trans rv.slotBits
  have count : M.stackCount = stackSize / 8 := by rw [count, rv.slotBits]
  constructor
  · intro behaves a member
    exact whole_of_behaves rv lifted.widths slots (by omega) (by omega) (valid a member)
      (behaves [a] (by simpa using member))
  · intro whole accs members
    exact whole_accesses rv lifted.widths slots (by omega) (fun a inside => valid a (members a inside))
      (fun a inside => whole a (members a inside))

theorem rv64 : RV64 context X2 ⟨0, X2⟩ where
  stackPointer := rfl
  cell := rfl
  width := rfl
  slotBits := rfl
  ordinary := by
    rintro ⟨desc, operands⟩ (rfl | ⟨op, rfl⟩)
    · exact ⟨rfl, rfl⟩
    · cases op <;> exact ⟨rfl, rfl⟩
  loads := by
    intro op load
    cases op with
    | sw | sd | fsw | fsd => cases load
    | lw | ld | flw | fld => exact ⟨_, rfl, rfl⟩
  addi := rfl

def leaf : MachineFunction := ⟨"leaf", [[ret]]⟩

def leafModule : IRModule World := module [leaf] none

def twoLocals : List Access := [⟨.sw, X10, 0⟩, ⟨.sw, X11, 4⟩, ⟨.lw, X10, 0⟩]

theorem twoLocals_valid : ∀ a ∈ twoLocals, a.Valid context ⟨0, X2⟩ := by
  simp only [twoLocals, List.forall_mem_cons]
  exact ⟨⟨⟨_, rfl, rfl⟩, by decide, by decide⟩, ⟨⟨_, rfl, rfl⟩, by decide, by decide⟩,
    ⟨⟨_, rfl, rfl⟩, by decide, by decide⟩, by simp⟩

theorem twoLocals_share : ¬∀ accs : List Access, (∀ a ∈ accs, a.Valid context ⟨0, X2⟩) →
    BehavesLikeMemory context leafModule X2 ⟨0, X2⟩ accs := by
  intro behaves
  let d : Data leafModule.widths World := ⟨fun _ => none, fun c => BitVec.ofNat _ c.reg, zeroed _⟩
  obtain ⟨st', code, filled, appended, loaded⟩ : ∃ st' code,
      fillInstrs context ⟨1, 0, [], 0⟩ none (twoLocals.map (Access.instr X2))
        ⟨fun _ => [], .mbb 0, {X2}⟩ = .ok st' ∧ st'.blocks (.mbb 0) = [] ++ code ∧
      (execCode leafModule code d).map (fun d' => (d'.locals ⟨0, X10⟩).toNat) = some 11 :=
    ⟨_, _, rfl, rfl, by decide +kernel⟩
  obtain ⟨d', run, -, locals⟩ := behaves twoLocals twoLocals_valid _ _ st' code
    (Finset.mem_singleton_self _) rfl filled appended 0 (fun _ => 0) d (fun _ _ _ _ => rfl) (by decide)
  rw [run, Option.map_some, locals] at loaded
  exact absurd loaded (by decide)

theorem saveRestore_behaves :
    BehavesLikeMemory context leafModule X2 ⟨0, X2⟩ [⟨.sd, X10, 8⟩, ⟨.ld, X11, 8⟩] := by
  have members : ∀ a ∈ [(⟨.sd, X10, 8⟩ : Access), ⟨.ld, X11, 8⟩], a.Valid context ⟨0, X2⟩ := by
    simp only [List.forall_mem_cons]
    exact ⟨⟨⟨_, rfl, rfl⟩, by decide, by decide⟩, ⟨⟨_, rfl, rfl⟩, by decide, by decide⟩, by simp⟩
  refine (@accesses_behave_iff World context leafModule X2 ⟨0, X2⟩ ⟨fun _ => 0⟩ [leaf] (fun _ => none)
    none 64 "" rfl rv64 (by omega) (by omega) (· ∈ [⟨.sd, X10, 8⟩, ⟨.ld, X11, 8⟩]) members).mpr
    ?_ _ fun _ member => member
  simp only [List.forall_mem_cons]
  exact ⟨⟨rfl, rfl⟩, ⟨rfl, rfl⟩, by simp⟩

end Bleach.RiscV
