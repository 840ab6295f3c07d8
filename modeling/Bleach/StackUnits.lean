import Bleach.StackLifting

/-! The units of stack offsets: a modification of the stack pointer divides by 8, an
access by the width of the stack pointer's register class. Slots are integers here, as
the lifted code adds them up. -/
namespace Bleach

/-- The slot an access computes from a stack pointer whose class is `regBytes` wide. -/
def stackSlot (regBytes : Nat) (sp : Int) (access : MachineInstr) : Int := sp + slotOffset access regBytes

/-- The stack pointer behind an instruction that adds its immediate to it. -/
def allocate (sp : Int) (alloc : MachineInstr) : Int :=
  match alloc.immOperand with
  | none => sp
  | some imm => sp + ((slotOperand imm (.imm imm)).imm?).getD 0

/-- Slots of a frame of `k` bytes, seen from the function that allocates it and from its
caller: what is at offset `off` behind the allocation. -/
structure SameUnits (regBytes : Nat) (caller : Int) (alloc : MachineInstr) (k off : Nat) : Prop where
  above : ∀ (access own : MachineInstr) (off' : Nat), access.immOperand = some ↑off →
    own.immOperand = some ↑off' →
      stackSlot regBytes caller own < stackSlot regBytes (allocate caller alloc) access
  distinct : ∀ (access other : MachineInstr) (off' : Nat), access.immOperand = some ↑off →
    other.immOperand = some ↑off' → regBytes ∣ off' → off' < k →
      stackSlot regBytes (allocate caller alloc) access =
        stackSlot regBytes (allocate caller alloc) other → off = off'
  same : ∀ access before : MachineInstr, access.immOperand = some ↑off →
    before.immOperand = some (off - k : Int) →
      stackSlot regBytes (allocate caller alloc) access = stackSlot regBytes caller before

variable {regBytes k off : Nat} {caller : Int} {alloc access : MachineInstr}

theorem stackSlot_eq {i : Int} (imm : access.immOperand = some i) :
    stackSlot regBytes caller access = caller - i.tdiv regBytes := by
  simp only [stackSlot, slotOffset, imm, Int.neg_tdiv]
  rfl

theorem allocate_eq (imm : alloc.immOperand = some (-(k : Int))) :
    allocate caller alloc = caller + ((k / 8 : Nat) : Int) := by
  simp [allocate, imm, slotOperand, MachineOperand.imm?]

theorem whole_slots (positive : 0 < regBytes) (n : Int) : (regBytes * n).tdiv regBytes = n :=
  Int.mul_tdiv_cancel_left n (by omega)

theorem sameUnits_eight (moves : alloc.immOperand = some (-(k : Int))) (whole : 8 ∣ k)
    (aligned : 8 ∣ off) (inside : off < k) : SameUnits 8 caller alloc k off := by
  obtain ⟨m, rfl⟩ := whole
  obtain ⟨n, rfl⟩ := aligned
  have moved : allocate caller alloc = caller + m := by
    rw [allocate_eq moves, Nat.mul_div_cancel_left m (by omega)]
  have slot : ∀ sp : Int, ∀ access : MachineInstr, access.immOperand = some ((8 * n : Nat) : Int) →
      stackSlot 8 sp access = sp - n := by
    intro sp access here
    rw [stackSlot_eq here, Nat.cast_mul, whole_slots (by omega)]
  constructor
  · intro access own off' here there
    have below : (0 : Int) ≤ (off' : Int).tdiv (8 : Nat) := Int.tdiv_nonneg (by omega) (by omega)
    rw [slot _ access here, stackSlot_eq there, moved]
    omega
  · rintro access other off' here there ⟨n', rfl⟩ - same
    rw [slot _ access here, stackSlot_eq there, Nat.cast_mul, whole_slots (by omega)] at same
    omega
  · intro access before here there
    have back : ((8 * n : Nat) : Int) - ((8 * m : Nat) : Int) = ((8 : Nat) : Int) * (n - m) := by
      push_cast
      ring
    rw [slot _ access here, stackSlot_eq there, back, whole_slots (by omega), moved]
    omega

theorem access_exists (i : Int) : ∃ access : MachineInstr, access.immOperand = some i :=
  ⟨⟨{ name := "LW", numDefs := 1, mayLoad := true }, [.reg 0 true false, .reg 0 false false, .imm i]⟩, rfl⟩

/-- The two units agree exactly where the stack pointer is eight bytes wide, in the last
of any sequence of frames. -/
theorem units_agree_iff (narrow : regBytes ≤ 8) (sp : Int) (frames : List MachineInstr)
    (moves : alloc.immOperand = some (-(k : Int))) (whole : regBytes ∣ k) (aligned : regBytes ∣ off)
    (inside : off < k) :
    SameUnits regBytes (frames.foldl allocate sp) alloc k off ↔ regBytes = 8 := by
  constructor
  · intro units
    obtain ⟨m, rfl⟩ := whole
    obtain ⟨n, rfl⟩ := aligned
    have positive : 0 < regBytes := Nat.pos_of_mul_pos_right (Nat.zero_lt_of_lt inside)
    obtain ⟨access, here⟩ := access_exists ((regBytes * n : Nat) : Int)
    obtain ⟨before, there⟩ :=
      access_exists (((regBytes * n : Nat) : Int) - ((regBytes * m : Nat) : Int))
    have back : ((regBytes * n : Nat) : Int) - ((regBytes * m : Nat) : Int) = regBytes * (n - m) := by
      push_cast
      ring
    have same := units.same access before here there
    rw [stackSlot_eq here, stackSlot_eq there, back, whole_slots positive, allocate_eq moves,
      Nat.cast_mul, whole_slots positive] at same
    have counted : regBytes * m / 8 = m := by omega
    by_contra other
    have short : regBytes * m < 8 * m :=
      Nat.mul_lt_mul_of_pos_right (by omega) (Nat.pos_of_mul_pos_left (Nat.zero_lt_of_lt inside))
    omega
  · rintro rfl
    exact sameUnits_eight moves whole aligned inside

section
variable {W : Type} {cx : Context W} {M : IRModule W} {s : Site} {st st' : Builder}
  {minst : MachineInstr}

/-- The index a lifted access computes in 64 bits is the slot of its offset. -/
theorem accessedSlots_stackSlot (widths : M.widths = cx.stats.widths)
    (done : generateLoadStoreFromStack cx s minst st = .ok st') :
    ∃ spReg sp rclass code, cx.stackPointer? = some spReg ∧ cx.rmap.find spReg = some sp ∧
      cx.stats.getRegisterClassFor spReg = some rclass ∧
      st'.blocks st.cur = st.blocks st.cur ++ code ∧
      ∀ (d : Data M.widths W) (caller : Int), M.widths sp.cls = 64 →
        d.locals sp = BitVec.ofInt _ caller → accessedSlots M code d =
          [⟨_, BitVec.ofInt (M.widths sp.cls) (stackSlot (rclass.bitsize / 8) caller minst)⟩] := by
  obtain ⟨spReg, sp, rclass, code, named, found, classed, emitted, -, slots⟩ :=
    stackAccess_slots widths done
  refine ⟨spReg, sp, rclass, code, named, found, classed, emitted, ?_⟩
  intro d caller wide pointer
  have sum : ∀ (w : Nat) (x y : Int), w = 64 →
      BitVec.ofInt w x + (BitVec.ofInt 64 y).setWidth w = BitVec.ofInt w (x + y) := by
    rintro _ x y rfl
    rw [BitVec.setWidth_eq, BitVec.ofInt_add]
  rw [slots d, if_pos wide, pointer, sum _ _ _ wide]
  rfl

theorem exec_allocate {spReg : Register} {sp : Cell} (host : RiscV.StackHost cx M spReg sp)
    {id : ValueId} {first : Value} {d : Data M.widths W}
    (left : evalInt d.env first = some ⟨64, BitVec.ofInt 64 caller⟩) (i : Int) :
    execInst M d (.callInstr id "ADDI" [first, .const (.ofInt 64 ((-i).tdiv 8))]) =
      some (d.bind id (.int ⟨64, BitVec.ofInt 64 (allocate caller (RiscV.addi spReg spReg i))⟩)) := by
  have moved : allocate caller (RiscV.addi spReg spReg i) = caller + (-i).tdiv 8 := by
    have imm : (RiscV.addi spReg spReg i).immOperand = some i := rfl
    simp [allocate, imm, slotOperand, MachineOperand.imm?]
  rw [host.exec_addi left rfl, moved, BitVec.ofInt_add]

end

/-- On a 32-bit target the third word of a 16 byte frame is the first one of the caller. -/
theorem narrow_frames_overlap :
    stackSlot 4 (allocate 2 (RiscV.addi 2 2 (-16))) (RiscV.AccessOp.lw.instr 10 2 8) =
        stackSlot 4 2 (RiscV.AccessOp.lw.instr 10 2 0) ∧
      ¬SameUnits 4 ([RiscV.addi 2 2 (-16)].foldl allocate 0) (RiscV.addi 2 2 (-16)) 16 8 := by
  refine ⟨by decide, ?_⟩
  intro units
  have apart := units.above (RiscV.AccessOp.lw.instr 10 2 8) (RiscV.AccessOp.lw.instr 10 2 0) 0 rfl rfl
  revert apart
  decide

theorem narrow_frames_iff :
    (SameUnits 4 ([RiscV.addi 2 2 (-16)].foldl allocate 0) (RiscV.addi 2 2 (-16)) 16 8 ↔ 4 = 8) ∧
      SameUnits 8 ([RiscV.addi 2 2 (-16)].foldl allocate 0) (RiscV.addi 2 2 (-16)) 16 8 :=
  ⟨units_agree_iff (by omega) 0 [RiscV.addi 2 2 (-16)] rfl (by omega) (by omega) (by omega),
    (units_agree_iff (by omega) 0 [RiscV.addi 2 2 (-16)] rfl (by omega) (by omega) (by omega)).mpr rfl⟩

end Bleach
