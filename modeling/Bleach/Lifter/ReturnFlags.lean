import Bleach.Lifter.Lifted
import Bleach.Sublanguage

/-! A return is lifted as a return before it can be taken for a call: the lifter never reads
the call flag of one. -/
namespace Bleach
variable {W : Type} {w : Nat → Nat} {cx : Context W} {minst : MachineInstr} {s : Site}

/-- A return without its call flag. -/
def plainReturn (cx : Context W) (minst : MachineInstr) : MachineInstr :=
  if isReturn cx minst then { minst with desc := { minst.desc with isCall := false } } else minst

/-- Every return of the function without its call flag. -/
def MachineFunction.plainReturns (cx : Context W) (mf : MachineFunction) : MachineFunction :=
  { mf with blocks := mf.blocks.map (List.map (plainReturn cx)) }

def Site.plainReturns (cx : Context W) (s : Site) : Site := { s with mbb := s.mbb.map (plainReturn cx) }

theorem plainReturn_cases (cx : Context W) (minst : MachineInstr) :
    plainReturn cx minst = minst ∨
      plainReturn cx minst = { minst with desc := { minst.desc with isCall := false } } := by
  unfold plainReturn
  split
  · exact .inr rfl
  · exact .inl rfl

@[simp] theorem plainReturn_operands : (plainReturn cx minst).operands = minst.operands := by
  rcases plainReturn_cases cx minst with same | same
  · rw [same]
  · rw [same]

@[simp] theorem isReturn_plainReturn : isReturn cx (plainReturn cx minst) = isReturn cx minst := by
  rcases plainReturn_cases cx minst with same | same
  · rw [same]
  · rw [same]
    rfl

@[simp] theorem isConditionalBranch_plainReturn :
    (plainReturn cx minst).isConditionalBranch = minst.isConditionalBranch := by
  rcases plainReturn_cases cx minst with same | same
  · rw [same]
  · rw [same]
    rfl

@[simp] theorem isUnconditionalBranch_plainReturn :
    (plainReturn cx minst).isUnconditionalBranch = minst.isUnconditionalBranch := by
  rcases plainReturn_cases cx minst with same | same
  · rw [same]
  · rw [same]
    rfl

/-- What is no return is left as it is. -/
theorem plainReturn_of_other (noReturn : isReturn cx minst = false) : plainReturn cx minst = minst := by
  simp [plainReturn, noReturn]

/-- The values of operands are named after their place, not after their instruction. -/
theorem operandsToValues_plainReturns (ops : List MachineOperand) (k : Nat) :
    operandsToValues cx (s.plainReturns cx) ops k = operandsToValues cx s ops k := by
  induction ops generalizing k with
  | nil => rfl
  | cons op rest ih =>
    rw [operandsToValues, operandsToValues, ih]
    rfl

theorem castArgs_plainReturns (args : List Value) (tys : List Nat) (k : Nat) :
    castArgs (s.plainReturns cx) args tys k = castArgs s args tys k := by
  induction args generalizing tys k with
  | nil => rfl
  | cons arg rest ih =>
    cases tys with
    | nil => rfl
    | cons ty tys =>
      rw [castArgs, castArgs, ih]
      rfl

theorem prev_plainReturns : (s.plainReturns cx).prev = s.prev.map (plainReturn cx) := by
  simp only [Site.prev, Site.plainReturns, List.getElem?_map]
  split <;> rfl

theorem next_plainReturns : (s.plainReturns cx).next = s.next.map (plainReturn cx) := by
  simp only [Site.next, Site.plainReturns, List.getElem?_map]

theorem m2b_plainReturns (b : BlockId) : (s.plainReturns cx).m2b b = s.m2b b := rfl

/-- A jump looks at the instruction in front of it for a branch, and a return is none. -/
theorem generateJump_plainReturns (st : Builder) :
    generateJump (s.plainReturns cx) minst st = generateJump s minst st := by
  have prev : (s.plainReturns cx).prev.any MachineInstr.isConditionalBranch =
      s.prev.any MachineInstr.isConditionalBranch := by
    rw [prev_plainReturns]
    cases s.prev <;> simp
  simp only [generateJump, prev, m2b_plainReturns]

theorem getIfFalseBlock_plainReturns :
    getIfFalseBlock (s.plainReturns cx) minst = getIfFalseBlock s minst := by
  unfold getIfFalseBlock
  rw [next_plainReturns]
  cases s.next with
  | none => rfl
  | some next =>
    simp only [Option.map_some, isUnconditionalBranch_plainReturn, plainReturn_operands]
    rfl

/-- The return path comes before every path that asks for the call flag. -/
theorem generateInstruction_plainReturns (addr : Option (BitVec 64)) (st : Builder) :
    generateInstruction cx (s.plainReturns cx) addr (plainReturn cx minst) st =
      generateInstruction cx s addr minst st := by
  cases returns : isReturn cx minst with
  | true => simp [generateInstruction, returns]
  | false =>
    rw [plainReturn_of_other returns]
    simp only [generateInstruction, generateIndirectBranch, generateBranch, generateLoadStoreFromStack,
      generateStackPointerModification, generateGeneric, operandsToValues_plainReturns,
      castArgs_plainReturns, generateJump_plainReturns, getIfFalseBlock_plainReturns]
    rfl

theorem fillInstrs_plainReturns (addrs : BlockAddresses) (minsts : List MachineInstr) (st : Builder) :
    fillInstrs cx (s.plainReturns cx) addrs (minsts.map (plainReturn cx)) st =
      fillInstrs cx s addrs minsts st := by
  induction minsts generalizing s st with
  | nil => rfl
  | cons minst rest ih =>
    simp only [List.map_cons, fillInstrs, generateInstruction_plainReturns]
    have later : ∀ st, fillInstrs cx { s.plainReturns cx with idx := s.idx + 1 } addrs
        (rest.map (plainReturn cx)) st = fillInstrs cx { s with idx := s.idx + 1 } addrs rest st :=
      fun st => @ih { s with idx := s.idx + 1 } st
    change (do
      let addr ← instrAddress addrs s.idx
      let st ← generateInstruction cx s addr minst st
      fillInstrs cx { s.plainReturns cx with idx := s.idx + 1 } addrs (rest.map (plainReturn cx)) st) = _
    simp only [later]

/-- The terminator asks whether the last instruction is a return first. -/
theorem fillTerminator_plainReturns (st : Builder) :
    fillTerminator cx (s.plainReturns cx) st = fillTerminator cx s st := by
  unfold fillTerminator
  rw [Site.plainReturns, List.getLast?_map]
  cases s.mbb.getLast? with
  | none => rfl
  | some last =>
    cases returns : isReturn cx last with
    | true => simp [returns]
    | false =>
      simp only [Option.map_some, plainReturn_of_other returns]
      rfl

theorem fillIrForBb_plainReturns (numBlocks : Nat) (b : BlockId) (mbb : MachineBasicBlock)
    (addrs : BlockAddresses) (st : Builder) :
    fillIrForBb cx numBlocks b (mbb.map (plainReturn cx)) addrs st =
      fillIrForBb cx numBlocks b mbb addrs st := by
  have instrs := fun st => @fillInstrs_plainReturns W cx ⟨numBlocks, b, mbb, 0⟩ addrs mbb st
  have terminator := fun st => @fillTerminator_plainReturns W cx ⟨numBlocks, b, mbb, 0⟩ st
  simp only [Site.plainReturns] at instrs terminator
  simp only [fillIrForBb, List.isEmpty_map, instrs, terminator]
  rfl

theorem fillBlocks_plainReturns (numBlocks : Nat) (addrs : FunctionAddresses)
    (blocks : List MachineBasicBlock) (b : BlockId) (st : Builder) :
    fillBlocks cx numBlocks addrs (blocks.map (List.map (plainReturn cx))) b st =
      fillBlocks cx numBlocks addrs blocks b st := by
  induction blocks generalizing b st with
  | nil => rfl
  | cons mbb rest ih => simp only [List.map_cons, fillBlocks, fillIrForBb_plainReturns, ih]

variable {mf : MachineFunction}

theorem finalBuilder_plainReturns (addrs : FunctionAddresses) :
    finalBuilder cx (mf.plainReturns cx) addrs = finalBuilder cx mf addrs := by
  simp only [finalBuilder, builderBefore, MachineFunction.plainReturns, List.length_map, ← List.map_take,
    fillBlocks_plainReturns]

/-- A lifted module is as well the one lifted without the flags. -/
theorem Lifted.plainReturns {mfs : List MachineFunction} {addrs : FuncId → FunctionAddresses}
    {adds : List Inst} {M : IRModule W} (lifted : Lifted cx mfs addrs adds M) :
    Lifted cx (mfs.map (MachineFunction.plainReturns cx)) addrs adds M := by
  refine ⟨lifted.widths, lifted.getFunction, lifted.stackElemBits, fun {f mf} found => ?_,
    fun {f} missing => ?_, lifted.adds⟩
  · rw [List.getElem?_map] at found
    obtain ⟨mf, here, rfl⟩ := Option.map_eq_some_iff.mp found
    rw [finalBuilder_plainReturns, MachineFunction.plainReturns, List.isEmpty_map]
    exact lifted.functions here
  · rw [List.getElem?_map, Option.map_eq_none_iff] at missing
    exact lifted.outside missing

theorem guestStep_plainReturns (g : Guest w W) :
    guestStep cx (mf.plainReturns cx) g = guestStep cx mf g := by
  obtain ⟨place, regs, world⟩ := g
  cases place with
  | none => rfl
  | some at_ =>
    obtain ⟨b, i⟩ := at_
    simp only [guestStep, MachineFunction.plainReturns, List.getElem?_map, Option.bind_eq_bind,
      Option.bind_some]
    cases mf.blocks[b]? with
    | none => rfl
    | some mbb =>
      simp only [Option.map_some, Option.bind_some, List.getElem?_map]
      cases mbb[i]? with
      | none => rfl
      | some minst =>
        cases returns : isReturn cx minst with
        | true => simp [returns]
        | false => simp [plainReturn_of_other returns, returns, fallthrough]

theorem nextTracker_plainReturn (T : StackPointerTracker) :
    nextTracker cx (plainReturn cx minst) T = nextTracker cx minst T := by
  cases returns : isReturn cx minst with
  | true => simp [nextTracker, dispatch, returns]
  | false => rw [plainReturn_of_other returns]

/-- Returns neither read nor change the tracker. -/
theorem layoutTracker_plainReturns (spReg : Register) (b i : Nat) :
    layoutTracker cx (mf.plainReturns cx) spReg b i = layoutTracker cx mf spReg b i := by
  have before : layoutBefore (mf.plainReturns cx) b i = (layoutBefore mf b i).map (plainReturn cx) := by
    simp only [layoutBefore, MachineFunction.plainReturns, List.map_append, List.map_flatten,
      List.map_take, List.getElem?_map]
    cases mf.blocks[b]? <;> simp
  simp only [layoutTracker, before, List.foldl_map, nextTracker_plainReturn]

end Bleach
