import Bleach.Lifter.Chunk

/-! Where the code of a machine instruction stands in the finished function. The
builder is replayed up to the instruction; what is appended later at its
insertion point is what is executed from there on. -/
namespace Bleach
variable {W : Type} {cx : Context W} {mf : MachineFunction} {addrs : FunctionAddresses}
  {fin : Builder}

/-- Instruction `i` of block `b`, whose instructions are `mbb`. -/
def MachineFunction.site (mf : MachineFunction) (b : BlockId) (mbb : MachineBasicBlock) (i : Nat) :
    Site := ⟨mf.blocks.length, b, mbb, i⟩

/-- The instructions in front of instruction `i` of block `b`, in layout order. -/
def layoutBefore (mf : MachineFunction) (b : BlockId) (i : Nat) : List MachineInstr :=
  (mf.blocks.take b).flatten ++ ((mf.blocks[b]?).getD []).take i

/-- The instruction at the last position. -/
theorem getLast?_of_end {mbb : MachineBasicBlock} {i : Nat} {minst : MachineInstr}
    (here : mbb[i]? = some minst) (last : i + 1 = mbb.length) : mbb.getLast? = some minst := by
  rw [List.getLast?_eq_getElem?, ← last, Nat.add_sub_cancel, here]

@[simp] theorem layoutBefore_entry : layoutBefore mf 0 0 = [] := by simp [layoutBefore]

theorem layoutBefore_instr {b i : Nat} {mbb : MachineBasicBlock} {minst : MachineInstr}
    (block : mf.blocks[b]? = some mbb) (here : mbb[i]? = some minst) :
    layoutBefore mf b (i + 1) = layoutBefore mf b i ++ [minst] := by
  obtain ⟨bound, rfl⟩ := List.getElem?_eq_some_iff.mp here
  rw [layoutBefore, layoutBefore, block, Option.getD_some, List.take_succ_eq_append_getElem bound,
    List.append_assoc]

theorem layoutBefore_next {b : BlockId} {mbb : MachineBasicBlock} (block : mf.blocks[b]? = some mbb) :
    layoutBefore mf (b + 1) 0 = layoutBefore mf b mbb.length := by
  obtain ⟨bound, here⟩ := List.getElem?_eq_some_iff.mp block
  rw [layoutBefore, layoutBefore, block, Option.getD_some, List.take_length,
    List.take_succ_eq_append_getElem bound, here]
  simp

/-- The builder behind the first `b` blocks. -/
def builderBefore (cx : Context W) (mf : MachineFunction) (addrs : FunctionAddresses) (b : BlockId) :
    Lift Builder := do
  let spReg ← getStackPointer cx
  fillBlocks cx mf.blocks.length addrs (mf.blocks.take b) 0 (initialBuilder cx spReg)

def finalBuilder (cx : Context W) (mf : MachineFunction) (addrs : FunctionAddresses) :
    Lift Builder := builderBefore cx mf addrs mf.blocks.length

/-- The builder in front of instruction `i` of block `b`. -/
def builderAt (cx : Context W) (mf : MachineFunction) (addrs : FunctionAddresses) (b : BlockId)
    (i : Nat) : Lift Builder := do
  let st ← builderBefore cx mf addrs b
  let as ← blockAddresses addrs b
  let mbb := (mf.blocks[b]?).getD []
  fillInstrs cx (mf.site b mbb 0) as (mbb.take i) { st with cur := .mbb b }

/-- What is left of the block behind the builder's insertion point. -/
def codeAt (cx : Context W) (fin st : Builder) : List Inst :=
  saveRegistersBeforeReturn cx.save ((fin.blocks st.cur).drop (st.blocks st.cur).length)

/-- The block of the lifted function, and the rest of its code, where the code of
instruction `i` of block `b` starts. -/
def pcAt (cx : Context W) (mf : MachineFunction) (addrs : FunctionAddresses) (b : BlockId) (i : Nat) :
    Lift (Label × List Inst) := do
  let fin ← finalBuilder cx mf addrs
  let st ← builderAt cx mf addrs b i
  .ok (st.cur, codeAt cx fin st)

theorem generateFunction_ok {body : Option (Label → List Inst)}
    (done : generateFunction cx mf addrs = .ok body) : ∃ fin, finalBuilder cx mf addrs = .ok fin ∧
      body = if mf.blocks.isEmpty then none
        else some fun l => saveRegistersBeforeReturn cx.save (fin.blocks l) := by
  unfold generateFunction at done
  obtain ⟨spReg, named, done⟩ := bind_ok.mp done
  obtain ⟨fin, filled, done⟩ := bind_ok.mp done
  refine ⟨fin, bind_ok.mpr ⟨spReg, named, by rw [List.take_length]; exact filled⟩, ?_⟩
  split_ifs at done with empty
  · rw [if_pos empty]
    exact (Except.ok.inj done).symm
  · rw [if_neg empty]
    exact (Except.ok.inj done).symm

@[simp] theorem initialBuilder_entry (spReg : Register) :
    (initialBuilder cx spReg).blocks entryLabel = materializeRegisters cx.stats := by
  simp [initialBuilder]

theorem initialBuilder_other {l : Label} (other : l ≠ entryLabel) (spReg : Register) :
    (initialBuilder cx spReg).blocks l = [] := by
  simp [initialBuilder, other]

theorem fillInstrs_append (cx : Context W) (s : Site) (as : BlockAddresses)
    (first second : List MachineInstr)
    (st : Builder) : fillInstrs cx s as (first ++ second) st =
      (fillInstrs cx s as first st >>= fillInstrs cx { s with idx := s.idx + first.length } as second) := by
  induction first generalizing s st with
  | nil => rfl
  | cons minst rest ih =>
    simp only [List.cons_append, fillInstrs, bind_assoc, ih, List.length_cons]
    refine congrArg _ (funext fun addr => congrArg _ (funext fun st => ?_))
    rw [Nat.add_assoc, Nat.add_comm 1]

theorem fillBlocks_append (cx : Context W) (addrs : FunctionAddresses) (n : Nat)
    (first second : List MachineBasicBlock) (b : BlockId)
    (st : Builder) : fillBlocks cx n addrs (first ++ second) b st =
      (fillBlocks cx n addrs first b st >>= fillBlocks cx n addrs second (b + first.length)) := by
  induction first generalizing b st with
  | nil => rfl
  | cons mbb rest ih =>
    simp only [List.cons_append, fillBlocks, bind_assoc, ih, List.length_cons]
    refine congrArg _ (funext fun as => congrArg _ (funext fun st => ?_))
    rw [Nat.add_assoc, Nat.add_comm 1]

/-- What the terminator code is: a return behind a call, a jump to the next block
behind anything that transfers no control. -/
theorem fillTerminator_ok {s : Site} {st st' : Builder} (done : fillTerminator cx s st = .ok st') :
    ∃ last, s.mbb.getLast? = some last ∧
      (((isBranch last = true ∨ isReturn cx last = true) ∧ st' = st) ∨
        (isBranch last = false ∧ isReturn cx last = false ∧
          ((isCall last = true ∧ st' = st.emit [.retVoid]) ∨
            (isCall last = false ∧ s.block + 1 < s.numBlocks ∧
              st' = st.emit [.br (.mbb (s.block + 1))])))) := by
  unfold fillTerminator at done
  split at done
  · cases done
  · next last found =>
    refine ⟨last, found, ?_⟩
    split_ifs at done with leaves call
    · exact .inr ⟨by simp_all, by simp_all, .inl ⟨call, (Except.ok.inj done).symm⟩⟩
    · obtain ⟨l, succ, emitted⟩ := bind_ok.mp done
      obtain ⟨bound, rfl⟩ := m2b_ok succ
      exact .inr ⟨by simp_all, by simp_all,
        .inr ⟨by simpa using call, bound, (Except.ok.inj emitted).symm⟩⟩
    · refine .inl ⟨?_, (Except.ok.inj done).symm⟩
      cases branch : isBranch last
      · simpa [branch] using leaves
      · exact .inl rfl

theorem terminator_sptrack {s : Site} {st st' : Builder} (done : fillTerminator cx s st = .ok st') :
    st'.sptrack = st.sptrack := by
  obtain ⟨last, -, ⟨-, rfl⟩ | ⟨-, -, ⟨-, rfl⟩ | ⟨-, -, rfl⟩⟩⟩ := fillTerminator_ok done <;> rfl

theorem extends_terminator {s : Site} {st st' : Builder}
    (done : fillTerminator cx s st = .ok st') : st.Extends st' := by
  obtain ⟨last, -, ⟨-, rfl⟩ | ⟨-, -, ⟨-, rfl⟩ | ⟨-, -, rfl⟩⟩⟩ := fillTerminator_ok done
  · exact .refl _
  · exact st.extends_emit _
  · exact st.extends_emit _

theorem extends_instrs {s : Site} {st st' : Builder} {as : BlockAddresses} {instrs : List MachineInstr}
    (done : fillInstrs cx s as instrs st = .ok st') : st.Extends st' := by
  induction instrs generalizing s st with
  | nil => exact Except.ok.inj done ▸ .refl st
  | cons minst rest ih =>
    obtain ⟨addr, -, done⟩ := bind_ok.mp done
    obtain ⟨middle, first, later⟩ := bind_ok.mp done
    obtain ⟨⟨code, appends, -⟩, -⟩ := generateInstruction_ok first
    exact appends.extends.trans (ih later)

theorem fillIrForBb_ok {st st' : Builder} {n : Nat} {b : BlockId} {mbb : MachineBasicBlock}
    {as : BlockAddresses}
    (done : fillIrForBb cx n b mbb as st = .ok st') : ∃ last,
      fillInstrs cx ⟨n, b, mbb, 0⟩ as mbb { st with cur := .mbb b } = .ok last ∧
      fillTerminator cx ⟨n, b, mbb, 0⟩ last = .ok st' := by
  unfold fillIrForBb at done
  split_ifs at done
  exact bind_ok.mp done

theorem extends_blocks {st st' : Builder} {n : Nat} {mbbs : List MachineBasicBlock} {b : BlockId}
    (done : fillBlocks cx n addrs mbbs b st = .ok st') : st.Extends st' := by
  induction mbbs generalizing b st with
  | nil => exact Except.ok.inj done ▸ .refl st
  | cons mbb rest ih =>
    obtain ⟨as, -, done⟩ := bind_ok.mp done
    obtain ⟨middle, first, later⟩ := bind_ok.mp done
    obtain ⟨last, instrs, terminator⟩ := fillIrForBb_ok first
    have inside : Builder.Extends { st with cur := .mbb b } last := extends_instrs instrs
    exact (inside.trans (extends_terminator terminator)).trans (ih later)

theorem builderBefore_ok (whole : finalBuilder cx mf addrs = .ok fin) (b : BlockId) :
    ∃ st, builderBefore cx mf addrs b = .ok st ∧
      fillBlocks cx mf.blocks.length addrs (mf.blocks.drop b) (min b mf.blocks.length) st = .ok fin := by
  obtain ⟨spReg, named, filled⟩ := bind_ok.mp whole
  have split := fillBlocks_append cx addrs mf.blocks.length (mf.blocks.take b)
    (mf.blocks.drop b) 0 (initialBuilder cx spReg)
  rw [List.take_length] at filled
  rw [List.take_append_drop, filled, List.length_take, Nat.zero_add] at split
  obtain ⟨st, before, rest⟩ := bind_ok.mp split.symm
  exact ⟨st, bind_ok.mpr ⟨spReg, named, before⟩, rest⟩

/-- The lifting of one block: its instructions from the builder before it on, then
its terminator. -/
structure BlockLifting (cx : Context W) (mf : MachineFunction) (addrs : FunctionAddresses)
    (fin : Builder) (b : BlockId) (mbb : MachineBasicBlock) (before : Builder) (as : BlockAddresses)
    (last after : Builder) : Prop where
  start : builderBefore cx mf addrs b = .ok before
  builders : ∀ i, builderAt cx mf addrs b i =
    fillInstrs cx (mf.site b mbb 0) as (mbb.take i) { before with cur := .mbb b }
  instrs : fillInstrs cx (mf.site b mbb 0) as mbb { before with cur := .mbb b } = .ok last
  terminator : fillTerminator cx (mf.site b mbb 0) last = .ok after
  next : builderBefore cx mf addrs (b + 1) = .ok after
  rest : after.Extends fin

theorem blockLifting (whole : finalBuilder cx mf addrs = .ok fin) {b : BlockId}
    {mbb : MachineBasicBlock} (found : mf.blocks[b]? = some mbb) :
    ∃ before as last after, BlockLifting cx mf addrs fin b mbb before as last after := by
  obtain ⟨before, first, rest⟩ := builderBefore_ok whole b
  obtain ⟨after, next, later⟩ := builderBefore_ok whole (b + 1)
  obtain ⟨bound, here⟩ := List.getElem?_eq_some_iff.mp found
  rw [List.drop_eq_getElem_cons bound, here, Nat.min_eq_left bound.le] at rest
  obtain ⟨as, addresses, rest⟩ := bind_ok.mp rest
  obtain ⟨after', block, rest⟩ := bind_ok.mp rest
  obtain ⟨last, instrs, terminator⟩ := fillIrForBb_ok block
  -- the builder behind the block is the one the next block starts from
  have same : builderBefore cx mf addrs (b + 1) = .ok after' := by
    obtain ⟨spReg, named, filled⟩ := bind_ok.mp first
    refine bind_ok.mpr ⟨spReg, named, ?_⟩
    rw [List.take_succ_eq_append_getElem bound, fillBlocks_append, filled, here]
    refine bind_ok.mpr ⟨before, rfl, ?_⟩
    rw [List.length_take, Nat.zero_add, Nat.min_eq_left bound.le]
    exact bind_ok.mpr ⟨as, addresses, bind_ok.mpr ⟨after', block, rfl⟩⟩
  obtain rfl : after' = after := Except.ok.inj (same.symm.trans next)
  refine ⟨before, as, last, after', first, fun i => ?_, instrs, terminator, next,
    extends_blocks later⟩
  simp only [builderAt, first, addresses, found, Option.getD_some]
  rfl

theorem builderAt_instr (whole : finalBuilder cx mf addrs = .ok fin) {b i : Nat}
    {mbb : MachineBasicBlock} {minst : MachineInstr} (found : mf.blocks[b]? = some mbb)
    (here : mbb[i]? = some minst) : ∃ st st' addr, builderAt cx mf addrs b i = .ok st ∧
      generateInstruction cx (mf.site b mbb i) addr minst st = .ok st' ∧
      builderAt cx mf addrs b (i + 1) = .ok st' := by
  obtain ⟨before, as, last, after, -, builders, instrs, -, -, -⟩ := blockLifting whole found
  obtain ⟨bound, rfl⟩ := List.getElem?_eq_some_iff.mp here
  have split := fillInstrs_append cx (mf.site b mbb 0) as (mbb.take i) (mbb.drop i)
    { before with cur := .mbb b }
  rw [List.take_append_drop, instrs, List.length_take, Nat.min_eq_left bound.le,
    List.drop_eq_getElem_cons bound] at split
  obtain ⟨st, first, later⟩ := bind_ok.mp split.symm
  obtain ⟨addr, address, later⟩ := bind_ok.mp later
  obtain ⟨st', done, -⟩ := bind_ok.mp later
  have number : mf.site b mbb (0 + i) = mf.site b mbb i := by rw [Nat.zero_add]
  refine ⟨st, st', addr, (builders i).trans first, number ▸ done, ?_⟩
  rw [builders, List.take_succ_eq_append_getElem bound, fillInstrs_append, first, List.length_take,
    Nat.min_eq_left bound.le]
  exact bind_ok.mpr ⟨st, rfl, bind_ok.mpr ⟨addr, address, bind_ok.mpr ⟨st', done, rfl⟩⟩⟩

theorem builderAt_end (whole : finalBuilder cx mf addrs = .ok fin) {b : BlockId}
    {mbb : MachineBasicBlock} (found : mf.blocks[b]? = some mbb) :
    ∃ st st', builderAt cx mf addrs b mbb.length = .ok st ∧
      fillTerminator cx (mf.site b mbb 0) st = .ok st' ∧ st'.Extends fin ∧
      (b + 1 < mf.blocks.length →
        builderAt cx mf addrs (b + 1) 0 = .ok { st' with cur := .mbb (b + 1) }) ∧
      (b + 1 = mf.blocks.length → st' = fin) := by
  obtain ⟨before, as, last, after, -, builders, instrs, terminator, next, rest⟩ :=
    blockLifting whole found
  refine ⟨last, after, ?_, terminator, rest, fun bound => ?_, fun done => ?_⟩
  · rw [builders, List.take_length]
    exact instrs
  · obtain ⟨before', as', last', after', start, builders', -, -, -, -⟩ :=
      blockLifting whole (List.getElem?_eq_getElem bound)
    obtain rfl : after = before' := Except.ok.inj (next.symm.trans start)
    exact builders' 0
  · exact Except.ok.inj (next.symm.trans (done ▸ whole))

theorem builderAt_zero (whole : finalBuilder cx mf addrs = .ok fin) (blocks : mf.blocks ≠ []) :
    ∃ spReg, cx.stackPointer? = some spReg ∧
      builderAt cx mf addrs 0 0 = .ok { initialBuilder cx spReg with cur := entryLabel } := by
  have found := List.getElem?_eq_getElem (List.length_pos_of_ne_nil blocks)
  obtain ⟨before, as, last, after, start, builders, -, -, -, -⟩ := blockLifting whole found
  obtain ⟨spReg, named, initial⟩ := bind_ok.mp start
  obtain rfl : initialBuilder cx spReg = before := Except.ok.inj initial
  exact ⟨spReg, getStackPointer_ok named, builders 0⟩

theorem builderAt_extends (whole : finalBuilder cx mf addrs = .ok fin) {b i : Nat}
    {mbb : MachineBasicBlock} {st : Builder} (found : mf.blocks[b]? = some mbb)
    (at_ : builderAt cx mf addrs b i = .ok st) : st.Extends fin := by
  obtain ⟨before, as, last, after, -, builders, instrs, terminator, -, rest⟩ :=
    blockLifting whole found
  have split := fillInstrs_append cx (mf.site b mbb 0) as (mbb.take i) (mbb.drop i)
    { before with cur := .mbb b }
  rw [List.take_append_drop, instrs, ← builders, at_] at split
  obtain ⟨_, same, later⟩ := bind_ok.mp split.symm
  obtain rfl := Except.ok.inj same
  exact ((extends_instrs later).trans (extends_terminator terminator)).trans rest

/-- The lifting of one instruction: `code` is what it adds behind `st`. -/
structure InstrLifting (cx : Context W) (mf : MachineFunction) (addrs : FunctionAddresses)
    (fin : Builder) (b : BlockId) (mbb : MachineBasicBlock) (i : Nat) (minst : MachineInstr)
    (st st' : Builder) (code : List Inst) : Prop where
  builder : builderAt cx mf addrs b i = .ok st
  next : builderAt cx mf addrs b (i + 1) = .ok st'
  generated : ∃ addr, generateInstruction cx (mf.site b mbb i) addr minst st = .ok st'
  appends : Appends (mf.site b mbb i) st st' code
  chunk : Chunk cx (mf.site b mbb i) minst (dispatch cx minst st.sptrack) st.cur code st'.cur
  tracker : st'.sptrack = nextTracker cx minst st.sptrack
  rest : st'.Extends fin

theorem instrLifting (whole : finalBuilder cx mf addrs = .ok fin) {b i : Nat}
    {mbb : MachineBasicBlock} {minst : MachineInstr} (found : mf.blocks[b]? = some mbb)
    (here : mbb[i]? = some minst) :
    ∃ st st' code, InstrLifting cx mf addrs fin b mbb i minst st st' code := by
  obtain ⟨st, st', addr, builder, generated, next⟩ := builderAt_instr whole found here
  obtain ⟨⟨code, appends, chunk⟩, tracker⟩ := generateInstruction_ok generated
  exact ⟨st, st', code, builder, next, ⟨addr, generated⟩, appends, chunk, tracker,
    builderAt_extends whole found next⟩

/-- Induction along the instructions of a function, in the order they are lifted. -/
theorem builder_induction (whole : finalBuilder cx mf addrs = .ok fin)
    {P : BlockId → Nat → Builder → Prop}
    (start : ∀ {st}, builderAt cx mf addrs 0 0 = .ok st → P 0 0 st)
    (instr : ∀ {b mbb i minst st st' code}, mf.blocks[b]? = some mbb → mbb[i]? = some minst →
      InstrLifting cx mf addrs fin b mbb i minst st st' code → P b i st → P b (i + 1) st')
    (next : ∀ {b mbb st st'}, mf.blocks[b]? = some mbb → b + 1 < mf.blocks.length →
      fillTerminator cx (mf.site b mbb 0) st = .ok st' → P b mbb.length st →
      P (b + 1) 0 { st' with cur := .mbb (b + 1) })
    {b i : Nat} {mbb : MachineBasicBlock} {st : Builder} (found : mf.blocks[b]? = some mbb)
    (bound : i ≤ mbb.length) (at_ : builderAt cx mf addrs b i = .ok st) : P b i st := by
  induction b generalizing i mbb st with
  | zero =>
    induction i generalizing st with
    | zero => exact start at_
    | succ i ih =>
      obtain ⟨st₁, st₂, code, lifting⟩ := instrLifting whole found (List.getElem?_eq_getElem bound)
      obtain rfl := Except.ok.inj (lifting.next.symm.trans at_)
      exact instr found (List.getElem?_eq_getElem bound) lifting
        (ih (Nat.le_of_lt bound) lifting.builder)
  | succ b outer =>
    induction i generalizing st with
    | zero =>
      have inside := (List.getElem?_eq_some_iff.mp found).1
      have before := List.getElem?_eq_getElem (Nat.lt_of_succ_lt inside)
      obtain ⟨last, after, builder, terminator, -, follow, -⟩ := builderAt_end whole before
      obtain rfl := Except.ok.inj ((follow inside).symm.trans at_)
      exact next before inside terminator (outer before (Nat.le_refl _) builder)
    | succ i ih =>
      obtain ⟨st₁, st₂, code, lifting⟩ := instrLifting whole found (List.getElem?_eq_getElem bound)
      obtain rfl := Except.ok.inj (lifting.next.symm.trans at_)
      exact instr found (List.getElem?_eq_getElem bound) lifting
        (ih (Nat.le_of_lt bound) lifting.builder)

/-- The finished builder is the one behind the terminator of the last block. -/
theorem fin_last (whole : finalBuilder cx mf addrs = .ok fin) (blocks : mf.blocks ≠ []) :
    ∃ b mbb st, mf.blocks[b]? = some mbb ∧ builderAt cx mf addrs b mbb.length = .ok st ∧
      fillTerminator cx (mf.site b mbb 0) st = .ok fin := by
  have pos := List.length_pos_of_ne_nil blocks
  have found := List.getElem?_eq_getElem (Nat.sub_lt pos Nat.one_pos)
  obtain ⟨st, st', builder, terminator, -, -, done⟩ := builderAt_end whole found
  obtain rfl := done (Nat.sub_add_cancel pos)
  exact ⟨_, _, st, found, builder, terminator⟩

@[simp] theorem saveRegistersBeforeReturn_ret (save rest : List Inst) :
    saveRegistersBeforeReturn save (.retVoid :: rest) = save ++ .retVoid :: rest := rfl

theorem saveRegistersBeforeReturn_cons (save : List Inst) {i : Inst} (other : i ≠ .retVoid)
    (rest : List Inst) :
    saveRegistersBeforeReturn save (i :: rest) = i :: saveRegistersBeforeReturn save rest := by
  rw [saveRegistersBeforeReturn]
  exact other

theorem saveRegistersBeforeReturn_append (save : List Inst) {first : List Inst}
    (noRet : .retVoid ∉ first) (second : List Inst) :
    saveRegistersBeforeReturn save (first ++ second) =
      first ++ saveRegistersBeforeReturn save second := by
  induction first with
  | nil => rfl
  | cons i rest ih =>
    obtain ⟨head, tail⟩ := not_or.mp (List.mem_cons.not.mp noRet)
    rw [List.cons_append, saveRegistersBeforeReturn_cons save (Ne.symm head), ih tail,
      List.cons_append]

theorem Plain.noRet {code : List Inst} (plain : Plain code) : .retVoid ∉ code :=
  fun member => Bool.false_ne_true (plain _ member)

theorem codeAt_appends (cx : Context W) {s : Site} {st st' : Builder} {code : List Inst}
    (appends : Appends s st st' code) (rest : st'.Extends fin) :
    codeAt cx fin st = saveRegistersBeforeReturn cx.save
      (code ++ (fin.blocks st.cur).drop (st'.blocks st.cur).length) := by
  obtain ⟨more, whole⟩ := rest st.cur
  rw [codeAt, ← whole, appends.here, List.append_assoc, List.drop_left, ← List.append_assoc,
    List.drop_left]

/-- Behind code that does not return stands the code of the next position. -/
theorem codeAt_next (cx : Context W) {s : Site} {st st' : Builder} {code : List Inst}
    (appends : Appends s st st' code) (rest : st'.Extends fin) (cur : st'.cur = st.cur)
    (noRet : .retVoid ∉ code) : codeAt cx fin st = code ++ codeAt cx fin st' := by
  rw [codeAt_appends cx appends rest, saveRegistersBeforeReturn_append _ noRet, ← cur]
  rfl

/-- What stands behind a last instruction that neither branches nor returns. -/
theorem codeAt_end (whole : finalBuilder cx mf addrs = .ok fin) {b : BlockId} {mbb : MachineBasicBlock}
    {minst : MachineInstr} {st : Builder} (block : mf.blocks[b]? = some mbb)
    (last : mbb.getLast? = some minst) (builder : builderAt cx mf addrs b mbb.length = .ok st)
    (noBranch : isBranch minst = false) (noReturn : isReturn cx minst = false) :
    (isCall minst = true ∧ ∃ rest, codeAt cx fin st = cx.save ++ .retVoid :: rest) ∨
    (isCall minst = false ∧ b + 1 < mf.blocks.length ∧
      ∃ rest, codeAt cx fin st = .br (.mbb (b + 1)) :: rest) := by
  obtain ⟨st', after, builder', terminator, ext, -⟩ := builderAt_end whole block
  obtain rfl := Except.ok.inj (builder'.symm.trans builder)
  have emitted : ∀ i : Inst, after = st'.emit [i] →
      ∃ rest, codeAt cx fin st' = saveRegistersBeforeReturn cx.save (i :: rest) := by
    rintro i rfl
    have appends : Appends (mf.site b mbb 0) st' (st'.emit [i]) [i] := appends_emit fun _ => rfl
    exact ⟨_, codeAt_appends cx appends ext⟩
  obtain ⟨minst', found, shape⟩ := fillTerminator_ok terminator
  obtain rfl := Option.some.inj (last.symm.trans found)
  obtain ⟨leaves, -⟩ | ⟨-, -, ⟨call, emits⟩ | ⟨other, bound, emits⟩⟩ := shape
  · simp [noBranch, noReturn] at leaves
  · obtain ⟨rest, code⟩ := emitted _ emits
    exact .inl ⟨call, rest, code⟩
  · obtain ⟨rest, code⟩ := emitted _ emits
    rw [saveRegistersBeforeReturn_cons _ Inst.noConfusion] at code
    exact .inr ⟨other, bound, _, code⟩

theorem pcAt_ok (whole : finalBuilder cx mf addrs = .ok fin) {b i : Nat} {st : Builder}
    (at_ : builderAt cx mf addrs b i = .ok st) :
    pcAt cx mf addrs b i = .ok (st.cur, codeAt cx fin st) := by
  simp only [pcAt, whole, at_]
  rfl

end Bleach
