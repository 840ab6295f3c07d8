import Bleach.Lifter.Lifted
import Mathlib.Data.List.Infix

/-! Functions whose branches the lifter can follow: a conditional branch is last in
its block, or the jump behind it is, or something other than a jump follows. Then
the code of a block stays in the IR blocks made for it. -/
namespace Bleach
variable {W : Type} {cx : Context W} {mf : MachineFunction} {addrs : FunctionAddresses}
  {fin : Builder} {minst : MachineInstr} {T : StackPointerTracker}

theorem dispatch_branch (here : dispatch cx minst T = .branch) :
    isBranch minst = true ∧ isReturn cx minst = false ∧ minst.isConditionalBranch = true := by
  unfold dispatch at here
  split_ifs at here
  simp_all

theorem dispatch_jump (here : dispatch cx minst T = .jump) :
    isBranch minst = true ∧ isReturn cx minst = false ∧ minst.isConditionalBranch = false := by
  unfold dispatch at here
  split_ifs at here
  simp_all

/-- Outside the transfers nothing is a call or a return. -/
theorem no_transfer (other : dispatch cx minst T ∉ [.ret, .indirect, .jump, .branch, .call]) :
    isReturn cx minst = false ∧ isBranch minst = false ∧ isCall minst = false := by
  unfold dispatch at other
  split_ifs at other
  all_goals simp_all

theorem mbbOperand_first {b : BlockId}
    (operand : (minst.operands[0]?).bind MachineOperand.mbb? = some b) :
    minst.mbbOperand = some b := by
  obtain ⟨op, first, target⟩ := Option.bind_eq_some_iff.mp operand
  cases operands : minst.operands with
  | nil => simp [operands] at first
  | cons op' rest =>
    obtain rfl : op' = op := by simpa [operands] using first
    simp [MachineInstr.mbbOperand, operands, target]

structure WellShaped (cx : Context W) (mf : MachineFunction) : Prop where
  /-- What the target marks as a conditional branch is lifted as one, unless it ends
  its block. -/
  branch : ∀ {b i : Nat} {mbb : MachineBasicBlock} {minst}, mf.blocks[b]? = some mbb → mbb[i]? = some minst →
    minst.isConditionalBranch = true → i + 1 < mbb.length → dispatch cx minst ∅ = .branch
  /-- An unconditional branch behind it is a jump and ends the block. -/
  folded : ∀ {b i : Nat} {mbb : MachineBasicBlock} {minst next},
    mf.blocks[b]? = some mbb → mbb[i]? = some minst →
    minst.isConditionalBranch = true → mbb[i + 1]? = some next → next.isUnconditionalBranch = true →
    dispatch cx next ∅ = .jump ∧ i + 2 = mbb.length
  /-- Anything else behind it is no jump. -/
  unfolded : ∀ {b i : Nat} {mbb : MachineBasicBlock} {minst next},
    mf.blocks[b]? = some mbb → mbb[i]? = some minst →
    minst.isConditionalBranch = true → mbb[i + 1]? = some next →
    next.isUnconditionalBranch = false → dispatch cx next ∅ ≠ .jump

/-- The conditions on the first instruction of some end of a block. -/
def branchShaped (cx : Context W) : MachineBasicBlock → Bool
  | [] => true
  | minst :: rest => !minst.isConditionalBranch ||
    match rest with
    | [] => true
    | next :: later => dispatch cx minst ∅ = .branch &&
      if next.isUnconditionalBranch then dispatch cx next ∅ = .jump && later.isEmpty
      else dispatch cx next ∅ ≠ .jump

theorem drop_cons {b i : Nat} {mbb : MachineBasicBlock} (block : mf.blocks[b]? = some mbb)
    (here : mbb[i]? = some minst) : minst :: mbb.drop (i + 1) ∈ mf.blocks.flatMap List.tails := by
  obtain ⟨bound, rfl⟩ := List.getElem?_eq_some_iff.mp here
  refine List.mem_flatMap.mpr ⟨mbb, List.mem_of_getElem? block, (List.mem_tails ..).mpr ?_⟩
  exact List.drop_eq_getElem_cons bound ▸ List.drop_suffix i mbb

theorem wellShaped_of_tails
    (shaped : ∀ rest ∈ mf.blocks.flatMap List.tails, branchShaped cx rest = true) :
    WellShaped cx mf := by
  have followed : ∀ {b i : Nat} {mbb : MachineBasicBlock} {minst next}, mf.blocks[b]? = some mbb →
      mbb[i]? = some minst → mbb[i + 1]? = some next →
      branchShaped cx (minst :: next :: mbb.drop (i + 2)) = true := by
    intro b i mbb minst next block here after
    obtain ⟨bound, rfl⟩ := List.getElem?_eq_some_iff.mp after
    exact List.drop_eq_getElem_cons bound ▸ shaped _ (drop_cons block here)
  refine ⟨fun block here conditional bound => ?_, fun block here conditional after jump => ?_,
    fun block here conditional after other => ?_⟩
  · have first := followed block here (List.getElem?_eq_getElem bound)
    simp only [branchShaped, conditional, Bool.not_true, Bool.false_or, Bool.and_eq_true] at first
    exact of_decide_eq_true first.1
  · have first := followed block here after
    have bound := (List.getElem?_eq_some_iff.mp after).1
    simp [branchShaped, conditional, jump] at first
    exact ⟨first.2.1, by omega⟩
  · have first := followed block here after
    simp [branchShaped, conditional, other] at first
    exact first.2

/-- A jump whose target the conditional branch in front of it has taken over. -/
def Folded (cx : Context W) (mbb : MachineBasicBlock) (i : Nat) (minst : MachineInstr) : Prop :=
  dispatch cx minst ∅ = .jump ∧ ∃ j prev, i = j + 1 ∧ mbb[j]? = some prev ∧
    prev.isConditionalBranch = true

theorem site_prev {b i : Nat} {mbb : MachineBasicBlock} :
    (mf.site b mbb i).prev.any MachineInstr.isConditionalBranch = true ↔
      ∃ j prev, i = j + 1 ∧ mbb[j]? = some prev ∧ prev.isConditionalBranch = true := by
  cases i with
  | zero => simp [MachineFunction.site, Site.prev]
  | succ j =>
    simp only [MachineFunction.site, Site.prev, Nat.add_one_ne_zero, if_false, Nat.add_sub_cancel,
      Option.any_eq_true]
    constructor
    · rintro ⟨prev, found, conditional⟩
      exact ⟨j, prev, rfl, found, conditional⟩
    · rintro ⟨k, prev, same, found, conditional⟩
      obtain rfl := Nat.succ.inj same
      exact ⟨prev, found, conditional⟩

/-- A folded jump ends its block. -/
theorem WellShaped.folded_last (shape : WellShaped cx mf) {b i : Nat} {mbb : MachineBasicBlock}
    (block : mf.blocks[b]? = some mbb) (here : mbb[i]? = some minst)
    (folded : Folded cx mbb i minst) : minst.isUnconditionalBranch = true ∧ i + 1 = mbb.length := by
  obtain ⟨jump, j, prev, rfl, found, conditional⟩ := folded
  cases unconditional : minst.isUnconditionalBranch with
  | true => exact ⟨rfl, (shape.folded block found conditional here unconditional).2⟩
  | false => exact absurd jump (shape.unfolded block found conditional here unconditional)

/-- What the builder holds in front of instruction `i` of block `b`: nothing for
the blocks to come, and its insertion point belongs to the block unless only a
folded jump or nothing at all is left of it. -/
structure Placed (cx : Context W) (mf : MachineFunction) (b i : Nat) (st : Builder) : Prop where
  later : ∀ t, b < t → st.blocks (.mbb t) = []
  splits : ∀ b' j, b < b' ∨ b' = b ∧ i ≤ j → st.blocks (.split b' j) = []
  start : 0 < b → i = 0 → st.blocks (.mbb b) = []
  cur : ∀ {mbb}, mf.blocks[b]? = some mbb →
    (st.cur = .mbb b ∨ ∃ j, j < i ∧ st.cur = .split b j) ∨
    (∃ minst, mbb[i]? = some minst ∧ Folded cx mbb i minst) ∨
    (i = mbb.length ∧ ∃ last, mbb.getLast? = some last ∧ isBranch last = true)

/-- The builder stands in the IR blocks of machine block `b`. -/
def Own (b i : Nat) (cur : Label) : Prop := cur = .mbb b ∨ ∃ j, j < i ∧ cur = .split b j

theorem Own.ne_later {b i t : Nat} {cur : Label} (own : Own b i cur) (after : b < t) :
    Label.mbb t ≠ cur := by
  rintro rfl
  obtain same | ⟨j, -, same⟩ := own
  · obtain rfl := Label.mbb.inj same
    exact Nat.lt_irrefl _ after
  · cases same

theorem Own.ne_split {b i b' j : Nat} {cur : Label} (own : Own b i cur)
    (after : b < b' ∨ b' = b ∧ i ≤ j) : Label.split b' j ≠ cur := by
  rintro rfl
  obtain same | ⟨k, before, same⟩ := own
  · cases same
  · obtain ⟨rfl, rfl⟩ := Label.split.inj same
    omega

theorem Own.mono {b i j : Nat} {cur : Label} (own : Own b i cur) (le : i ≤ j) : Own b j cur :=
  own.imp_right fun ⟨k, before, same⟩ => ⟨k, Nat.lt_of_lt_of_le before le, same⟩

/-- Code appended in the own IR blocks of block `b` leaves the later ones alone. -/
theorem Appends.apart {b i : Nat} {mbb : MachineBasicBlock} {st st' : Builder} {code : List Inst}
    (appends : Appends (mf.site b mbb i) st st' code) {l : Label} (other : l ≠ st.cur)
    (foreign : l ≠ .mbb b) : st'.blocks l = st.blocks l := by
  obtain ⟨loads, more, -, none⟩ := appends.loads l other
  rw [more, none foreign, List.append_nil]

/-- A folded jump emits nothing. -/
theorem Chunk.of_folded {b i : Nat} {mbb : MachineBasicBlock} {cur cur' : Label} {code : List Inst}
    (chunk : Chunk cx (mf.site b mbb i) minst (dispatch cx minst T) cur code cur')
    (folded : Folded cx mbb i minst) : code = [] ∧ cur' = cur := by
  have jump : dispatch cx minst T = .jump := dispatch_congr (by simp) folded.1
  have behind : (mf.site b mbb i).prev.any MachineInstr.isConditionalBranch = true :=
    site_prev.mpr folded.2
  cases chunk with
  | folded _ _ => exact ⟨rfl, rfl⟩
  | jump _ unfolded _ _ => simp [behind] at unfolded
  | ret here | indirect here | branch here | call here => simp [jump] at here
  | plain here _ => simp [jump] at here

theorem placed_cur (shape : WellShaped cx mf) {b i : Nat} {mbb : MachineBasicBlock}
    {cur cur' : Label} {code : List Inst} (block : mf.blocks[b]? = some mbb)
    (here : mbb[i]? = some minst)
    (chunk : Chunk cx (mf.site b mbb i) minst (dispatch cx minst T) cur code cur')
    (own : Own b i cur) : Own b (i + 1) cur' ∨
      (∃ next, mbb[i + 1]? = some next ∧ Folded cx mbb (i + 1) next) ∨
      (i + 1 = mbb.length ∧ ∃ last, mbb.getLast? = some last ∧ isBranch last = true) := by
  cases chunk with
  | branch path _ _ _ untaken =>
    obtain ⟨branch, -, conditional⟩ := dispatch_branch path
    cases untaken with
    | folded next t found unconditional _ _ =>
      have jump := (shape.folded block here conditional found unconditional).1
      exact .inr (.inl ⟨next, found, jump, i, minst, rfl, here, conditional⟩)
    | split next _ _ => exact .inl (.inr ⟨i, Nat.lt_succ_self i, rfl⟩)
    | fallthrough last _ =>
      have bound := (List.getElem?_eq_some_iff.mp here).1
      have length : i + 1 = mbb.length :=
        Nat.le_antisymm bound (List.getElem?_eq_none_iff.mp last)
      exact .inr (.inr ⟨length, minst, getLast?_of_end here length, branch⟩)
  | _ => exact .inl (own.mono (Nat.le_succ i))

theorem placed_instr (shape : WellShaped cx mf) {b i : Nat} {mbb : MachineBasicBlock}
    {st st' : Builder} {code : List Inst} (block : mf.blocks[b]? = some mbb)
    (here : mbb[i]? = some minst)
    (lifting : InstrLifting cx mf addrs fin b mbb i minst st st' code)
    (placed : Placed cx mf b i st) : Placed cx mf b (i + 1) st' := by
  have bound := (List.getElem?_eq_some_iff.mp here).1
  obtain own | folded : Own b i st.cur ∨ Folded cx mbb i minst := by
    obtain own | ⟨minst', here', folded⟩ | ⟨done, -⟩ := placed.cur block
    · exact .inl own
    · obtain rfl := Option.some.inj (here.symm.trans here')
      exact .inr folded
    · omega
  · have later : ∀ t, b < t → st'.blocks (.mbb t) = [] := by
      intro t after
      rw [lifting.appends.apart (own.ne_later after) (by rintro ⟨⟩; omega)]
      exact placed.later t after
    have splits : ∀ b' j, b < b' ∨ b' = b ∧ i + 1 ≤ j → st'.blocks (.split b' j) = [] := by
      intro b' j after
      rw [lifting.appends.apart (own.ne_split (by omega)) (by rintro ⟨⟩)]
      exact placed.splits b' j (by omega)
    refine ⟨later, splits, fun _ => by simp, fun block' => ?_⟩
    obtain rfl := Option.some.inj (block.symm.trans block')
    exact placed_cur shape block here lifting.chunk own
  · obtain ⟨rfl, cur⟩ := lifting.chunk.of_folded folded
    have same : ∀ l, l ≠ .mbb b → st'.blocks l = st.blocks l := by
      intro l foreign
      by_cases at_ : l = st.cur
      · rw [at_, lifting.appends.here, List.append_nil]
      · exact lifting.appends.apart at_ foreign
    refine ⟨fun t after => ?_, fun b' j after => ?_, fun _ => by simp, fun block' => .inr (.inr ?_)⟩
    · rw [same _ (by rintro ⟨⟩; omega)]
      exact placed.later t after
    · rw [same _ (by rintro ⟨⟩)]
      exact placed.splits b' j (by omega)
    · obtain rfl := Option.some.inj (block.symm.trans block')
      have last := (shape.folded_last block here folded).2
      exact ⟨last, minst, getLast?_of_end here last, (dispatch_jump folded.1).1⟩

theorem terminator_blocks {s : Site} {st st' : Builder} (done : fillTerminator cx s st = .ok st')
    (last : (∃ last, s.mbb.getLast? = some last ∧ isBranch last = true) ∨ Own b i st.cur) (l : Label)
    (foreign : ¬Own b i l) : st'.blocks l = st.blocks l := by
  obtain ⟨last', found, ⟨-, rfl⟩ | ⟨branch, -, emits⟩⟩ := fillTerminator_ok done
  · rfl
  · obtain ⟨last, found', branch'⟩ | own := last
    · obtain rfl := Option.some.inj (found.symm.trans found')
      simp [branch] at branch'
    · have other : l ≠ st.cur := fun same => foreign (same ▸ own)
      obtain ⟨-, rfl⟩ | ⟨-, -, rfl⟩ := emits <;> simp [other]

theorem placed (shape : WellShaped cx mf) (whole : finalBuilder cx mf addrs = .ok fin) {b i : Nat}
    {mbb : MachineBasicBlock} {st : Builder} (block : mf.blocks[b]? = some mbb)
    (bound : i ≤ mbb.length) (at_ : builderAt cx mf addrs b i = .ok st) : Placed cx mf b i st := by
  refine builder_induction whole (P := Placed cx mf) ?_ (placed_instr shape) ?_ block bound at_
  · intro st start
    have blocks : mf.blocks ≠ [] := fun empty => by simp [empty] at block
    obtain ⟨spReg, -, builder⟩ := builderAt_zero whole blocks
    obtain rfl := Except.ok.inj (builder.symm.trans start)
    refine ⟨fun t after => ?_, fun b' j after => ?_, fun pos => by omega, fun _ => .inl (.inl rfl)⟩
    · exact initialBuilder_other (by rintro ⟨⟩; omega) spReg
    · exact initialBuilder_other (by rintro ⟨⟩) spReg
  · intro b mbb st st' block inside terminator before
    have own : (∃ last, (mf.site b mbb 0).mbb.getLast? = some last ∧ isBranch last = true) ∨
        Own b mbb.length st.cur := by
      obtain own | ⟨minst, here, -⟩ | ⟨-, last⟩ := before.cur block
      · exact .inr own
      · simp at here
      · exact .inl last
    have same := terminator_blocks terminator own
    refine ⟨fun t after => ?_, fun b' j after => ?_, fun _ _ => ?_, fun _ => .inl (.inl rfl)⟩
    · exact (same _ fun h => h.ne_later (by omega) rfl).trans (before.later t (by omega))
    · exact (same _ fun h => h.ne_split (by omega) rfl).trans (before.splits b' j (by omega))
    · exact (same _ fun h => h.ne_later (by omega) rfl).trans (before.later (b + 1) (by omega))

/-- A block other than the first starts with the code of its first instruction. -/
theorem later_start (shape : WellShaped cx mf) (whole : finalBuilder cx mf addrs = .ok fin)
    (adds : List Inst) {b : BlockId} {mbb : MachineBasicBlock} (block : mf.blocks[b]? = some mbb)
    (pos : 0 < b) : ∃ st, builderAt cx mf addrs b 0 = .ok st ∧ st.cur = .mbb b ∧
      liftedBody cx adds fin (.mbb b) = codeAt cx fin st := by
  obtain ⟨before, as, last, after, -, builders, -, -, -, -⟩ := blockLifting whole block
  have builder := builders 0
  refine ⟨_, builder, rfl, ?_⟩
  have empty := (placed shape whole block (Nat.zero_le _) builder).start pos rfl
  have other : Label.mbb b ≠ entryLabel := by
    rintro ⟨⟩
    exact Nat.lt_irrefl _ pos
  have code : codeAt cx fin { before with cur := .mbb b } =
      saveRegistersBeforeReturn cx.save ((fin.blocks (.mbb b)).drop (before.blocks (.mbb b)).length) :=
    rfl
  rw [liftedBody_other other, code, show before.blocks (.mbb b) = [] from empty]
  rfl

/-- A block starts with the code of its first instruction, the entry block after
the registrations and the copies. -/
theorem block_start (shape : WellShaped cx mf) (whole : finalBuilder cx mf addrs = .ok fin)
    {adds : List Inst} (plain : Plain adds) {b : BlockId} {mbb : MachineBasicBlock}
    (block : mf.blocks[b]? = some mbb) : ∃ st before, builderAt cx mf addrs b 0 = .ok st ∧
      st.cur = .mbb b ∧ Plain before ∧
      liftedBody cx adds fin (.mbb b) = before ++ codeAt cx fin st := by
  have bound := (List.getElem?_eq_some_iff.mp block).1
  rcases Nat.eq_zero_or_pos b with rfl | pos
  · obtain ⟨st, first, cur, code⟩ := Lifted.entry_code adds whole (List.ne_nil_of_length_pos bound)
    exact ⟨st, _, first, cur, plain.append (plain_materialize _), code⟩
  · obtain ⟨st, first, cur, code⟩ := later_start shape whole adds block pos
    exact ⟨st, [], first, cur, .nil, code⟩

/-- The block made behind a conditional branch starts with the next instruction. -/
theorem split_start (shape : WellShaped cx mf) (whole : finalBuilder cx mf addrs = .ok fin)
    (adds : List Inst) {b i : Nat} {mbb : MachineBasicBlock} {st st' : Builder} {code : List Inst}
    (block : mf.blocks[b]? = some mbb) (here : mbb[i]? = some minst)
    (lifting : InstrLifting cx mf addrs fin b mbb i minst st st' code) (own : Own b i st.cur)
    (cur : st'.cur = .split b i) :
    liftedBody cx adds fin (.split b i) = codeAt cx fin st' := by
  have bound := (List.getElem?_eq_some_iff.mp here).1
  have before := placed shape whole block bound.le lifting.builder
  have empty : st'.blocks (.split b i) = [] := by
    rw [lifting.appends.apart (own.ne_split (by omega)) (by rintro ⟨⟩)]
    exact before.splits b i (by omega)
  rw [liftedBody_other (by rintro ⟨⟩), codeAt, cur, empty]
  rfl

end Bleach
