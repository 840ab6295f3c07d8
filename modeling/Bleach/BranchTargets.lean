import Bleach.Lifter.Emission
import Bleach.RiscV

/-! Where the lifter looks for the target of a branch. A jump is searched for its block
operand; a conditional branch is read at one index, the jump behind it at another. -/
namespace Bleach
variable {W : Type} {s : Site} {minst next : MachineInstr} {st : Builder}

/-- The search for the block operand. -/
def searchTarget (s : Site) (minst : MachineInstr) : Lift Label :=
  match minst.mbbOperand with
  | none => .error .assertion
  | some b => s.m2b b

/-- Where a branch continues that is not taken: with the jump behind it, with what else stands
behind it, or with the next block. -/
def searchFallthrough (s : Site) : Lift Label :=
  match s.next with
  | some next =>
    if next.isUnconditionalBranch then searchTarget s next else .ok (.split s.block s.idx)
  | none => s.m2b (s.block + 1)

/-- Operand `k` is a block, and the only one. -/
structure BlockOperandAt (minst : MachineInstr) (k : Nat) : Prop where
  block : ∃ b, minst.operands[k]? = some (.mbb b)
  unique : ∀ {j b}, minst.operands[j]? = some (.mbb b) → j = k

/-- The three helpers give what the search gives. -/
structure TargetsFound (s : Site) (minst : MachineInstr) : Prop where
  ifTrue : getIfTrueBlock s minst = searchTarget s minst
  ifFalse : getIfFalseBlock s minst = searchFallthrough s
  /-- Where the jump behind the branch is not left out, it goes to the block of the search. -/
  jump : ∀ {jumpSite : Site} {next : MachineInstr} {st : Builder}, s.next = some next →
    jumpSite.prev.any MachineInstr.isConditionalBranch = false →
    generateJump jumpSite next st = (searchTarget jumpSite next).map fun l => st.emit [.br l]

theorem mbbOperand_at {k : Nat} {b : BlockId} (only : BlockOperandAt minst k)
    (operand : minst.operands[k]? = some (.mbb b)) : minst.mbbOperand = some b := by
  have member := List.mem_of_getElem? operand
  cases found : minst.mbbOperand with
  | none =>
    have absent := List.findSome?_eq_none_iff.mp found _ member
    cases absent
  | some b' =>
    obtain ⟨op, there, block⟩ := List.exists_of_findSome?_eq_some found
    obtain ⟨j, position⟩ := List.mem_iff_getElem?.mp there
    cases op with
    | mbb b'' =>
      obtain rfl := Option.some.inj block
      obtain rfl := only.unique position
      cases operand.symm.trans position
      rfl
    | reg r isDef isImplicit => cases block
    | imm v => cases block
    | global f => cases block
    | other text => cases block

theorem BlockOperandAt.search {k : Nat} (only : BlockOperandAt minst k) :
    ∃ b, minst.operands[k]? = some (.mbb b) ∧ searchTarget s minst = s.m2b b := by
  obtain ⟨b, operand⟩ := only.block
  exact ⟨b, operand, by rw [searchTarget, mbbOperand_at only operand]⟩

/-- An index without a block gives no target. -/
theorem bind_mbb_eq_none {k j : Nat} (only : BlockOperandAt minst k) (other : j ≠ k) :
    (minst.operands[j]?).bind MachineOperand.mbb? = none := by
  cases found : minst.operands[j]? with
  | none => rfl
  | some op =>
    cases op with
    | mbb b => exact absurd (only.unique found) other
    | reg r isDef isImplicit => rfl
    | imm v => rfl
    | global f => rfl
    | other text => rfl

theorem m2b_ne_assertion (b : BlockId) : s.m2b b ≠ .error .assertion := by
  unfold Site.m2b
  split <;> simp

theorem generateJump_eq (unfolded : s.prev.any MachineInstr.isConditionalBranch = false) :
    generateJump s minst st = (searchTarget s minst).map fun l => st.emit [.br l] := by
  rw [generateJump, unfolded, if_neg (by simp), searchTarget]
  cases minst.mbbOperand with
  | none => rfl
  | some b =>
    simp only
    cases s.m2b b <;> rfl

theorem getIfTrueBlock_eq_iff {k : Nat} (only : BlockOperandAt minst k) :
    getIfTrueBlock s minst = searchTarget s minst ↔ k = 2 := by
  obtain ⟨b, operand, search⟩ := only.search (s := s)
  rw [search, getIfTrueBlock]
  constructor
  · intro same
    by_contra other
    rw [bind_mbb_eq_none only (Ne.symm other)] at same
    exact m2b_ne_assertion b same.symm
  · rintro rfl
    rw [operand]
    rfl

/-- The jump behind a branch is read at its first operand. -/
theorem getIfFalseBlock_eq_iff (long : 2 ≤ minst.operands.length)
    (following : ∀ {next}, s.next = some next → next.isUnconditionalBranch = true →
      ∃ j, BlockOperandAt next j) :
    getIfFalseBlock s minst = searchFallthrough s ↔
      ∀ next, s.next = some next → next.isUnconditionalBranch = true → BlockOperandAt next 0 := by
  rw [getIfFalseBlock, if_neg (by omega), searchFallthrough]
  cases found : s.next with
  | none => simp
  | some next =>
    by_cases jumps : next.isUnconditionalBranch = true
    · obtain ⟨j, only⟩ := following found jumps
      obtain ⟨b, operand, search⟩ := only.search (s := s)
      simp only [jumps, if_true, search, Option.some.injEq, forall_eq', true_implies]
      constructor
      · intro same
        have first : j = 0 := by
          by_contra other
          rw [bind_mbb_eq_none only (Ne.symm other)] at same
          exact m2b_ne_assertion b same.symm
        exact first ▸ only
      · intro first
        obtain rfl := first.unique operand
        rw [operand]
        rfl
    · simp only [jumps, Bool.false_eq_true, if_false, Option.some.injEq, forall_eq', true_iff]
      intro marked
      cases marked

/-- The targets of a branch with one block operand are found exactly where that is the third
operand and the block operand of a jump behind it the first. -/
theorem branch_targets_found_iff (s : Site) (minst : MachineInstr) (k : Nat)
    (only : BlockOperandAt minst k)
    (following : ∀ next, s.next = some next → next.isUnconditionalBranch = true →
      ∃ j, BlockOperandAt next j) :
    TargetsFound s minst ↔ k = 2 ∧
      ∀ next, s.next = some next → next.isUnconditionalBranch = true → BlockOperandAt next 0 := by
  have following := fun {next} => following next
  have long (third : k = 2) : 2 ≤ minst.operands.length := by
    obtain ⟨b, operand⟩ := only.block
    have bound := (List.getElem?_eq_some_iff.mp operand).1
    omega
  constructor
  · intro found
    have third := (getIfTrueBlock_eq_iff only).mp found.ifTrue
    exact ⟨third, (getIfFalseBlock_eq_iff (long third) following).mp found.ifFalse⟩
  · rintro ⟨third, first⟩
    exact {
      ifTrue := (getIfTrueBlock_eq_iff only).mpr third
      ifFalse := (getIfFalseBlock_eq_iff (long third) following).mpr first
      jump := fun _ unfolded => generateJump_eq unfolded }

/-- What a conditional branch is lifted to, where that succeeds, are the blocks of the search. -/
theorem generateBranch_targets {cx : Context W} {st' : Builder} {k : Nat}
    (only : BlockOperandAt minst k) (done : generateBranch cx s minst st = .ok st') :
    ∃ ifTrue, searchTarget s minst = .ok ifTrue ∧
      Inst.condBr (.ssa (.result s.block s.idx)) ifTrue st'.cur ∈ st'.blocks st.cur := by
  obtain ⟨f, loads, args, b, ifFalse, -, -, operand, bound, -, rfl⟩ := generateBranch_ok done
  obtain ⟨op, third, block⟩ := Option.bind_eq_some_iff.mp operand
  cases op with
  | mbb b' =>
    obtain rfl := Option.some.inj block
    obtain rfl := only.unique third
    refine ⟨.mbb b', ?_, ?_⟩
    · rw [searchTarget, mbbOperand_at only third]
      simp [Site.m2b, bound]
    · simp [Builder.emit, Builder.insert]
  | reg r isDef isImplicit => cases block
  | imm v => cases block
  | global f => cases block
  | other text => cases block

/-- `BEQ` in front of a jump. -/
def beqBlock : MachineBasicBlock := [RiscV.beq 10 11 1, RiscV.br 2]

def CBNZX : InstrDesc := { name := "CBNZX", numDefs := 0, isBranch := true }

/-- AArch64's branch on a register that is not zero; its block is the second operand. -/
def cbnzx (r : Register) (b : BlockId) : MachineInstr := ⟨CBNZX, [.reg r false false, .mbb b]⟩

theorem beq_operand (r r' : Register) (b : BlockId) : BlockOperandAt (RiscV.beq r r' b) 2 where
  block := ⟨b, rfl⟩
  unique {j b'} found := by
    match j with
    | 0 | 1 => cases found
    | 2 => rfl
    | j + 3 => cases found

theorem br_operand (b : BlockId) : BlockOperandAt (RiscV.br b) 0 where
  block := ⟨b, rfl⟩
  unique {j b'} found := by
    match j with
    | 0 => rfl
    | j + 1 => cases found

theorem cbnzx_operand (r : Register) (b : BlockId) : BlockOperandAt (cbnzx r b) 1 where
  block := ⟨b, rfl⟩
  unique {j b'} found := by
    match j with
    | 0 => cases found
    | 1 => rfl
    | j + 2 => cases found

theorem beq_targets_found : TargetsFound ⟨3, 0, beqBlock, 0⟩ (RiscV.beq 10 11 1) :=
  (branch_targets_found_iff ⟨3, 0, beqBlock, 0⟩ (RiscV.beq 10 11 1) 2 (beq_operand 10 11 1)
    (fun next found _ => by
      cases found
      exact ⟨0, br_operand 2⟩)).mpr
    ⟨rfl, fun next found _ => by
      cases found
      exact br_operand 2⟩

/-- The block of `CBNZX` is not found. -/
theorem cbnzx_target_missed :
    getIfTrueBlock ⟨3, 0, [cbnzx 0 1], 0⟩ (cbnzx 0 1) = .error .assertion ∧
      searchTarget ⟨3, 0, [cbnzx 0 1], 0⟩ (cbnzx 0 1) = .ok (.mbb 1) ∧
      ¬∀ (s : Site) (minst : MachineInstr) (k : Nat), BlockOperandAt minst k →
        (∀ next, s.next = some next → next.isUnconditionalBranch = true → ∃ j, BlockOperandAt next j) →
        TargetsFound s minst := by
  refine ⟨rfl, rfl, fun all => ?_⟩
  have found := all ⟨3, 0, [cbnzx 0 1], 0⟩ (cbnzx 0 1) 1 (cbnzx_operand 0 1) fun next found => by cases found
  exact absurd ((getIfTrueBlock_eq_iff (cbnzx_operand 0 1)).mp found.ifTrue) (by omega)

end Bleach
