import Bleach.Mctomir.Transfers

/-! The three computations of a branch target under both displacement conventions.
None of them has the length of the instruction. -/
namespace Bleach.Mctomir

/-- Where the displacement of a branch counts from: the start of the instruction or its end. -/
inductive Convention where
  | fromStart
  | fromEnd
  deriving DecidableEq

def Convention.target (c : Convention) (addr : Address) (size : BitVec 64) (disp : Address) : Address :=
  match c with
  | .fromStart => addr + disp
  | .fromEnd => addr + size + disp

/-- `evaluateBranch` of a target with the convention; it succeeds on direct branches and calls. -/
structure Follows (mia : MCInstrAnalysis) (c : Convention) (direct : MCInst → Bool)
    (disp : MCInst → Address) : Prop where
  evaluated : ∀ inst addr size, mia.evaluateBranch inst addr size =
    if direct inst then some (c.target addr size (disp inst)) else none
  transfer : ∀ inst, direct inst = true → mia.isBranch inst = true ∨ mia.isCall inst = true

/-- The leader and the linked address of a branch, and the address every direct
transfer is looked up under, are the architectural target. -/
def TargetsAgree (mia : MCInstrAnalysis) (c : Convention) (disp : MCInst → Address)
    (length : BitVec 64) (t : TranslatedInst) : Prop :=
  (mia.isBranch t.inst = true → branchTarget mia t = some (c.target t.address length (disp t.inst))) ∧
    operandTarget mia t = some (c.target t.address length (disp t.inst))

variable {mia : MCInstrAnalysis} {c : Convention} {direct : MCInst → Bool} {disp : MCInst → Address}
  {t : TranslatedInst}

theorem Follows.branchTarget_eq (follows : Follows mia c direct disp) (here : direct t.inst = true) :
    branchTarget mia t = some (t.address + disp t.inst) := by
  rw [branchTarget, follows.evaluated, if_pos here]
  cases c <;> simp [Convention.target]

theorem Follows.operandTarget_eq (follows : Follows mia c direct disp) (here : direct t.inst = true) :
    operandTarget mia t = some (match c with
      | .fromStart => t.address + disp t.inst
      | .fromEnd => t.address + 4 + disp t.inst) := by
  rw [operandTarget, follows.evaluated, if_pos here, Option.map_some]
  cases c <;> simp only [Convention.target, Option.some.injEq] <;> bv_omega

theorem TargetsAgree.fromStart (follows : Follows mia .fromStart direct disp) (here : direct t.inst = true)
    (length : BitVec 64) : TargetsAgree mia .fromStart disp length t :=
  ⟨fun _ => follows.branchTarget_eq here, follows.operandTarget_eq here⟩

/-- Counted from the end, only a four byte call comes out right. -/
theorem targetsAgree_fromEnd_iff (follows : Follows mia .fromEnd direct disp) (here : direct t.inst = true)
    {length : BitVec 64} (positive : length ≠ 0) :
    TargetsAgree mia .fromEnd disp length t ↔ mia.isBranch t.inst = false ∧ length = 4 := by
  rw [TargetsAgree, follows.branchTarget_eq here, follows.operandTarget_eq here, Option.some.injEq,
    Option.some.injEq, Convention.target]
  constructor
  · rintro ⟨leader, operand⟩
    refine ⟨?_, by bv_omega⟩
    by_contra branch
    rw [Bool.not_eq_false] at branch
    have shifted := leader branch
    apply positive
    bv_omega
  · rintro ⟨sequential, rfl⟩
    exact ⟨fun branch => absurd branch (by simp [sequential]), rfl⟩

theorem targets_agree_iff (follows : Follows mia c direct disp) (length : TranslatedInst → BitVec 64)
    (positive : ∀ t, length t ≠ 0) (insts : List TranslatedInst) :
    (∀ t ∈ insts, direct t.inst = true → TargetsAgree mia c disp (length t) t) ↔
      c = .fromStart ∨
        ∀ t ∈ insts, direct t.inst = true → mia.isBranch t.inst = false ∧ length t = 4 := by
  cases c with
  | fromStart =>
    constructor
    · intro _
      exact .inl rfl
    · intro _ t _ here
      exact .fromStart follows here (length t)
  | fromEnd =>
    constructor
    · intro agree
      exact .inr fun t inside here =>
        (targetsAgree_fromEnd_iff follows here (positive t)).mp (agree t inside here)
    · rintro (start | calls) t inside here
      · cases start
      · exact (targetsAgree_fromEnd_iff follows here (positive t)).mpr (calls t inside here)

/-- The small instruction set with displacements that count from the end. -/
def endRelativeTarget : MCInstrAnalysis :=
  { smallTarget with
    evaluateBranch := fun inst addr size =>
      if inst.opcode == 1 || inst.opcode == 2 || inst.opcode == 3 then
        some (addr + size + smallDisplacement inst)
      else none }

theorem endRelativeTarget_follows : Follows endRelativeTarget .fromEnd
    (fun inst => inst.opcode == 1 || inst.opcode == 2 || inst.opcode == 3) smallDisplacement where
  evaluated _ _ _ := rfl
  transfer inst direct := by simpa [endRelativeTarget, smallTarget] using direct

/-- A five byte jump: the leader, the address looked up and the target are three addresses. -/
theorem near_jump_misses : endRelativeTarget.isBranch (inst 0x1000 2 [.imm 16]).inst = true ∧
    branchTarget endRelativeTarget (inst 0x1000 2 [.imm 16]) = some 0x1010 ∧
      operandTarget endRelativeTarget (inst 0x1000 2 [.imm 16]) = some 0x1014 ∧
        ¬TargetsAgree endRelativeTarget .fromEnd smallDisplacement 5 (inst 0x1000 2 [.imm 16]) := by
  refine ⟨rfl, rfl, rfl, fun agree => ?_⟩
  have operand := agree.2
  revert operand
  decide

/-- Calls of four bytes agree. -/
theorem near_jump_iff :
    ((∀ t ∈ [inst 0x1000 2 [.imm 16]], (t.inst.opcode == 1 || t.inst.opcode == 2 || t.inst.opcode == 3) = true →
        TargetsAgree endRelativeTarget .fromEnd smallDisplacement 5 t) ↔
      Convention.fromEnd = .fromStart ∨ ∀ t ∈ [inst 0x1000 2 [.imm 16]],
        (t.inst.opcode == 1 || t.inst.opcode == 2 || t.inst.opcode == 3) = true →
          endRelativeTarget.isBranch t.inst = false ∧ (5 : BitVec 64) = 4) ∧
    ∀ t ∈ [inst 0x1000 3 [.imm 16], inst 0x1004 0 [.reg 10]],
      (t.inst.opcode == 1 || t.inst.opcode == 2 || t.inst.opcode == 3) = true →
        TargetsAgree endRelativeTarget .fromEnd smallDisplacement 4 t :=
  ⟨targets_agree_iff endRelativeTarget_follows (fun _ => 5) (fun _ => by decide) _,
    (targets_agree_iff endRelativeTarget_follows (fun _ => 4) (fun _ => by decide) _).mpr (.inr (by decide))⟩

end Bleach.Mctomir
