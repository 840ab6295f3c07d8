import Bleach.Mctomir.Transfers

/-! Blocks stay in their functions exactly when no conditional branch goes to a block
of another function: only unconditional branches are turned into calls there. -/
namespace Bleach.Mctomir

/-- The block operands and edges of every function refer to its own blocks. -/
def BlocksStay (tr : Translation) : Prop :=
  ∀ (k : Nat) (func : TranslatedFunction), tr.funcs[k]? = some func → ∀ built ∈ func.mfunc,
    (∀ instr ∈ built.instrs, ∀ r, .mbb r ∈ instr.operands → r.func = k ∧ r.idx < func.mfunc.length) ∧
      ∀ r ∈ built.successors, r.func = k ∧ r.idx < func.mfunc.length

/-- Direct branches other than calls and unconditional ones go to blocks the
function owns, or to none at all. -/
def BranchesStay (mia : MCInstrAnalysis) (funcs : List DecodedFunction) : Prop :=
  ∀ (k : Nat) (d : DecodedFunction), funcs[k]? = some d → ∀ t ∈ d.insts,
    mia.isCall t.inst = false → mia.isUnconditionalBranch t.inst = false →
      ∀ a r, operandTarget mia t = some a → owner mia funcs a = some r → r.func = k

variable {mia : MCInstrAnalysis} {funcs : List DecodedFunction} {k : FuncId} {d : DecodedFunction}
  {func : TranslatedFunction}

/-- A block operand stays in the function when branches do. -/
theorem BranchesStay.transfer (stays : BranchesStay mia funcs) (found : funcs[k]? = some d)
    (result : Finalized mia funcs k d func) {t : TranslatedInst} (inside : t ∈ d.insts) {i : Nat}
    {r : BlockRef} (target : transfer mia (blockMap mia funcs) ⟨k, i⟩ t = some (.mbb r)) :
    r.func = k ∧ r.idx < func.mfunc.length := by
  obtain ⟨a, at_a, owned, call⟩ := transfer_mbb.mp target
  simp only [isCall, isTailCall, Bool.or_eq_false_iff, Bool.and_eq_false_iff, bne_eq_false_iff_eq] at call
  have own : r.func = k := by
    rcases call.2 with sometimes | own
    · exact stays k d found t inside call.1 sometimes a r at_a owned
    · exact own
  refine ⟨own, ?_⟩
  obtain ⟨d', found', start⟩ := owner_some owned
  rw [own] at found'
  obtain rfl : d' = d := Option.some.inj (found'.symm.trans found)
  have bound := (List.getElem?_eq_some_iff.mp start).1
  rw [blockStarts, ← result.split.starts, List.length_map] at bound
  exact Nat.lt_of_lt_of_le bound (result.length ▸ Nat.le_add_right _ _)

theorem blocks_stay_iff {tr : Translation} (done : finalize mia funcs = .ok tr) :
    BlocksStay tr ↔ BranchesStay mia funcs := by
  obtain ⟨length, all⟩ := finalize_ok done
  constructor
  · intro stays k d found t inside call sometimes a r at_a owned
    obtain ⟨func, at_k, result⟩ := all k d found
    obtain ⟨i, built, at_i, instr, member, successor, made⟩ := result.built_of_inst inside
    have target : transfer mia (blockMap mia funcs) ⟨k, i⟩ t = some (.mbb r) :=
      transfer_mbb.mpr ⟨a, at_a, owned, by simp [isCall, isTailCall, call, sometimes]⟩
    exact ((stays k func at_k built (List.mem_of_getElem? at_i)).1 instr member r
      ((mem_operands made rfl).mpr target)).1
  · intro stays k func at_k built member
    obtain ⟨d, found, result⟩ := finalize_source done at_k
    obtain ⟨i, at_i⟩ := List.mem_iff_getElem?.mp member
    constructor
    · intro instr inside r operand
      obtain ⟨t, at_t, successor, made⟩ := result.inst_of_built at_i inside
      exact stays.transfer found result at_t ((mem_operands made rfl).mp operand)
    · intro r edge
      rcases result.successor_cases at_i edge with ⟨t, at_t, target⟩ | ⟨rfl, bound⟩
      · exact stays.transfer found result at_t target
      · exact ⟨rfl, Nat.lt_of_lt_of_le bound (result.length ▸ Nat.le_add_right _ _)⟩

/-- A conditional branch to the first block of another function. -/
def conditionalTail : List DecodedFunction :=
  [⟨"caller", 0x1000, 0x1008, [inst 0x1000 1 [.reg 10, .imm 8], inst 0x1004 4 []]⟩,
    ⟨"callee", 0x1008, 0x100c, [inst 0x1008 4 []]⟩]

theorem conditional_tail_leaks :
    ∃ tr, finalize smallTarget conditionalTail = .ok tr ∧ ¬BlocksStay tr := by
  refine ⟨_, rfl, fun stays => ?_⟩
  have own := ((stays 0 _ rfl _ List.mem_cons_self).2 ⟨1, 0⟩ (by decide)).1
  cases own

/-- A conditional branch over an instruction of its function. -/
def conditionalSkip : List DecodedFunction :=
  [⟨"caller", 0x1000, 0x100c, [inst 0x1000 1 [.reg 10, .imm 8], inst 0x1004 0 [.reg 10], inst 0x1008 4 []]⟩,
    ⟨"callee", 0x100c, 0x1010, [inst 0x100c 4 []]⟩]

theorem conditional_tail_iff :
    (∃ tr, finalize smallTarget conditionalTail = .ok tr ∧
      (BlocksStay tr ↔ BranchesStay smallTarget conditionalTail)) ∧
    ∃ tr, finalize smallTarget conditionalSkip = .ok tr ∧ BlocksStay tr := by
  obtain ⟨tr, done⟩ : ∃ tr, finalize smallTarget conditionalSkip = .ok tr := ⟨_, rfl⟩
  refine ⟨⟨_, rfl, blocks_stay_iff rfl⟩, tr, done, (blocks_stay_iff done).mpr ?_⟩
  have stays : ∀ p ∈ conditionalSkip.zipIdx, ∀ t ∈ p.1.insts, (operandTarget smallTarget t).all (fun a =>
      (owner smallTarget conditionalSkip a).all fun r => r.func = p.2) = true := by
    decide
  intro k d found t inside _ _ a r at_a owned
  have here := stays (d, k) (List.mem_zipIdx_iff_getElem?.mpr found) t inside
  rw [at_a, Option.all_some, owned, Option.all_some] at here
  exact of_decide_eq_true here

end Bleach.Mctomir
