import Bleach.Mctomir.Transfers

/-! A call, or a jump into another function, names the function that owns the block
at its target, wherever in the function that block is. -/
namespace Bleach.Mctomir

/-- An instruction that names function `g` was built from one that goes to the start of `g`. -/
def CallsEnterAtStart (mia : MCInstrAnalysis) (funcs : List DecodedFunction) (tr : Translation) : Prop :=
  ∀ (k i j : Nat) (func : TranslatedFunction) (block : TranslatedBlock) (built : BuiltBlock)
    (t : TranslatedInst) (instr : BuiltInstr) (g : FuncId),
    tr.funcs[k]? = some func → func.blocks[i]? = some block → func.mfunc[i]? = some built →
      block.instrs[j]? = some t → built.instrs[j]? = some instr → .global g ∈ instr.operands →
        ∃ d, funcs[g]? = some d ∧ operandTarget mia t = some d.start

/-- Calls and jumps to a block of another function go to the start of the function
that owns the block. -/
def TransfersEnterAtStart (mia : MCInstrAnalysis) (funcs : List DecodedFunction) : Prop :=
  ∀ (k : Nat) (d : DecodedFunction), funcs[k]? = some d → ∀ t ∈ d.insts, ∀ a r,
    operandTarget mia t = some a → owner mia funcs a = some r →
      (mia.isCall t.inst = true ∨ mia.isUnconditionalBranch t.inst = true ∧ r.func ≠ k) →
        ∃ g, funcs[r.func]? = some g ∧ a = g.start

variable {mia : MCInstrAnalysis} {funcs : List DecodedFunction}

theorem isCall_iff {inst : MCInst} {k : FuncId} {i : Nat} {r : BlockRef} :
    isCall mia inst ⟨k, i⟩ r = true ↔
      mia.isCall inst = true ∨ mia.isUnconditionalBranch inst = true ∧ r.func ≠ k := by
  simp [isCall, isTailCall]

theorem calls_enter_at_start_iff {tr : Translation} (done : finalize mia funcs = .ok tr) :
    CallsEnterAtStart mia funcs tr ↔ TransfersEnterAtStart mia funcs := by
  obtain ⟨length, all⟩ := finalize_ok done
  constructor
  · intro starts k d found t inside a r at_a owned call
    obtain ⟨func, at_k, result⟩ := all k d found
    obtain ⟨block, member, at_t⟩ := result.split.mem_iff.mp inside
    obtain ⟨i, at_block⟩ := List.mem_iff_getElem?.mp member
    obtain ⟨j, at_j⟩ := List.mem_iff_getElem?.mp at_t
    obtain ⟨made, run, at_built⟩ := result.built i block at_block
    obtain ⟨instr, at_instr, successor, made⟩ :=
      forall₂_get (result.instrs_built at_block at_built) at_j
    have target : transfer mia (blockMap mia funcs) ⟨k, i⟩ t = some (.global r.func) :=
      transfer_global.mpr ⟨a, r, at_a, owned, isCall_iff.mpr call, rfl⟩
    obtain ⟨g, found', start⟩ := starts k i j func block _ t instr r.func at_k at_block at_built at_j
      at_instr ((mem_operands made rfl).mpr target)
    exact ⟨g, found', Option.some.inj (at_a.symm.trans start)⟩
  · intro starts k i j func block built t instr g at_k at_block at_built at_j at_instr operand
    obtain ⟨d, found, result⟩ := finalize_source done at_k
    obtain ⟨instr', at_instr', successor, made⟩ :=
      forall₂_get (result.instrs_built at_block at_built) at_j
    obtain rfl := Option.some.inj (at_instr'.symm.trans at_instr)
    obtain ⟨a, r, at_a, owned, call, rfl⟩ := transfer_global.mp ((mem_operands made rfl).mp operand)
    have inside : t ∈ d.insts :=
      result.split.mem_iff.mpr ⟨block, List.mem_of_getElem? at_block, List.mem_of_getElem? at_j⟩
    obtain ⟨e, found', rfl⟩ := starts k d found t inside a r at_a owned (isCall_iff.mp call)
    exact ⟨e, found', at_a⟩

/-- A jump to the second block of another function, a shared tail. -/
def sharedTail : List DecodedFunction :=
  [⟨"first", 0x1000, 0x1010, [inst 0x1000 1 [.reg 10, .imm 8], inst 0x1004 0 [.reg 10],
      inst 0x1008 0 [.reg 11], inst 0x100c 4 []]⟩,
    ⟨"second", 0x1010, 0x1018, [inst 0x1010 0 [.reg 11], inst 0x1014 2 [.imm (-12)]]⟩]

theorem shared_tail_restarts : ∃ tr, finalize smallTarget sharedTail = .ok tr ∧
    ¬CallsEnterAtStart smallTarget sharedTail tr := by
  refine ⟨_, rfl, fun starts => ?_⟩
  obtain ⟨d, found, start⟩ :=
    starts 1 0 1 _ _ _ (inst 0x1014 2 [.imm (-12)]) ⟨.gBr, [.global 0]⟩ 0 rfl rfl rfl rfl rfl (by decide)
  cases found
  revert start
  decide

/-- A jump to the start of another function. -/
def wholeTail : List DecodedFunction :=
  [⟨"first", 0x1000, 0x1008, [inst 0x1000 0 [.reg 10], inst 0x1004 4 []]⟩,
    ⟨"second", 0x1008, 0x1010, [inst 0x1008 0 [.reg 11], inst 0x100c 2 [.imm (-12)]]⟩]

theorem shared_tail_iff :
    (∃ tr, finalize smallTarget sharedTail = .ok tr ∧
      (CallsEnterAtStart smallTarget sharedTail tr ↔ TransfersEnterAtStart smallTarget sharedTail)) ∧
    ∃ tr, finalize smallTarget wholeTail = .ok tr ∧ CallsEnterAtStart smallTarget wholeTail tr := by
  obtain ⟨tr, done⟩ : ∃ tr, finalize smallTarget wholeTail = .ok tr := ⟨_, rfl⟩
  refine ⟨⟨_, rfl, calls_enter_at_start_iff rfl⟩, tr, done, (calls_enter_at_start_iff done).mpr ?_⟩
  have enters : ∀ d ∈ wholeTail, ∀ t ∈ d.insts, (operandTarget smallTarget t).all (fun a =>
      (owner smallTarget wholeTail a).all fun r => wholeTail[r.func]?.any (a = ·.start)) = true := by
    decide
  intro k d found t inside a r at_a owned _
  have here := enters d (List.mem_of_getElem? found) t inside
  rw [at_a, Option.all_some, owned, Option.all_some] at here
  obtain ⟨g, found', start⟩ := (Option.any_eq_true _ _).mp here
  exact ⟨g, found', of_decide_eq_true start⟩

end Bleach.Mctomir
