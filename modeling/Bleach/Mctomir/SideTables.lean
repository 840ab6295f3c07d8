import Bleach.Mctomir.Transfers
import Bleach.Lifter.Generate

/-! `translated_function` beside the machine function the lifter reads it with: block
by block and instruction by instruction, unless a branch target without a block got
an empty one appended. -/
namespace Bleach.Mctomir

/-- The addresses the lifter looks up in `translated_function`. -/
def instrAddresses (func : TranslatedFunction) : FunctionAddresses :=
  some (func.blocks.map fun block => block.instrs.map TranslatedInst.address)

structure Aligned (mia : MCInstrAnalysis) (k : FuncId) (func : TranslatedFunction) : Prop where
  length : func.mfunc.length = func.blocks.length
  placed : ∀ (i : Nat) (block : TranslatedBlock), func.blocks[i]? = some block →
    block.mbb = some ⟨k, i⟩
  nonempty : ∀ built ∈ func.mfunc, built.instrs ≠ []
  built : ∀ (i : Nat) (block : TranslatedBlock) (built : BuiltBlock),
    func.blocks[i]? = some block → func.mfunc[i]? = some built →
      List.Forall₂ (fun t instr => ∃ map successor,
        createMachineInstr mia map ⟨k, i⟩ t = .ok (instr, successor)) block.instrs built.instrs
  /-- Neither `blocks.at` nor `instrs.at` of the lifter fails, and the address it
  takes is that of the decoded instruction. -/
  addressed : ∀ (i : Nat) (built : BuiltBlock), func.mfunc[i]? = some built →
    ∃ as, blockAddresses (instrAddresses func) i = .ok (some as) ∧
      ∀ j < built.instrs.length, ∃ block t, func.blocks[i]? = some block ∧
        block.instrs[j]? = some t ∧ instrAddress (some as) j = .ok (some t.address)

/-- A block starts at the target of every direct branch. -/
def BranchesResolved (mia : MCInstrAnalysis) (funcs : List DecodedFunction) : Prop :=
  ∀ d ∈ funcs, ∀ t ∈ d.insts, mia.isBranch t.inst = true → ∀ a, branchTarget mia t = some a →
    ∃ e ∈ funcs, a ∈ blockStarts mia e

variable {mia : MCInstrAnalysis} {funcs : List DecodedFunction} {k : FuncId} {d : DecodedFunction}
  {func : TranslatedFunction}

theorem Finalized.aligned (result : Finalized mia funcs k d func) (none : created mia funcs k d = []) :
    Aligned mia k func := by
  have length : func.mfunc.length = func.blocks.length := by
    rw [result.length, none, List.length_nil, Nat.add_zero]
  have block_at : ∀ (i : Nat) (built : BuiltBlock), func.mfunc[i]? = some built →
      ∃ block, func.blocks[i]? = some block := by
    intro i built at_i
    have bound := (List.getElem?_eq_some_iff.mp at_i).1
    exact ⟨_, List.getElem?_eq_getElem (length ▸ bound)⟩
  refine ⟨length, fun i block at_i => ?_, fun built member => ?_, ?_, ?_⟩
  · simpa using result.placed i block at_i
  · obtain ⟨i, at_built⟩ := List.mem_iff_getElem?.mp member
    obtain ⟨block, at_block⟩ := block_at i built at_built
    have sizes := (result.instrs_built at_block at_built).length_eq
    intro empty
    rw [empty, List.length_nil, List.length_eq_zero_iff] at sizes
    exact result.split.nonempty (List.mem_of_getElem? at_block) sizes
  · intro i block built at_block at_built
    exact (result.instrs_built at_block at_built).imp fun t instr made => ⟨_, made⟩
  · intro i built at_built
    obtain ⟨block, at_block⟩ := block_at i built at_built
    refine ⟨block.instrs.map TranslatedInst.address, ?_, fun j inside => ?_⟩
    · simp [blockAddresses, instrAddresses, at_block]
    · rw [← (result.instrs_built at_block at_built).length_eq] at inside
      refine ⟨block, _, at_block, List.getElem?_eq_getElem inside, ?_⟩
      simp [instrAddress, List.getElem?_eq_getElem inside]

theorem branches_resolved_iff : BranchesResolved mia funcs ↔
    ∀ d ∈ funcs, ∀ a ∈ linkTargets mia d.insts, owner mia funcs a ≠ none := by
  simp only [BranchesResolved, mem_linkTargets, Ne, owner_none, not_forall, not_not, exists_prop]
  constructor
  · rintro resolved d member a ⟨t, inside, branch, target⟩
    exact resolved d member t inside branch a target
  · intro resolved d member t inside branch a target
    exact resolved d member a ⟨t, inside, branch, target⟩

/-- The first function that branches to an unresolved address gets a block for it. -/
theorem resolved_of_created_nil
    (none : ∀ (k : Nat) (d : DecodedFunction), funcs[k]? = some d → created mia funcs k d = []) :
    ∀ d ∈ funcs, ∀ a ∈ linkTargets mia d.insts, owner mia funcs a ≠ .none := by
  intro d member a target unowned
  have untargeted : ∀ k, targetedBefore mia funcs k a = false := by
    intro k
    induction k with
    | zero => rfl
    | succ k ih =>
      rw [targetedBefore, List.take_add_one, List.any_append, Bool.or_eq_false_iff]
      refine ⟨ih, ?_⟩
      cases found : funcs[k]? with
      | none => rfl
      | some e =>
        have absent : a ∉ linkTargets mia e.insts := by
          intro here
          have made := mem_created.mpr ⟨here, unowned, ih⟩
          rw [none k e found] at made
          cases made
        simpa using absent
  obtain ⟨k, found⟩ := List.mem_iff_getElem?.mp member
  have made := mem_created.mpr ⟨target, unowned, untargeted k⟩
  rw [none k d found] at made
  cases made

theorem tables_aligned_iff {tr : Translation} (done : finalize mia funcs = .ok tr) :
    (∀ (k : Nat) (func : TranslatedFunction), tr.funcs[k]? = some func → Aligned mia k func) ↔
      BranchesResolved mia funcs := by
  obtain ⟨length, all⟩ := finalize_ok done
  rw [branches_resolved_iff]
  constructor
  · intro aligned
    apply resolved_of_created_nil
    intro k d found
    obtain ⟨func, at_k, result⟩ := all k d found
    have sizes := (aligned k func at_k).length
    rw [result.length, Nat.add_eq_left, List.length_eq_zero_iff] at sizes
    exact sizes
  · intro resolved k func at_k
    obtain ⟨d, found, result⟩ := finalize_source done at_k
    apply result.aligned
    apply EntryList.fresh_eq_nil.mpr
    intro a target
    have owned := resolved d (List.mem_of_getElem? found) a target
    rw [Bool.or_eq_true]
    exact .inl (Option.isSome_iff_ne_none.mpr owned)

/-- A function that ends in a jump to a PLT entry. -/
def jumpToPlt : List DecodedFunction :=
  [⟨"tail", 0x1000, 0x1008, [inst 0x1000 0 [.reg 10], inst 0x1004 2 [.imm 0x1000]]⟩]

theorem jump_to_plt_misaligned : ∃ tr func, finalize smallTarget jumpToPlt = .ok tr ∧
    tr.funcs[0]? = some func ∧ ¬Aligned smallTarget 0 func ∧
      blockAddresses (instrAddresses func) 1 = .error .outOfRange := by
  refine ⟨_, _, rfl, rfl, fun aligned => ?_, rfl⟩
  have sizes := aligned.length
  revert sizes
  decide

/-- A function that jumps back to its start. -/
def jumpBack : List DecodedFunction :=
  [⟨"loop", 0x1000, 0x1008, [inst 0x1000 0 [.reg 10], inst 0x1004 2 [.imm (-4)]]⟩]

theorem jump_to_plt_iff :
    (∃ tr, finalize smallTarget jumpToPlt = .ok tr ∧
      ((∀ (k : Nat) (func : TranslatedFunction), tr.funcs[k]? = some func → Aligned smallTarget k func) ↔
        BranchesResolved smallTarget jumpToPlt)) ∧
    ∃ tr, finalize smallTarget jumpBack = .ok tr ∧
      ∀ (k : Nat) (func : TranslatedFunction), tr.funcs[k]? = some func → Aligned smallTarget k func := by
  obtain ⟨tr, done⟩ : ∃ tr, finalize smallTarget jumpBack = .ok tr := ⟨_, rfl⟩
  refine ⟨⟨_, rfl, tables_aligned_iff rfl⟩, tr, done, (tables_aligned_iff done).mpr ?_⟩
  have resolved : ∀ d ∈ jumpBack, ∀ t ∈ d.insts, (branchTarget smallTarget t).all (fun a =>
      jumpBack.any fun e => a ∈ blockStarts smallTarget e) = true := by
    decide
  intro d member t inside _ a target
  have here := resolved d member t inside
  rw [target, Option.all_some] at here
  obtain ⟨e, member', start⟩ := List.any_eq_true.mp here
  exact ⟨e, member', of_decide_eq_true start⟩

end Bleach.Mctomir
