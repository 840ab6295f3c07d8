import Bleach.Mctomir.Blocks

/-! The blocks of a function partition its instructions, and begin wherever control can
enter it. -/
namespace Bleach.Mctomir

/-- Control can come to the instruction other than from the one in front of it. -/
def Entered (mia : MCInstrAnalysis) (insts : List TranslatedInst) (u : TranslatedInst) : Prop :=
  (∃ t ∈ insts, mia.isBranch t.inst = true ∧ branchTarget mia t = some u.address) ∨
    ∃ before t after, insts = before ++ t :: u :: after ∧ EndsBlock mia t

structure Partition (mia : MCInstrAnalysis) (insts : List TranslatedInst)
    (blocks : List TranslatedBlock) : Prop where
  whole : blocks.flatMap TranslatedBlock.instrs = insts
  headed : ∀ block ∈ blocks, ∃ first rest,
    block.instrs = first :: rest ∧ block.startAddress = first.address
  straight : ∀ block ∈ blocks, ∀ before t after,
    block.instrs = before ++ t :: after → EndsBlock mia t → after = []
  entered : ∀ u ∈ insts, Entered mia insts u →
    ∃ block ∈ blocks, block.startAddress = u.address ∧ block.instrs.head? = some u

variable {mia : MCInstrAnalysis} {insts : List TranslatedInst} {blocks : List TranslatedBlock}

theorem Entered.leader {u : TranslatedInst} (entered : Entered mia insts u) :
    u.address ∈ leaders mia insts := by
  rcases entered with ⟨t, inside, branch, target⟩ | ⟨before, t, after, rfl, ends⟩
  · exact mem_leaders_target inside branch target
  · exact mem_leaders_behind ends

/-- An instruction at a leader is the first of its block. -/
theorem Split.starts_at {leaders : List Address} (split : Split leaders insts blocks)
    {u : TranslatedInst} (inside : u ∈ insts) (leader : u.address ∈ leaders) :
    ∃ block ∈ blocks, block.startAddress = u.address ∧ block.instrs.head? = some u := by
  obtain ⟨block, member, here⟩ := split.mem_iff.mp inside
  obtain ⟨first, rest, shape, start, _, others⟩ := split.headed block member
  rw [shape] at here
  rcases List.mem_cons.mp here with rfl | behind
  · exact ⟨block, member, start.symm, by simp [shape]⟩
  · exact absurd leader (others u behind)

theorem Split.partition (split : Split (leaders mia insts) insts blocks) :
    Partition mia insts blocks := by
  constructor
  · exact split.instrs
  · intro block member
    obtain ⟨first, rest, shape, start, _⟩ := split.headed block member
    exact ⟨first, rest, shape, start.symm⟩
  · intro block member before t after here ends
    exact split.ends member here ends
  · intro u inside entered
    exact split.starts_at inside entered.leader

/-- The pass succeeds on every list of functions, in whatever order the addresses of
their instructions are. -/
theorem blocks_partition (mia : MCInstrAnalysis) (funcs : List DecodedFunction) :
    ∃ results, identifyBasicBlocks mia funcs = .ok results ∧
      results.map TranslatedFunction.toDecodedFunction = funcs ∧
        ∀ func ∈ results, Partition mia func.insts func.blocks := by
  induction funcs with
  | nil => exact ⟨[], rfl, rfl, by simp⟩
  | cons d funcs ih =>
    obtain ⟨results, run, decoded, partitions⟩ := ih
    obtain ⟨blocks, cut, split⟩ := identifyBlocks_split mia d.insts
    refine ⟨{ d with blocks := blocks } :: results, ?_, by simp [decoded], ?_⟩
    · rw [identifyBasicBlocks] at run ⊢
      rw [List.mapM_cons, cut, run]
      rfl
    · intro func member
      rcases List.mem_cons.mp member with rfl | member
      · exact split.partition
      · exact partitions func member

end Bleach.Mctomir
