import Bleach.Mctomir.Translator
import Bleach.Base.Fallible

/-! The blocks `identify_basic_blocks` cuts a function into: together they are its
instructions, each starts at a leader and has no leader behind its first
instruction. -/
namespace Bleach.Mctomir
variable {mia : MCInstrAnalysis}

/-- Only the first instruction of the block is at a leader. -/
def Headed (leaders : List Address) (block : TranslatedBlock) : Prop :=
  ∃ first rest, block.instrs = first :: rest ∧ first.address = block.startAddress ∧
    first.address ∈ leaders ∧ ∀ t ∈ rest, t.address ∉ leaders

structure Split (leaders : List Address) (insts : List TranslatedInst)
    (blocks : List TranslatedBlock) : Prop where
  instrs : blocks.flatMap TranslatedBlock.instrs = insts
  headed : ∀ block ∈ blocks, Headed leaders block

variable {leaders : List Address} {insts : List TranslatedInst} {blocks : List TranslatedBlock}

theorem Headed.congr {block block' : TranslatedBlock} (headed : Headed leaders block)
    (starts : block'.startAddress = block.startAddress) (same : block'.instrs = block.instrs) :
    Headed leaders block' := by
  obtain ⟨first, rest, whole, start, member, others⟩ := headed
  exact ⟨first, rest, same.trans whole, start.trans starts.symm, member, others⟩

theorem Headed.push {block : TranslatedBlock} {t : TranslatedInst} (headed : Headed leaders block)
    (other : t.address ∉ leaders) :
    Headed leaders { block with instrs := block.instrs ++ [t] } := by
  obtain ⟨first, rest, whole, start, member, others⟩ := headed
  refine ⟨first, rest ++ [t], by simp [whole], start, member, ?_⟩
  intro u inside
  rcases List.mem_append.mp inside with inside | inside
  · exact others u inside
  · simpa [List.mem_singleton.mp inside] using other

theorem dropLast_append {blocks : List TranslatedBlock} {current : TranslatedBlock}
    (last : blocks.getLast? = some current) : blocks = blocks.dropLast ++ [current] :=
  (List.dropLast_append_getLast? current last).symm

/-- Only the end address of a block changes when it is closed. -/
theorem Split.close (split : Split leaders insts blocks) {current : TranslatedBlock}
    (last : blocks.getLast? = some current) (endAddress : Address) :
    Split leaders insts (blocks.dropLast ++ [{ current with endAddress := endAddress }]) := by
  have shape := dropLast_append last
  constructor
  · rw [← split.instrs]
    conv_rhs => rw [shape]
    simp
  · intro block member
    rcases List.mem_append.mp member with member | member
    · exact split.headed block (List.dropLast_subset _ member)
    · rw [List.mem_singleton.mp member]
      exact (split.headed current (List.mem_of_getLast? last)).congr rfl rfl

/-- A leader opens a block. -/
theorem Split.open (split : Split leaders insts blocks) {t : TranslatedInst}
    (leader : t.address ∈ leaders) :
    Split leaders (insts ++ [t]) (blocks ++ [{ startAddress := t.address, instrs := [t] }]) := by
  constructor
  · simp [split.instrs]
  · intro block member
    rcases List.mem_append.mp member with member | member
    · exact split.headed block member
    · rw [List.mem_singleton.mp member]
      exact ⟨t, [], rfl, rfl, leader, by simp⟩

/-- Any other instruction goes to the current block. -/
theorem Split.push (split : Split leaders insts blocks) {t : TranslatedInst}
    {current : TranslatedBlock} (last : blocks.getLast? = some current)
    (other : t.address ∉ leaders) :
    Split leaders (insts ++ [t])
      (blocks.dropLast ++ [{ current with instrs := current.instrs ++ [t] }]) := by
  have shape := dropLast_append last
  constructor
  · rw [← split.instrs]
    conv_rhs => rw [shape]
    simp
  · intro block member
    rcases List.mem_append.mp member with member | member
    · exact split.headed block (List.dropLast_subset _ member)
    · rw [List.mem_singleton.mp member]
      exact (split.headed current (List.mem_of_getLast? last)).push other

theorem Split.addInst (split : Split leaders insts blocks) {t : TranslatedInst}
    (opened : insts ≠ [] ∨ t.address ∈ leaders) :
    ∃ blocks', addInst leaders blocks t = .ok blocks' ∧ Split leaders (insts ++ [t]) blocks' := by
  by_cases leader : t.address ∈ leaders
  · cases last : blocks.getLast? with
    | none =>
      obtain rfl := List.getLast?_eq_none_iff.mp last
      exact ⟨_, by simp [Mctomir.addInst, leader], split.open leader⟩
    | some current =>
      refine ⟨_, ?_, (split.close last (t.address - 1)).open leader⟩
      simp [Mctomir.addInst, leader, last]
  · cases last : blocks.getLast? with
    | none =>
      obtain rfl := List.getLast?_eq_none_iff.mp last
      rcases opened with nonempty | here
      · exact absurd split.instrs.symm nonempty
      · exact absurd here leader
    | some current =>
      refine ⟨_, ?_, split.push last leader⟩
      simp [Mctomir.addInst, leader, last]

theorem Split.foldlM (split : Split leaders insts blocks) {rest : List TranslatedInst}
    (opened : insts ≠ [] ∨ ∀ t, rest.head? = some t → t.address ∈ leaders) :
    ∃ blocks', rest.foldlM (Mctomir.addInst leaders) blocks = .ok blocks' ∧
      Split leaders (insts ++ rest) blocks' := by
  induction rest generalizing insts blocks with
  | nil => exact ⟨blocks, rfl, by simpa using split⟩
  | cons t rest ih =>
    obtain ⟨blocks', done, split'⟩ := split.addInst (opened.imp_right fun here => here t rfl)
    obtain ⟨final, run, result⟩ := ih split' (.inl (by simp))
    refine ⟨final, ?_, by simpa using result⟩
    rw [List.foldlM_cons]
    exact bind_ok.mpr ⟨blocks', done, run⟩

theorem Split.closeLast (split : Split leaders insts blocks) (all : List TranslatedInst) :
    Split leaders insts (closeLast all blocks) := by
  unfold Mctomir.closeLast
  split
  · next last _ => exact split.close last _
  · exact split

/-- The first instruction is a leader, so the pass never fails. -/
theorem identifyBlocks_split (mia : MCInstrAnalysis) (insts : List TranslatedInst) :
    ∃ blocks, identifyBlocks mia insts = .ok blocks ∧
      Split (Mctomir.leaders mia insts) insts blocks := by
  have start : Split (Mctomir.leaders mia insts) [] [] := ⟨rfl, by simp⟩
  have first : ∀ t, insts.head? = some t → t.address ∈ Mctomir.leaders mia insts := by
    intro t here
    simp [Mctomir.leaders, here]
  obtain ⟨blocks, run, split⟩ := start.foldlM (.inr first)
  exact ⟨_, bind_ok.mpr ⟨blocks, run, rfl⟩, split.closeLast insts⟩

/-- The block starts are the leaders among the instruction addresses. -/
theorem Split.starts (split : Split leaders insts blocks) :
    blocks.map TranslatedBlock.startAddress =
      (insts.filter fun t => t.address ∈ leaders).map TranslatedInst.address := by
  obtain ⟨rfl, headed⟩ := split
  induction blocks with
  | nil => rfl
  | cons block blocks ih =>
    obtain ⟨first, rest, whole, start, leader, others⟩ := headed block List.mem_cons_self
    have without : rest.filter (fun t => t.address ∈ leaders) = [] := by
      simpa [List.filter_eq_nil_iff] using others
    rw [List.map_cons, ih fun b member => headed b (List.mem_cons_of_mem _ member),
      List.flatMap_cons, List.filter_append, List.map_append, whole,
      List.filter_cons_of_pos (by simpa using leader), without, ← start]
    rfl

theorem Split.starts_sorted (split : Split leaders insts blocks)
    (sorted : insts.Pairwise fun t u => t.address < u.address) :
    (blocks.map TranslatedBlock.startAddress).Pairwise (· < ·) := by
  rw [split.starts, List.pairwise_map]
  exact sorted.filter _

theorem Split.inside (split : Split leaders insts blocks) {block : TranslatedBlock}
    (member : block ∈ blocks) : ∃ before after, insts = before ++ block.instrs ++ after := by
  obtain ⟨pre, post, rfl⟩ := List.append_of_mem member
  refine ⟨pre.flatMap TranslatedBlock.instrs, post.flatMap TranslatedBlock.instrs, ?_⟩
  rw [← split.instrs, List.flatMap_append, List.flatMap_cons, List.append_assoc]

theorem Split.mem_iff (split : Split leaders insts blocks) {t : TranslatedInst} :
    t ∈ insts ↔ ∃ block ∈ blocks, t ∈ block.instrs := by
  rw [← split.instrs, List.mem_flatMap]

theorem Split.nonempty (split : Split leaders insts blocks) {block : TranslatedBlock}
    (member : block ∈ blocks) : block.instrs ≠ [] := by
  obtain ⟨first, rest, whole, _⟩ := split.headed block member
  simp [whole]

/-- A branch or a return: the instruction behind it is a leader. -/
def EndsBlock (mia : MCInstrAnalysis) (t : TranslatedInst) : Prop :=
  mia.isBranch t.inst = true ∨ mia.isReturn t.inst = true

theorem recordedLeaders_append (before rest : List TranslatedInst) :
    recordedLeaders mia rest ⊆ recordedLeaders mia (before ++ rest) := by
  induction before with
  | nil => exact List.Subset.refl _
  | cons t before ih =>
    rw [List.cons_append, recordedLeaders]
    exact List.Subset.trans ih (List.subset_append_right _ _)

theorem mem_leaders_behind {before after : List TranslatedInst} {t u : TranslatedInst}
    (ends : EndsBlock mia t) :
    u.address ∈ Mctomir.leaders mia (before ++ t :: u :: after) := by
  apply List.mem_append_right
  apply recordedLeaders_append before
  have control : (mia.isBranch t.inst || mia.isReturn t.inst) = true := by
    simpa [EndsBlock] using ends
  simp [recordedLeaders, control]

theorem mem_leaders_target {t : TranslatedInst} {target : Address} (inside : t ∈ insts)
    (branch : mia.isBranch t.inst = true) (found : branchTarget mia t = some target) :
    target ∈ Mctomir.leaders mia insts := by
  obtain ⟨before, after, rfl⟩ := List.append_of_mem inside
  apply List.mem_append_right
  apply recordedLeaders_append before
  simp [recordedLeaders, branch, found]

/-- A branch or a return is the last instruction of its block. -/
theorem Split.ends (split : Split (Mctomir.leaders mia insts) insts blocks)
    {block : TranslatedBlock} (member : block ∈ blocks) {before after : List TranslatedInst}
    {t : TranslatedInst} (here : block.instrs = before ++ t :: after) (ends : EndsBlock mia t) :
    after = [] := by
  cases after with
  | nil => rfl
  | cons u after =>
    obtain ⟨pre, post, whole⟩ := split.inside member
    obtain ⟨first, rest, shape, _, _, others⟩ := split.headed block member
    have leader : u.address ∈ Mctomir.leaders mia insts := by
      rw [whole, here]
      simpa using @mem_leaders_behind mia (pre ++ before) (after ++ post) t u ends
    have behind : u ∈ rest := by
      cases before with
      | nil =>
        have same : t :: u :: after = first :: rest := by simpa [here] using shape
        simp [← (List.cons.inj same).2]
      | cons b before =>
        have same : b :: (before ++ t :: u :: after) = first :: rest := by simpa [here] using shape
        simp [← (List.cons.inj same).2]
    exact absurd leader (others u behind)

end Bleach.Mctomir
