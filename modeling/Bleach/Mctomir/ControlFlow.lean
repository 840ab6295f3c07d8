import Bleach.Mctomir.Transfers

/-! The recovered control-flow graph of code whose direct branches stay in their
functions: one machine block for each block, with the taken edge of its branch and
the edge to the next block. -/
namespace Bleach.Mctomir

/-- Code without indirect branches whose direct branches stay in their functions. -/
structure PlainCode (mia : MCInstrAnalysis) (disp : MCInst → Address) (funcs : List DecodedFunction) :
    Prop where
  evaluated : ∀ d ∈ funcs, ∀ t ∈ d.insts, ∀ a size target,
    mia.evaluateBranch t.inst a size = some target → target = a + disp t.inst ∧
      (mia.isBranch t.inst = true ∨ mia.isCall t.inst = true) ∧ mia.isReturn t.inst = false
  direct : ∀ d ∈ funcs, ∀ t ∈ d.insts, mia.isBranch t.inst = true →
    ∀ a size, (mia.evaluateBranch t.inst a size).isSome
  apart : ∀ d ∈ funcs, ∀ t ∈ d.insts, mia.isBranch t.inst = true → mia.isCall t.inst = false
  closed : ∀ d ∈ funcs, ∀ t ∈ d.insts, mia.isBranch t.inst = true →
    ∃ u ∈ d.insts, u.address = t.address + disp t.inst
  sorted : ∀ d ∈ funcs, d.insts.Pairwise fun t u => t.address < u.address
  inside : ∀ d ∈ funcs, ∀ t ∈ d.insts, d.start ≤ t.address ∧ t.address < d.end
  disjoint : funcs.Pairwise fun d e => d.end ≤ e.start ∨ e.end ≤ d.start

/-- The taken edge: the last instruction branches to the start of block `r` of function `k`. -/
def Taken (mia : MCInstrAnalysis) (disp : MCInst → Address) (k : FuncId) (func : TranslatedFunction)
    (block : TranslatedBlock) (r : BlockRef) : Prop :=
  ∃ last target, block.instrs.getLast? = some last ∧ mia.isBranch last.inst = true ∧
    r.func = k ∧ func.blocks[r.idx]? = some target ∧
      target.startAddress = last.address + disp last.inst

/-- The edge to the next block, unless the last instruction never falls through. -/
def Next (mia : MCInstrAnalysis) (k : FuncId) (func : TranslatedFunction) (i : Nat)
    (block : TranslatedBlock) (r : BlockRef) : Prop :=
  i + 1 < func.blocks.length ∧ r = ⟨k, i + 1⟩ ∧ ∀ last, block.instrs.getLast? = some last →
    ¬(mia.isBranch last.inst = true ∧ mia.isUnconditionalBranch last.inst = true) ∧
      mia.isReturn last.inst = false

structure ExactGraph (mia : MCInstrAnalysis) (disp : MCInst → Address) (k : FuncId)
    (func : TranslatedFunction) : Prop where
  instrs : func.blocks.flatMap TranslatedBlock.instrs = func.insts
  ordered : (func.blocks.map TranslatedBlock.startAddress).Pairwise (· < ·)
  length : func.mfunc.length = func.blocks.length
  placed : ∀ (i : Nat) (block : TranslatedBlock), func.blocks[i]? = some block →
    block.mbb = some ⟨k, i⟩
  nodup : ∀ built ∈ func.mfunc, built.successors.Nodup
  edges : ∀ (i : Nat) (block : TranslatedBlock) (built : BuiltBlock),
    func.blocks[i]? = some block → func.mfunc[i]? = some built → ∀ r,
      r ∈ built.successors ↔ Taken mia disp k func block r ∨ Next mia k func i block r

variable {mia : MCInstrAnalysis} {disp : MCInst → Address} {funcs : List DecodedFunction} {k : FuncId}
  {d : DecodedFunction} {t : TranslatedInst}

namespace PlainCode

theorem same_function (code : PlainCode mia disp funcs) {k' : FuncId} {d' : DecodedFunction} {a : Address}
    (found : funcs[k]? = some d) (found' : funcs[k']? = some d') (within : d.start ≤ a ∧ a < d.end)
    (within' : d'.start ≤ a ∧ a < d'.end) : k' = k := by
  obtain ⟨bound, here⟩ := List.getElem?_eq_some_iff.mp found
  obtain ⟨bound', here'⟩ := List.getElem?_eq_some_iff.mp found'
  have apart := List.pairwise_iff_getElem.mp code.disjoint
  rcases Nat.lt_trichotomy k k' with before | same | behind
  · have ranges := apart k k' bound bound' before
    rw [here, here'] at ranges
    rcases ranges with left | right <;> bv_omega
  · exact same.symm
  · have ranges := apart k' k bound' bound behind
    rw [here, here'] at ranges
    rcases ranges with left | right <;> bv_omega

theorem start_inside (code : PlainCode mia disp funcs) (member : d ∈ funcs) {a : Address}
    (start : a ∈ blockStarts mia d) : d.start ≤ a ∧ a < d.end := by
  obtain ⟨t, inside, rfl⟩ := List.mem_map.mp start
  exact code.inside d member t (List.mem_filter.mp inside).1

/-- Every block is the owner of its start. -/
theorem owner_start (code : PlainCode mia disp funcs) (found : funcs[k]? = some d) {j : Nat} {a : Address}
    (start : (blockStarts mia d)[j]? = some a) : owner mia funcs a = some ⟨k, j⟩ := by
  have member := List.mem_of_getElem? found
  apply owner_of_unique found start
  intro r d' found' start'
  have within := code.start_inside member (List.mem_of_getElem? start)
  have within' := code.start_inside (List.mem_of_getElem? found') (List.mem_of_getElem? start')
  have same := code.same_function found found' within within'
  rw [same] at found'
  obtain rfl : d' = d := Option.some.inj (found'.symm.trans found)
  have index : r.idx = j :=
    (List.getElem?_inj (List.getElem?_eq_some_iff.mp start').1 (blockStarts_nodup (code.sorted _ member))).mp
      (start'.trans start.symm)
  rw [← same, ← index]

theorem branchTarget_eq (code : PlainCode mia disp funcs) (member : d ∈ funcs) (inside : t ∈ d.insts)
    (branch : mia.isBranch t.inst = true) : branchTarget mia t = some (t.address + disp t.inst) := by
  obtain ⟨target, found⟩ := Option.isSome_iff_exists.mp (code.direct d member t inside branch t.address 0)
  rw [branchTarget, found, (code.evaluated d member t inside _ _ _ found).1]

theorem operandTarget_eq (code : PlainCode mia disp funcs) (member : d ∈ funcs) (inside : t ∈ d.insts)
    {a : Address} (target : operandTarget mia t = some a) : a = t.address + disp t.inst := by
  obtain ⟨offset, found, rfl⟩ := Option.map_eq_some_iff.mp target
  rw [(code.evaluated d member t inside _ _ _ found).1]
  bv_omega

/-- A branch goes to the start of a block of its function. -/
theorem branch_start (code : PlainCode mia disp funcs) (member : d ∈ funcs) (inside : t ∈ d.insts)
    (branch : mia.isBranch t.inst = true) :
    ∃ j : Nat, (blockStarts mia d)[j]? = some (t.address + disp t.inst) := by
  obtain ⟨u, at_u, address⟩ := code.closed d member t inside branch
  have leader := mem_leaders_target inside branch (code.branchTarget_eq member inside branch)
  apply List.mem_iff_getElem?.mp
  rw [← address] at leader ⊢
  exact List.mem_map_of_mem (List.mem_filter.mpr ⟨at_u, by simpa using leader⟩)

theorem branch_owner (code : PlainCode mia disp funcs) (found : funcs[k]? = some d) (inside : t ∈ d.insts)
    (branch : mia.isBranch t.inst = true) :
    ∃ j : Nat, (blockStarts mia d)[j]? = some (t.address + disp t.inst) ∧
      owner mia funcs (t.address + disp t.inst) = some ⟨k, j⟩ := by
  obtain ⟨j, start⟩ := code.branch_start (List.mem_of_getElem? found) inside branch
  exact ⟨j, start, code.owner_start found start⟩

/-- No branch is left without a block. -/
theorem created_nil (code : PlainCode mia disp funcs) (found : funcs[k]? = some d) :
    created mia funcs k d = [] := by
  have member := List.mem_of_getElem? found
  apply EntryList.fresh_eq_nil.mpr
  intro a target
  obtain ⟨t, inside, branch, at_a⟩ := mem_linkTargets.mp target
  obtain ⟨j, -, owned⟩ := code.branch_owner found inside branch
  rw [code.branchTarget_eq member inside branch] at at_a
  cases at_a
  rw [owned]
  rfl

/-- A branch is given its block as operand, every other instruction none. -/
theorem transfer_block (code : PlainCode mia disp funcs) (found : funcs[k]? = some d)
    (inside : t ∈ d.insts) {i : Nat} {r : BlockRef} :
    (transfer mia (blockMap mia funcs) ⟨k, i⟩ t).bind Operand.block? = some r ↔
      mia.isBranch t.inst = true ∧ r.func = k ∧
        (blockStarts mia d)[r.idx]? = some (t.address + disp t.inst) := by
  have member := List.mem_of_getElem? found
  have block : (transfer mia (blockMap mia funcs) ⟨k, i⟩ t).bind Operand.block? = some r ↔
      transfer mia (blockMap mia funcs) ⟨k, i⟩ t = some (.mbb r) := by
    cases transfer mia (blockMap mia funcs) ⟨k, i⟩ t with
    | none => simp
    | some op => cases op <;> simp [Operand.block?]
  rw [block, transfer_mbb]
  constructor
  · rintro ⟨a, target, owned, call⟩
    obtain rfl := code.operandTarget_eq member inside target
    obtain ⟨offset, evaluated, -⟩ := Option.map_eq_some_iff.mp target
    have kind := (code.evaluated d member t inside _ _ _ evaluated).2.1
    have branch : mia.isBranch t.inst = true := by
      rcases kind with branch | called
      · exact branch
      · simp [isCall, called] at call
    obtain ⟨j, start, owned'⟩ := code.branch_owner found inside branch
    obtain rfl : r = ⟨k, j⟩ := Option.some.inj (owned.symm.trans owned')
    exact ⟨branch, rfl, start⟩
  · rintro ⟨branch, rfl, start⟩
    obtain ⟨offset, evaluated⟩ := Option.isSome_iff_exists.mp (code.direct d member t inside branch 0 4)
    have target : operandTarget mia t = some (offset + t.address) := by rw [operandTarget, evaluated]; rfl
    have at_a := code.operandTarget_eq member inside target
    refine ⟨_, target, ?_, ?_⟩
    · rw [at_a]
      exact code.owner_start found start
    · simp [isCall, isTailCall, code.apart d member t inside branch]

/-- What the last instruction of a block gives it, and what the others do not. -/
theorem built_successors (code : PlainCode mia disp funcs) {func : TranslatedFunction}
    (found : funcs[k]? = some d) (result : Finalized mia funcs k d func) {i : Nat}
    {block : TranslatedBlock} (member : block ∈ func.blocks) {last : TranslatedInst}
    (ends : block.instrs.getLast? = some last) {built : BuiltBlock}
    (run : translateInsts mia (blockMap mia funcs) ⟨k, i⟩ block.instrs emptyBlock = .ok built) :
    built.successors = ((transfer mia (blockMap mia funcs) ⟨k, i⟩ last).bind Operand.block?).toList := by
  obtain ⟨before, shape⟩ := List.getLast?_eq_some_iff.mp ends
  have straight : before.filterMap
      (fun t => (transfer mia (blockMap mia funcs) ⟨k, i⟩ t).bind Operand.block?) = [] := by
    rw [List.filterMap_eq_nil_iff]
    intro t inside
    have at_t : t ∈ block.instrs := by simp [shape, inside]
    have in_d : t ∈ d.insts := result.split.mem_iff.mpr ⟨block, member, at_t⟩
    rw [Option.eq_none_iff_forall_not_mem]
    intro r target
    have branch := ((code.transfer_block found in_d).mp target).1
    obtain ⟨pre, post, rfl⟩ := List.append_of_mem inside
    have nothing := @Split.ends _ _ _ result.split _ member pre (post ++ [last]) t
      (by simp [shape]) (.inl branch)
    simp at nothing
  rw [translated_successors run, shape, List.filterMap_append, straight]
  cases target : (transfer mia (blockMap mia funcs) ⟨k, i⟩ last).bind Operand.block? <;>
    simp only [List.nil_append, List.filterMap_cons, List.filterMap_nil, target] <;> rfl

/-- Code without indirect branches returns from no branch. -/
theorem fallsThrough_iff (code : PlainCode mia disp funcs) (member : d ∈ funcs) (inside : t ∈ d.insts) :
    fallsThrough mia t = true ↔
      ¬(mia.isBranch t.inst = true ∧ mia.isUnconditionalBranch t.inst = true) ∧
        mia.isReturn t.inst = false := by
  unfold fallsThrough
  by_cases branch : mia.isBranch t.inst = true
  · obtain ⟨target, evaluated⟩ := Option.isSome_iff_exists.mp (code.direct d member t inside branch 0 0)
    have returns := (code.evaluated d member t inside _ _ _ evaluated).2.2
    simp [branch, returns]
  · simp [branch]

end PlainCode

theorem mem_fallthroughEdge {next : Option BlockRef} {block : TranslatedBlock}
    {successors : List BlockRef} {last : TranslatedInst} {r : BlockRef}
    (ends : block.instrs.getLast? = some last) :
    r ∈ fallthroughEdge mia next block successors ↔ fallsThrough mia last = true ∧ next = some r ∧
      ¬(mia.isBranch last.inst = true ∧ r ∈ successors) := by
  simp only [fallthroughEdge, ends]
  by_cases falls : fallsThrough mia last = true
  · rw [if_pos falls, List.mem_filter, Option.mem_toList]
    cases mia.isBranch last.inst <;> simp [falls]
  · simp [falls]

theorem fallthroughEdge_nodup (next : Option BlockRef) (block : TranslatedBlock)
    (successors : List BlockRef) : (fallthroughEdge mia next block successors).Nodup := by
  unfold fallthroughEdge
  split
  · split
    · exact List.Nodup.filter _ (by cases next <;> simp)
    · exact List.nodup_nil
  · exact List.nodup_nil

/-- The edges of one block: its taken edge, then the fallthrough edge if it is another one. -/
theorem Finalized.block_edges {func : TranslatedFunction} (code : PlainCode mia disp funcs)
    (found : funcs[k]? = some d) (result : Finalized mia funcs k d func) {i : Nat}
    {block : TranslatedBlock} {built : BuiltBlock} (at_block : func.blocks[i]? = some block)
    (at_built : func.mfunc[i]? = some built) :
    built.successors.Nodup ∧ ∀ r, r ∈ built.successors ↔
      Taken mia disp k func block r ∨ Next mia k func i block r := by
  have member := List.mem_of_getElem? at_block
  obtain ⟨made, run, same⟩ := result.built i block at_block
  obtain rfl := Option.some.inj (at_built.symm.trans same)
  obtain ⟨last, ends⟩ : ∃ last, block.instrs.getLast? = some last :=
    ⟨_, List.getLast?_eq_some_getLast (result.split.nonempty member)⟩
  have in_d : last ∈ d.insts := result.split.mem_iff.mpr ⟨block, member, List.mem_of_getLast? ends⟩
  have successors := code.built_successors found result member ends run
  have starts : ∀ (j : Nat) (a : Address), (blockStarts mia d)[j]? = some a ↔
      ∃ target, func.blocks[j]? = some target ∧ target.startAddress = a := by
    intro j a
    rw [blockStarts, ← result.split.starts, List.getElem?_map, Option.map_eq_some_iff]
  have taken : ∀ r, r ∈ made.successors ↔ Taken mia disp k func block r := by
    intro r
    rw [successors, Option.mem_toList, code.transfer_block found in_d, starts]
    constructor
    · rintro ⟨branch, here, target, at_target, start⟩
      exact ⟨last, target, ends, branch, here, at_target, start⟩
    · rintro ⟨last', target, ends', branch, here, at_target, start⟩
      obtain rfl := Option.some.inj (ends.symm.trans ends')
      exact ⟨branch, here, target, at_target, start⟩
  have branch_of_mem : ∀ r ∈ made.successors, mia.isBranch last.inst = true := by
    intro r inside
    obtain ⟨last', _, ends', branch, _⟩ := (taken r).mp inside
    obtain rfl := Option.some.inj (ends.symm.trans ends')
    exact branch
  have next : ∀ r, Next mia k func i block r ↔
      fallsThrough mia last = true ∧ nextRef k func.blocks.length i = some r := by
    intro r
    rw [nextRef_eq_some, code.fallsThrough_iff (List.mem_of_getElem? found) in_d]
    constructor
    · rintro ⟨bound, here, falls⟩
      exact ⟨falls last ends, bound, here⟩
    · rintro ⟨falls, bound, here⟩
      refine ⟨bound, here, fun last' ends' => ?_⟩
      obtain rfl := Option.some.inj (ends.symm.trans ends')
      exact falls
  constructor
  · refine List.nodup_append'.mpr ⟨?_, fallthroughEdge_nodup _ _ _, ?_⟩
    · rw [successors]
      cases (transfer mia (blockMap mia funcs) ⟨k, i⟩ last).bind Operand.block? <;> simp
    · intro r first second
      exact ((mem_fallthroughEdge ends).mp second).2.2 ⟨branch_of_mem r first, first⟩
  · intro r
    rw [withEdges, List.mem_append, mem_fallthroughEdge ends, ← taken, next]
    constructor
    · rintro (first | ⟨falls, here, -⟩)
      · exact .inl first
      · exact .inr ⟨falls, here⟩
    · rintro (first | ⟨falls, here⟩)
      · exact .inl first
      · by_cases present : r ∈ made.successors
        · exact .inl present
        · exact .inr ⟨falls, here, fun both => present both.2⟩

theorem control_flow_exact {tr : Translation} (code : PlainCode mia disp funcs)
    (done : finalize mia funcs = .ok tr) :
    tr.funcs.length = funcs.length ∧ ∀ (k : Nat) (d : DecodedFunction), funcs[k]? = some d →
      ∃ func, tr.funcs[k]? = some func ∧ func.toDecodedFunction = d ∧ ExactGraph mia disp k func := by
  obtain ⟨length, all⟩ := finalize_ok done
  refine ⟨length, fun k d found => ?_⟩
  obtain ⟨func, at_k, result⟩ := all k d found
  have blocks : func.mfunc.length = func.blocks.length := by
    rw [result.length, code.created_nil found, List.length_nil, Nat.add_zero]
  have same : func.insts = d.insts := by rw [result.decoded]
  refine ⟨func, at_k, result.decoded, result.split.instrs.trans same.symm, ?_, blocks, ?_, ?_, ?_⟩
  · exact result.split.starts_sorted (code.sorted d (List.mem_of_getElem? found))
  · intro i block at_i
    simpa using result.placed i block at_i
  · intro built inside
    obtain ⟨i, bound, rfl⟩ := List.mem_iff_getElem.mp inside
    exact (result.block_edges code found (List.getElem?_eq_getElem (blocks ▸ bound))
      (List.getElem?_eq_getElem bound)).1
  · intro i block built at_block at_built
    exact (result.block_edges code found at_block at_built).2

/-- A loop with an early exit that calls a leaf function. -/
def loopAndLeaf : List DecodedFunction :=
  [⟨"loop", 0x1000, 0x1010, [inst 0x1000 1 [.reg 10, .imm 12], inst 0x1004 3 [.imm 12],
      inst 0x1008 1 [.reg 11, .imm (-8)], inst 0x100c 4 []]⟩,
    ⟨"leaf", 0x1010, 0x1018, [inst 0x1010 0 [.reg 10], inst 0x1014 4 []]⟩]

theorem loopAndLeaf_plain : PlainCode smallTarget smallDisplacement loopAndLeaf where
  evaluated _ _ _ _ _ _ _ evaluated := smallTarget_evaluated evaluated
  direct _ _ _ _ branch := smallTarget_direct branch
  apart := by decide
  closed := by decide
  sorted := by decide
  inside := by decide
  disjoint := by decide

theorem control_flow_exact_loop : ∃ tr, finalize smallTarget loopAndLeaf = .ok tr ∧
    tr.funcs.length = 2 ∧ ∀ (k : Nat) (d : DecodedFunction), loopAndLeaf[k]? = some d →
      ∃ func, tr.funcs[k]? = some func ∧ func.toDecodedFunction = d ∧
        ExactGraph smallTarget smallDisplacement k func := by
  obtain ⟨tr, done⟩ : ∃ tr, finalize smallTarget loopAndLeaf = .ok tr := ⟨_, rfl⟩
  exact ⟨tr, done, control_flow_exact loopAndLeaf_plain done⟩

end Bleach.Mctomir
