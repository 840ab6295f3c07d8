import Bleach.Mctomir.Translation

/-! What `create_machine_instr` makes of a direct transfer: the operand it adds and
the successor it gives the block. All other operands come from the decoded
instruction and name neither blocks nor functions. -/
namespace Bleach.Mctomir
variable (mia : MCInstrAnalysis)

/-- The function or block operand of the built instruction. -/
def transfer (map : AddressMap) (current : BlockRef) (t : TranslatedInst) : Option Operand :=
  (operandTarget mia t).bind fun target => (map.lookup target).map fun found =>
    if isCall mia t.inst current found then .global found.func else .mbb found

def Operand.block? : Operand → Option BlockRef
  | .mbb r => some r
  | _ => none

/-- Operands that refer to neither a block nor a function. -/
def Operand.isPlain : Operand → Bool
  | .reg .. => true
  | .imm _ => true
  | _ => false

variable {mia} {map : AddressMap} {current : BlockRef} {t : TranslatedInst}

theorem addOperandToMib_plain {desc : MCInstrDesc} {op : MCOperand} {idx : Nat} {operand : Operand}
    (made : addOperandToMib desc op idx = .ok operand) : operand.isPlain = true := by
  cases op with
  | reg r =>
    simp only [addOperandToMib] at made
    split at made
    · cases made
      rfl
    · cases made
      rfl
  | imm v =>
    cases made
    rfl
  | other => cases made

theorem fillOperands_plain {desc : MCInstrDesc} {isBranch : Bool} {ops : List MCOperand} {idx : Nat}
    {operands : List Operand} (made : fillOperands desc isBranch ops idx = .ok operands) :
    ∀ op ∈ operands, op.isPlain = true := by
  induction ops generalizing idx operands with
  | nil =>
    cases made
    simp
  | cons op rest ih =>
    unfold fillOperands at made
    split at made
    · cases made
      simp
    · obtain ⟨operand, first, made⟩ := bind_ok.mp made
      obtain ⟨later, tail, made⟩ := bind_ok.mp made
      cases made
      intro op member
      rcases List.mem_cons.mp member with rfl | member
      · exact addOperandToMib_plain first
      · exact ih tail op member

/-- The built instruction ends in its transfer operand, if it has one, and a block
operand is a successor. -/
theorem createMachineInstr_ok {instr : BuiltInstr} {successor : Option BlockRef}
    (made : createMachineInstr mia map current t = .ok (instr, successor)) :
    successor = (transfer mia map current t).bind Operand.block? ∧
      ∃ operands, instr.operands = operands ++ (transfer mia map current t).toList ∧
        ∀ op ∈ operands, op.isPlain = true := by
  unfold createMachineInstr at made
  unfold transfer
  cases target : operandTarget mia t with
  | none =>
    simp only [target] at made
    obtain ⟨operands, filled, made⟩ := bind_ok.mp made
    cases made
    exact ⟨rfl, operands, by simp, fillOperands_plain filled⟩
  | some a =>
    simp only [target] at made
    split at made
    · cases found : map.lookup a with
      | none =>
        simp only [found] at made
        obtain ⟨operands, filled, made⟩ := bind_ok.mp made
        cases made
        exact ⟨by simp [found], operands, by simp [found], fillOperands_plain filled⟩
      | some r =>
        simp only [found] at made
        by_cases call : isCall mia t.inst current r = true
        · rw [if_pos call] at made
          split at made
          · cases made
            exact ⟨by simp [found, call, Operand.block?], [], by simp [found, call], by simp⟩
          · obtain ⟨operands, filled, made⟩ := bind_ok.mp made
            cases made
            exact ⟨by simp [found, call, Operand.block?], operands, by simp [found, call],
              fillOperands_plain filled⟩
        · rw [if_neg call] at made
          obtain ⟨operands, filled, made⟩ := bind_ok.mp made
          cases made
          exact ⟨by simp [found, call, Operand.block?], operands, by simp [found, call],
            fillOperands_plain filled⟩
    · cases made

/-- The references of a built instruction are those of its transfer. -/
theorem mem_operands {instr : BuiltInstr} {successor : Option BlockRef} {op : Operand}
    (made : createMachineInstr mia map current t = .ok (instr, successor))
    (reference : op.isPlain = false) :
    op ∈ instr.operands ↔ transfer mia map current t = some op := by
  obtain ⟨-, operands, shape, plain⟩ := createMachineInstr_ok made
  rw [shape, List.mem_append, Option.mem_toList]
  constructor
  · rintro (member | found)
    · rw [plain op member] at reference
      cases reference
    · exact found
  · exact .inr

theorem transfer_mbb {r : BlockRef} : transfer mia map current t = some (.mbb r) ↔
    ∃ a, operandTarget mia t = some a ∧ map.lookup a = some r ∧ isCall mia t.inst current r = false := by
  simp only [transfer, Option.bind_eq_some_iff, Option.map_eq_some_iff]
  constructor
  · rintro ⟨a, target, found, at_a, same⟩
    by_cases call : isCall mia t.inst current found = true
    · simp [call] at same
    · rw [if_neg call] at same
      cases same
      exact ⟨a, target, at_a, by simpa using call⟩
  · rintro ⟨a, target, at_a, call⟩
    exact ⟨a, target, r, at_a, by simp [call]⟩

theorem transfer_global {g : FuncId} : transfer mia map current t = some (.global g) ↔
    ∃ a r, operandTarget mia t = some a ∧ map.lookup a = some r ∧
      isCall mia t.inst current r = true ∧ r.func = g := by
  simp only [transfer, Option.bind_eq_some_iff, Option.map_eq_some_iff]
  constructor
  · rintro ⟨a, target, found, at_a, same⟩
    by_cases call : isCall mia t.inst current found = true
    · rw [if_pos call] at same
      cases same
      exact ⟨a, found, target, at_a, call, rfl⟩
    · simp [call] at same
  · rintro ⟨a, r, target, at_a, call, rfl⟩
    exact ⟨a, target, r, at_a, by simp [call]⟩

/-- A block is filled with one instruction for each decoded one, in order. -/
theorem translated_instrs {insts : List TranslatedInst} {built : BuiltBlock}
    (run : translateInsts mia map current insts emptyBlock = .ok built) :
    List.Forall₂ (fun t instr => ∃ successor,
      createMachineInstr mia map current t = .ok (instr, successor)) insts built.instrs := by
  obtain ⟨made, all, rfl⟩ := translateInsts_ok.mp run
  rw [emptyBlock, List.nil_append, List.forall₂_map_right_iff]
  exact all.imp fun t m here => ⟨m.2, here⟩

/-- The successors of a block before the fallthrough edges: its block operands. -/
theorem translated_successors {insts : List TranslatedInst} {built : BuiltBlock}
    (run : translateInsts mia map current insts emptyBlock = .ok built) :
    built.successors = insts.filterMap fun t => (transfer mia map current t).bind Operand.block? := by
  obtain ⟨made, all, rfl⟩ := translateInsts_ok.mp run
  clear run
  change made.filterMap Prod.snd = _
  induction all with
  | nil => rfl
  | cons here _ ih =>
    have successor := (createMachineInstr_ok here).1
    simp only [List.filterMap_cons, successor, ih]

variable {funcs : List DecodedFunction} {k : FuncId} {d : DecodedFunction} {func : TranslatedFunction}

theorem Finalized.instrs_built (result : Finalized mia funcs k d func) {i : Nat} {block : TranslatedBlock}
    {built : BuiltBlock} (at_block : func.blocks[i]? = some block) (at_built : func.mfunc[i]? = some built) :
    List.Forall₂ (fun t instr => ∃ successor,
      createMachineInstr mia (blockMap mia funcs) ⟨k, i⟩ t = .ok (instr, successor))
      block.instrs built.instrs := by
  obtain ⟨made, run, same⟩ := result.built i block at_block
  obtain rfl := Option.some.inj (at_built.symm.trans same)
  have all := translated_instrs run
  exact all

theorem Finalized.built_of_inst (result : Finalized mia funcs k d func) (inside : t ∈ d.insts) :
    ∃ (i : Nat) (built : BuiltBlock), func.mfunc[i]? = some built ∧ ∃ instr ∈ built.instrs,
      ∃ successor, createMachineInstr mia (blockMap mia funcs) ⟨k, i⟩ t = .ok (instr, successor) := by
  obtain ⟨block, member, at_t⟩ := result.split.mem_iff.mp inside
  obtain ⟨i, at_block⟩ := List.mem_iff_getElem?.mp member
  obtain ⟨made, run, at_built⟩ := result.built i block at_block
  exact ⟨i, _, at_built, forall₂_mem (result.instrs_built at_block at_built) at_t⟩

theorem Finalized.block_of_instr (result : Finalized mia funcs k d func) {i : Nat} {built : BuiltBlock}
    (at_built : func.mfunc[i]? = some built) (nonempty : built ≠ emptyBlock) :
    ∃ block, func.blocks[i]? = some block := by
  by_contra absent
  have behind : func.blocks.length ≤ i := by
    by_contra before
    exact absent ⟨_, List.getElem?_eq_getElem (Nat.lt_of_not_le before)⟩
  have empty := result.appended i behind (List.getElem?_eq_some_iff.mp at_built).1
  exact nonempty (Option.some.inj (at_built.symm.trans empty))

/-- An instruction of the result was built from a decoded one of the function. -/
theorem Finalized.inst_of_built (result : Finalized mia funcs k d func) {i : Nat} {built : BuiltBlock}
    (at_built : func.mfunc[i]? = some built) {instr : BuiltInstr} (member : instr ∈ built.instrs) :
    ∃ t ∈ d.insts, ∃ successor,
      createMachineInstr mia (blockMap mia funcs) ⟨k, i⟩ t = .ok (instr, successor) := by
  obtain ⟨block, at_block⟩ := result.block_of_instr at_built (by
    rintro rfl
    simp [emptyBlock] at member)
  obtain ⟨t, at_t, made⟩ := forall₂_mem (result.instrs_built at_block at_built).flip member
  exact ⟨t, result.split.mem_iff.mpr ⟨block, List.mem_of_getElem? at_block, at_t⟩, made⟩

/-- A successor is the block operand of an instruction, or the next block. -/
theorem Finalized.successor_cases (result : Finalized mia funcs k d func) {i : Nat} {built : BuiltBlock}
    (at_built : func.mfunc[i]? = some built) {r : BlockRef} (member : r ∈ built.successors) :
    (∃ t ∈ d.insts, transfer mia (blockMap mia funcs) ⟨k, i⟩ t = some (.mbb r)) ∨
      (r = ⟨k, i + 1⟩ ∧ i + 1 < func.blocks.length) := by
  obtain ⟨block, at_block⟩ := result.block_of_instr at_built (by
    rintro rfl
    simp [emptyBlock] at member)
  obtain ⟨made, run, same⟩ := result.built i block at_block
  obtain rfl := Option.some.inj (at_built.symm.trans same)
  rcases List.mem_append.mp member with taken | falls
  · left
    rw [translated_successors run, List.mem_filterMap] at taken
    obtain ⟨t, at_t, target⟩ := taken
    obtain ⟨op, here, block⟩ := Option.bind_eq_some_iff.mp target
    refine ⟨t, result.split.mem_iff.mpr ⟨_, List.mem_of_getElem? at_block, at_t⟩, ?_⟩
    cases op with
    | mbb r' =>
      cases block
      exact here
    | _ => cases block
  · right
    unfold fallthroughEdge at falls
    split at falls
    · split at falls
      · have next := Option.mem_toList.mp (List.mem_filter.mp falls).1
        obtain ⟨bound, same⟩ := nextRef_eq_some.mp next
        exact ⟨same, bound⟩
      · simp at falls
    · simp at falls

def lastImm (inst : MCInst) : Option Int :=
  match inst.operands.getLast? with
  | some (.imm v) => some v
  | _ => none

/-- A small instruction set: opcode 1 is a conditional branch, 2 a jump, 3 a call and 4 a
return; displacements count from the start of the instruction. -/
def smallTarget : MCInstrAnalysis where
  isBranch inst := inst.opcode == 1 || inst.opcode == 2
  isUnconditionalBranch inst := inst.opcode == 2
  isCall inst := inst.opcode == 3
  isReturn inst := inst.opcode == 4
  evaluateBranch inst addr _ :=
    if inst.opcode == 1 || inst.opcode == 2 || inst.opcode == 3 then
      some (addr + BitVec.ofInt 64 ((lastImm inst).getD 0))
    else none
  get _ := ⟨0, 1⟩

def smallDisplacement (inst : MCInst) : Address := BitVec.ofInt 64 ((lastImm inst).getD 0)

theorem smallTarget_evaluated {inst : MCInst} {a : Address} {size : BitVec 64} {target : Address}
    (evaluated : smallTarget.evaluateBranch inst a size = some target) :
    target = a + smallDisplacement inst ∧
      (smallTarget.isBranch inst = true ∨ smallTarget.isCall inst = true) ∧
        smallTarget.isReturn inst = false := by
  simp only [smallTarget] at evaluated ⊢
  split at evaluated
  · next direct =>
    cases evaluated
    refine ⟨rfl, by simpa using direct, ?_⟩
    simp only [Bool.or_eq_true, beq_iff_eq] at direct
    rw [beq_eq_false_iff_ne]
    omega
  · cases evaluated

theorem smallTarget_direct {inst : MCInst} (branch : smallTarget.isBranch inst = true) (a : Address)
    (size : BitVec 64) : (smallTarget.evaluateBranch inst a size).isSome := by
  simp only [smallTarget] at branch ⊢
  rw [branch]
  rfl

def inst (address : Nat) (opcode : Nat) (operands : List MCOperand) : TranslatedInst :=
  ⟨BitVec.ofNat 64 address, ⟨opcode, operands⟩⟩

end Bleach.Mctomir
