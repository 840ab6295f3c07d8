import Bleach.Mctomir.Transfers

/-! Which operands of a decoded instruction its machine instruction still has. The
displacement of a direct transfer is left out before it is known whether an operand
takes its place. -/
namespace Bleach.Mctomir

/-- The operand at position `idx` has the register and role, or the immediate, of the
decoded one. Kill flags are free. -/
def Represents (desc : MCInstrDesc) (idx : Nat) : MCOperand → Operand → Prop
  | .reg r, .reg r' isDef _ => r' = r ∧ (isDef = true ↔ idx < desc.numDefs)
  | .imm v, .imm v' => v' = v
  | _, _ => False

/-- The operands from position `idx` on, one for each decoded operand. -/
def RepresentsAll (desc : MCInstrDesc) : Nat → List MCOperand → List Operand → Prop
  | _, [], [] => True
  | idx, op :: ops, operand :: operands =>
    Represents desc idx op operand ∧ RepresentsAll desc (idx + 1) ops operands
  | _, _, _ => False

/-- The operand names a block of the same function, or the function that owns the block. -/
def Names (current target : BlockRef) : Operand → Prop
  | .mbb r => r = target ∧ target.func = current.func
  | .global f => f = target.func
  | _ => False

variable (mia : MCInstrAnalysis) (map : AddressMap) (current : BlockRef) (t : TranslatedInst)

/-- The block a direct transfer goes to, if there is one. -/
def resolved : Option BlockRef := (operandTarget mia t).bind fun a => map.lookup a

/-- Every operand is there; a resolved displacement is replaced by one operand that names
the target. -/
def OperandsKept (instr : BuiltInstr) : Prop :=
  let desc := mia.get t.inst.opcode
  match resolved mia map t with
  | none => RepresentsAll desc 0 t.inst.operands instr.operands
  | some target => t.inst.operands.getLast?.any MCOperand.isImm = true ∧ ∃ kept named,
      instr.operands = kept ++ [named] ∧ RepresentsAll desc 0 t.inst.operands.dropLast kept ∧
        Names current target named

/-- A direct transfer has its displacement last and finds its target; a tail call has no
other operand, and a branch that is not a call stays in the function. -/
def Replaceable : Prop :=
  ∀ a, operandTarget mia t = some a → t.inst.operands.getLast?.any MCOperand.isImm = true ∧
    ∃ target, map.lookup a = some target ∧
      if isCall mia t.inst current target then
        isTailCall mia t.inst current target = true → t.inst.operands.length = 1
      else target.func = current.func

variable {mia map current t}

theorem addOperandToMib_represents (desc : MCInstrDesc) (idx : Nat) {op : MCOperand}
    (known : op ≠ .other) :
    ∃ operand, addOperandToMib desc op idx = .ok operand ∧ Represents desc idx op operand := by
  cases op with
  | reg r =>
    by_cases before : idx < desc.numDefs
    · exact ⟨.reg r true false, by rw [addOperandToMib, if_pos before], rfl, by simp [before]⟩
    · exact ⟨.reg r false (idx + 1 = desc.numOperands), by rw [addOperandToMib, if_neg before],
        rfl, by simp [before]⟩
  | imm v => exact ⟨.imm v, rfl, rfl⟩
  | other => exact absurd rfl known

/-- Without a displacement every operand is added. -/
theorem fillOperands_all (desc : MCInstrDesc) {ops : List MCOperand} (known : ∀ op ∈ ops, op ≠ .other)
    (idx : Nat) : ∃ operands, fillOperands desc false ops idx = .ok operands ∧
      RepresentsAll desc idx ops operands := by
  induction ops generalizing idx with
  | nil => exact ⟨[], rfl, trivial⟩
  | cons op rest ih =>
    obtain ⟨operand, added, here⟩ := addOperandToMib_represents desc idx (known op List.mem_cons_self)
    obtain ⟨operands, filled, later⟩ := ih (fun op member => known op (List.mem_cons_of_mem _ member))
      (idx + 1)
    refine ⟨operand :: operands, ?_, here, later⟩
    rw [fillOperands]
    exact bind_ok.mpr ⟨operand, added, bind_ok.mpr ⟨operands, filled, rfl⟩⟩

/-- The displacement of a direct transfer is not. -/
theorem fillOperands_dropLast (desc : MCInstrDesc) {ops : List MCOperand}
    (known : ∀ op ∈ ops, op ≠ .other) (displaced : ops.getLast?.any MCOperand.isImm = true) (idx : Nat) :
    ∃ operands, fillOperands desc true ops idx = .ok operands ∧
      RepresentsAll desc idx ops.dropLast operands := by
  induction ops generalizing idx with
  | nil => exact ⟨[], rfl, trivial⟩
  | cons op rest ih =>
    cases rest with
    | nil =>
      have here : op.isImm = true := by simpa using displaced
      exact ⟨[], by simp [fillOperands, here], trivial⟩
    | cons next rest =>
      obtain ⟨operand, added, here⟩ := addOperandToMib_represents desc idx (known op List.mem_cons_self)
      obtain ⟨operands, filled, later⟩ := ih
        (fun op member => known op (List.mem_cons_of_mem _ member)) (by simpa using displaced) (idx + 1)
      refine ⟨operand :: operands, ?_, here, later⟩
      rw [fillOperands]
      exact bind_ok.mpr ⟨operand, added, bind_ok.mpr ⟨operands, filled, rfl⟩⟩

theorem RepresentsAll.length {desc : MCInstrDesc} {idx : Nat} {ops : List MCOperand}
    {operands : List Operand} (all : RepresentsAll desc idx ops operands) :
    operands.length = ops.length := by
  induction ops generalizing idx operands with
  | nil =>
    cases operands with
    | nil => rfl
    | cons _ _ => exact all.elim
  | cons op rest ih =>
    cases operands with
    | nil => exact all.elim
    | cons operand operands => simp [ih all.2]

theorem kept_of_indirect (known : ∀ op ∈ t.inst.operands, op ≠ .other)
    (sequential : operandTarget mia t = none) :
    ∃ instr successor, createMachineInstr mia map current t = .ok (instr, successor) ∧
      OperandsKept mia map current t instr := by
  obtain ⟨operands, filled, all⟩ := fillOperands_all (mia.get t.inst.opcode) known 0
  refine ⟨⟨.target t.inst.opcode, operands⟩, none, ?_, ?_⟩
  · simp only [createMachineInstr, sequential]
    exact bind_ok.mpr ⟨operands, filled, rfl⟩
  · simpa [OperandsKept, resolved, sequential] using all

theorem kept_of_resolved (known : ∀ op ∈ t.inst.operands, op ≠ .other) {a : Address}
    {target : BlockRef} (at_a : operandTarget mia t = some a)
    (displaced : t.inst.operands.getLast?.any MCOperand.isImm = true) (found : map.lookup a = some target)
    (whole : if isCall mia t.inst current target then
        isTailCall mia t.inst current target = true → t.inst.operands.length = 1
      else target.func = current.func) :
    ∃ instr successor, createMachineInstr mia map current t = .ok (instr, successor) ∧
      OperandsKept mia map current t instr := by
  obtain ⟨operands, filled, all⟩ := fillOperands_dropLast (mia.get t.inst.opcode) known displaced 0
  have here : resolved mia map t = some target := by simp [resolved, at_a, found]
  by_cases call : isCall mia t.inst current target = true
  · rw [if_pos call] at whole
    by_cases tail : isTailCall mia t.inst current target = true
    · refine ⟨⟨.gBr, [.global target.func]⟩, none, ?_, ?_⟩
      · simp [createMachineInstr, at_a, displaced, found, call, tail]
      · obtain ⟨op, single⟩ := List.length_eq_one_iff.mp (whole tail)
        simp only [OperandsKept, here]
        exact ⟨displaced, [], _, rfl, by simp [single, RepresentsAll], rfl⟩
    · refine ⟨⟨.target t.inst.opcode, operands ++ [.global target.func]⟩, none, ?_, ?_⟩
      · simp only [createMachineInstr, at_a, displaced, found, call, tail, if_true]
        exact bind_ok.mpr ⟨operands, filled, rfl⟩
      · simp only [OperandsKept, here]
        exact ⟨displaced, operands, _, rfl, all, rfl⟩
  · rw [if_neg call] at whole
    refine ⟨⟨.target t.inst.opcode, operands ++ [.mbb target]⟩, some target, ?_, ?_⟩
    · simp only [createMachineInstr, at_a, displaced, found, call, if_true]
      exact bind_ok.mpr ⟨operands, filled, rfl⟩
    · simp only [OperandsKept, here]
      exact ⟨displaced, operands, _, rfl, all, rfl, whole⟩

/-- A direct transfer that finds no block loses its displacement. -/
theorem lost_of_unresolved (known : ∀ op ∈ t.inst.operands, op ≠ .other) {a : Address}
    (at_a : operandTarget mia t = some a)
    (displaced : t.inst.operands.getLast?.any MCOperand.isImm = true) (missing : map.lookup a = none)
    {instr : BuiltInstr} {successor : Option BlockRef}
    (made : createMachineInstr mia map current t = .ok (instr, successor)) :
    ¬OperandsKept mia map current t instr := by
  obtain ⟨operands, filled, all⟩ := fillOperands_dropLast (mia.get t.inst.opcode) known displaced 0
  simp only [createMachineInstr, at_a, displaced, missing, if_true] at made
  obtain ⟨operands', filled', made⟩ := bind_ok.mp made
  obtain rfl := Except.ok.inj (filled.symm.trans filled')
  cases made
  intro kept
  have whole : RepresentsAll (mia.get t.inst.opcode) 0 t.inst.operands operands := by
    simpa [OperandsKept, resolved, at_a, missing] using kept
  have count := whole.length
  rw [all.length, List.length_dropLast] at count
  have nonempty : t.inst.operands ≠ [] := by
    intro empty
    simp [empty] at displaced
  have positive := List.length_pos_iff.mpr nonempty
  omega

theorem operands_kept_iff (known : ∀ op ∈ t.inst.operands, op ≠ .other) :
    (∃ instr successor, createMachineInstr mia map current t = .ok (instr, successor) ∧
        OperandsKept mia map current t instr) ↔ Replaceable mia map current t := by
  constructor
  · rintro ⟨instr, successor, made, kept⟩ a at_a
    have displaced : t.inst.operands.getLast?.any MCOperand.isImm = true := by
      by_contra other
      simp [createMachineInstr, at_a, other] at made
    refine ⟨displaced, ?_⟩
    cases found : map.lookup a with
    | none => exact absurd kept (lost_of_unresolved known at_a displaced found made)
    | some target =>
      refine ⟨target, rfl, ?_⟩
      have here : resolved mia map t = some target := by simp [resolved, at_a, found]
      simp only [OperandsKept, here] at kept
      obtain ⟨-, operands, named, shape, all, names⟩ := kept
      simp only [createMachineInstr, at_a, displaced, found, if_true] at made
      by_cases call : isCall mia t.inst current target = true
      · rw [if_pos call] at made ⊢
        intro tail
        rw [if_pos tail] at made
        cases made
        -- the only operand of the tail call is the function
        obtain ⟨rfl, -⟩ : operands = [] ∧ [named] = [.global target.func] := by
          cases operands with
          | nil => exact ⟨rfl, shape.symm⟩
          | cons op rest => simp at shape
        have count := all.length
        rw [List.length_dropLast] at count
        have nonempty : t.inst.operands ≠ [] := by
          intro empty
          simp [empty] at displaced
        have positive := List.length_pos_iff.mpr nonempty
        simp only [List.length_nil] at count
        omega
      · rw [if_neg call] at made ⊢
        obtain ⟨filled, -, made⟩ := bind_ok.mp made
        cases made
        obtain ⟨-, same⟩ := List.append_inj' shape rfl
        cases same
        exact names.2
  · intro replaceable
    cases at_a : operandTarget mia t with
    | none => exact kept_of_indirect known at_a
    | some a =>
      obtain ⟨displaced, target, found, whole⟩ := replaceable a at_a
      exact kept_of_resolved known at_a displaced found whole

/-- A jump whose target is no block: nothing is left of where it goes. -/
theorem unresolved_jump_loses_displacement :
    createMachineInstr smallTarget [] ⟨0, 0⟩ (inst 0x1000 2 [.reg 0, .imm 16]) =
        .ok (⟨.target 2, [.reg 0 false true]⟩, none) ∧
      ¬∃ instr successor, createMachineInstr smallTarget [] ⟨0, 0⟩ (inst 0x1000 2 [.reg 0, .imm 16]) =
          .ok (instr, successor) ∧
        OperandsKept smallTarget [] ⟨0, 0⟩ (inst 0x1000 2 [.reg 0, .imm 16]) instr := by
  refine ⟨rfl, ?_⟩
  rintro ⟨instr, successor, made, kept⟩
  cases made
  exact kept.2

/-- A jump to a block of the map keeps its operands. -/
theorem unresolved_jump_iff :
    ((∃ instr successor, createMachineInstr smallTarget [] ⟨0, 0⟩ (inst 0x1000 2 [.reg 0, .imm 16]) =
          .ok (instr, successor) ∧
        OperandsKept smallTarget [] ⟨0, 0⟩ (inst 0x1000 2 [.reg 0, .imm 16]) instr) ↔
      Replaceable smallTarget [] ⟨0, 0⟩ (inst 0x1000 2 [.reg 0, .imm 16])) ∧
    ∃ instr successor,
      createMachineInstr smallTarget [(0x1010, ⟨0, 1⟩)] ⟨0, 0⟩ (inst 0x1000 2 [.reg 0, .imm 16]) =
          .ok (instr, successor) ∧
        OperandsKept smallTarget [(0x1010, ⟨0, 1⟩)] ⟨0, 0⟩ (inst 0x1000 2 [.reg 0, .imm 16]) instr := by
  refine ⟨operands_kept_iff (by decide), (operands_kept_iff (by decide)).mpr ?_⟩
  rintro a ⟨⟩
  exact ⟨rfl, ⟨0, 1⟩, rfl, rfl⟩

end Bleach.Mctomir
