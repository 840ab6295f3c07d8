import Bleach.Lifter.Chunk

/-! The pass that cuts every block behind its first conditional branch, and where the
values of operands are loaded. -/
namespace Bleach
variable {W : Type} {cx : Context W} {s : Site} {minst : MachineInstr} {st st' : Builder}
  {addr : Option (BitVec 64)}

def Ptr.values : Ptr → List Value
  | .stack idx => [idx]
  | _ => []

namespace Inst

/-- The values an instruction uses. -/
def values : Inst → List Value
  | .load _ _ src => src.values
  | .store val dst => val :: dst.values
  | .sextOrTrunc _ val _ => [val]
  | .add _ lhs rhs => [lhs, rhs]
  | .callInstr _ _ args => args
  | .symtabLookup _ addr => [addr]
  | .callPtr callee => [.ssa callee]
  | .condBr cond _ _ => [cond]
  | _ => []

def isCondBr : Inst → Bool
  | .condBr .. => true
  | _ => false

end Inst

/-- What `redundant_branch_eraser` keeps of a block. -/
def keptCode : List Inst → List Inst
  | [] => []
  | i :: rest => if i.isCondBr then [i] else i :: keptCode rest

/-- What it erases. -/
def erasedCode : List Inst → List Inst
  | [] => []
  | i :: rest => if i.isCondBr then rest else erasedCode rest

def redundantBranchEraser (blocks : Label → List Inst) : Label → List Inst := fun l => keptCode (blocks l)

theorem kept_append_erased (code : List Inst) : keptCode code ++ erasedCode code = code := by
  induction code with
  | nil => rfl
  | cons i rest ih =>
    unfold keptCode erasedCode
    split_ifs
    · rfl
    · rw [List.cons_append, ih]

theorem kept_behind {before tail : List Inst} {i : Inst} (opened : ∀ j ∈ before, j.isCondBr = false)
    (branch : i.isCondBr = true) :
    keptCode (before ++ i :: tail) = before ++ [i] ∧ erasedCode (before ++ i :: tail) = tail := by
  induction before with
  | nil => simp [keptCode, erasedCode, branch]
  | cons j rest ih =>
    obtain ⟨here, later⟩ := List.forall_mem_cons.mp opened
    obtain ⟨kept, erased⟩ := ih later
    simp [keptCode, erasedCode, here, kept, erased]

theorem Inst.not_condBr {i : Inst} (plain : i.isPlain = true) : i.isCondBr = false := by
  cases i <;> simp_all [Inst.isPlain, Inst.isCondBr]

theorem Inst.not_terminator {i : Inst} (plain : i.isPlain = true) : i.isTerminator = false := by
  cases i <;> simp_all [Inst.isPlain, Inst.isTerminator]

/-- Every operand value in the code is defined in front of its use, or was before. -/
def LoadsPlaced (defined : List ValueId) : List Inst → Prop
  | [] => True
  | i :: rest => (∀ b j k, .ssa (.operand b j k) ∈ i.values → .operand b j k ∈ defined) ∧
      LoadsPlaced (i.dst?.toList ++ defined) rest

theorem LoadsPlaced.mono {defined more : List ValueId} {code : List Inst} (placed : LoadsPlaced defined code)
    (subset : ∀ id ∈ defined, id ∈ more) : LoadsPlaced more code := by
  induction code generalizing defined more with
  | nil => trivial
  | cons i rest ih =>
    obtain ⟨here, later⟩ := placed
    refine ⟨fun b j k used => subset _ (here b j k used), ih later ?_⟩
    intro id member
    rcases List.mem_append.mp member with own | old
    · exact List.mem_append_left _ own
    · exact List.mem_append_right _ (subset id old)

theorem LoadsPlaced.append {defined : List ValueId} {first second : List Inst}
    (placed : LoadsPlaced defined first)
    (later : LoadsPlaced (first.filterMap Inst.dst? ++ defined) second) :
    LoadsPlaced defined (first ++ second) := by
  induction first generalizing defined with
  | nil => exact later
  | cons i rest ih =>
    obtain ⟨here, others⟩ := placed
    refine ⟨here, ih others (later.mono ?_)⟩
    intro id member
    cases dst : i.dst? <;> simp_all
    grind

/-- Code that uses only operand values that are defined already. -/
theorem loadsPlaced_of_uses {defined : List ValueId} {code : List Inst}
    (uses : ∀ i ∈ code, ∀ b j k, .ssa (.operand b j k) ∈ i.values → .operand b j k ∈ defined) :
    LoadsPlaced defined code := by
  induction code generalizing defined with
  | nil => trivial
  | cons i rest ih =>
    obtain ⟨here, later⟩ := List.forall_mem_cons.mp uses
    refine ⟨here, ih ?_⟩
    intro j member b n k used
    exact List.mem_append_right _ (later j member b n k used)

/-- An operand value among the arguments is defined by one of the loads. -/
theorem operand_loaded {id : ValueId} {op : MachineOperand} {load : List Inst} {v : Value}
    (done : operandToValue cx id op = .ok (load, some v)) :
    (∃ c, v = .const c) ∨ v = .ssa id ∧ id ∈ load.filterMap Inst.dst? := by
  cases operandToValue_ok.mp done with
  | register => exact .inr ⟨rfl, by simp [Inst.dst?]⟩
  | constant | immediate => exact .inl ⟨_, rfl⟩

theorem operands_loaded {ops : List MachineOperand} {n : Nat} {loads : List Inst}
    {vals : List (Option Value)} (done : operandsToValues cx s ops n = .ok (loads, vals)) :
    ∀ v, some v ∈ vals → (∃ c, v = .const c) ∨ ∃ id, v = .ssa id ∧ id ∈ loads.filterMap Inst.dst? := by
  induction ops generalizing n loads vals with
  | nil =>
    cases done
    simp
  | cons op rest ih =>
    obtain ⟨⟨load, val⟩, first, done⟩ := bind_ok.mp done
    obtain ⟨⟨later, vals'⟩, others, done⟩ := bind_ok.mp done
    cases done
    intro v member
    rw [List.filterMap_append]
    rcases List.mem_cons.mp member with rfl | there
    · rcases operand_loaded first with const | ⟨here, loaded⟩
      · exact .inl const
      · exact .inr ⟨_, here, List.mem_append_left _ loaded⟩
    · rcases ih others v there with const | ⟨id, here, loaded⟩
      · exact .inl const
      · exact .inr ⟨id, here, List.mem_append_right _ loaded⟩

/-- The operand values among arguments. -/
theorem Operands.loaded {ops : List MachineOperand} {loads : List Inst} {args : List Value}
    (operands : Operands cx s ops loads args) {b j k : Nat} (used : .ssa (.operand b j k) ∈ args) :
    .operand b j k ∈ loads.filterMap Inst.dst? := by
  obtain ⟨vals, values, required⟩ := operands
  obtain rfl := required_values required
  rcases operands_loaded values _ (List.mem_map_of_mem used) with ⟨c, const⟩ | ⟨id, here, loaded⟩
  · cases const
  · cases here
    exact loaded

theorem placed_loads {ops : List MachineOperand} {n : Nat} {loads : List Inst} {vals : List (Option Value)}
    (done : operandsToValues cx s ops n = .ok (loads, vals)) : LoadsPlaced [] loads := by
  apply loadsPlaced_of_uses
  intro i member b j k used
  obtain ⟨_, -, _, _, _, _, -, -, -, rfl⟩ := operandsToValues_loads done i member
  simp [Inst.values, Ptr.values] at used

theorem writeDefs_uses {val : Value} {defs : List MachineOperand} {code : List Inst}
    (done : writeDefs cx val defs = .ok code) {b j k : Nat} (other : val ≠ .ssa (.operand b j k)) :
    ∀ i ∈ code, .ssa (.operand b j k) ∉ i.values := by
  intro i member
  obtain ⟨_, -, _, v, _, -, -, rfl | ⟨n, rfl⟩, rfl⟩ := writeDefs_stores done i member
  · simp [Inst.values, Ptr.values, Ne.symm other]
  · simp [Inst.values, Ptr.values]

theorem castArgs_uses {args : List Value} {tys : List Nat} {n b j k : Nat} :
    (∀ i ∈ (castArgs s args tys n).1, .ssa (.operand b j k) ∈ i.values → .ssa (.operand b j k) ∈ args) ∧
      .ssa (.operand b j k) ∉ (castArgs s args tys n).2 := by
  induction args generalizing tys n with
  | nil => simp [castArgs]
  | cons arg rest ih =>
    cases tys with
    | nil => simp [castArgs]
    | cons ty tys =>
      obtain ⟨casts, vals⟩ := @ih tys (n + 1)
      constructor
      · intro i member used
        rcases List.mem_cons.mp member with rfl | later
        · exact List.mem_cons.mpr (.inl (List.mem_singleton.mp used))
        · exact List.mem_cons_of_mem _ (casts i later used)
      · simp [castArgs, vals]

/-- Operand loads, then code that uses operand values only through the arguments. -/
theorem placed_operands {ops : List MachineOperand} {loads : List Inst} {args : List Value}
    {code : List Inst} (operands : Operands cx s ops loads args)
    (uses : ∀ i ∈ code, ∀ b j k, .ssa (.operand b j k) ∈ i.values → .ssa (.operand b j k) ∈ args) :
    LoadsPlaced [] (loads ++ code) := by
  obtain ⟨vals, values, -⟩ := id operands
  apply (placed_loads values).append
  apply loadsPlaced_of_uses
  intro i member b j k used
  exact List.mem_append_left _ (operands.loaded (uses i member b j k used))

theorem storeResult_uses {val : Value} {code : List Inst} (done : storeResult cx minst val = .ok code)
    {b j k : Nat} (other : val ≠ .ssa (.operand b j k)) : ∀ i ∈ code, .ssa (.operand b j k) ∉ i.values := by
  intro i member
  obtain ⟨_, -, _, _, -, -, rfl⟩ := storeResult_stores done i member
  simp [Inst.values, Ptr.values, Ne.symm other]

theorem pcArgument_const {pc : List Value} (done : pcArgument cx minst addr = .ok pc) {v : Value}
    (member : v ∈ pc) : ∃ c, v = .const c := by
  unfold pcArgument at done
  split at done
  · split at done
    · cases done
    · cases done
      exact ⟨_, List.mem_singleton.mp member⟩
  · cases done
    cases member

/-- Code of a straight-line instruction in the block of its operand loads. -/
theorem placed_straight (other : dispatch cx minst st.sptrack ∉ [.ret, .indirect, .jump, .branch, .call])
    (cur : st.cur = s.label) (done : generateInstruction cx s addr minst st = .ok st') :
    ∃ code, st'.blocks s.label = st.blocks s.label ++ code ∧ LoadsPlaced [] code := by
  rw [generateInstruction_eq] at done
  cases path : dispatch cx minst st.sptrack with
  | stackAccess =>
    obtain ⟨spReg, sp, rclass, write, -, -, -, written, ⟨-, -, f, -, rfl⟩ |
      ⟨-, op, a, o, load, value, -, operand, rfl⟩⟩ := generateLoadStoreFromStack_ok (path ▸ done)
    · refine ⟨stackIndexCode s sp rclass minst ++
        .load (.result s.block s.idx) f.ret (.stack (.ssa (.index s.block s.idx))) :: write,
        by simp [cur], loadsPlaced_of_uses ?_⟩
      intro i member b j k used
      have writes := storeResult_uses written (b := b) (j := j) (k := k) (by simp) i
      simp [stackIndexCode] at member
      rcases member with rfl | rfl | rfl | member
      · simp [Inst.values, Ptr.values] at used
      · simp [Inst.values] at used
      · simp [Inst.values, Ptr.values] at used
      · exact absurd used (writes member)
    · refine ⟨stackIndexCode s sp rclass minst ++ (load ++
        .store value (.stack (.ssa (.index s.block s.idx))) :: write), by simp [cur], ?_⟩
      have single : Operands cx s [op] load [value] :=
        ⟨[some value], by simp [operandsToValues, operand, bind, Except.bind], rfl⟩
      have index : LoadsPlaced [] (stackIndexCode s sp rclass minst) :=
        ⟨by simp [Inst.values, Ptr.values], by simp [Inst.values], trivial⟩
      apply index.append
      refine (placed_operands single ?_).mono (by simp)
      intro i member b j k used
      have writes := storeResult_uses written (b := b) (j := j) (k := k) (by simp) i
      rcases List.mem_cons.mp member with rfl | member
      · simpa [Inst.values, Ptr.values] using used
      · exact absurd used (writes member)
  | stackPointerModification =>
    obtain ⟨_, -, done⟩ := bind_ok.mp (path ▸ done)
    obtain ⟨_, -, done⟩ := bind_ok.mp done
    obtain ⟨imm, loads, args, writes, -, operands, written, rfl⟩ :=
      generateStackPointerModification_ok done
    refine ⟨_, by simp [cur]; rfl, placed_operands operands ?_⟩
    intro i member b j k used
    have writes := writeDefs_uses written (b := b) (j := j) (k := k) (by simp) i
    rcases List.mem_cons.mp member with rfl | member
    · exact used
    · exact absurd used (writes member)
  | generic =>
    obtain ⟨_, -, done⟩ := bind_ok.mp (path ▸ done)
    obtain ⟨_, -, done⟩ := bind_ok.mp done
    obtain ⟨f, loads, args, pc, writes, -, operands, counter, written, rfl⟩ := generateGeneric_ok done
    refine ⟨_, by simp [cur]; rfl, placed_operands operands ?_⟩
    intro i member b j k used
    have writes := writeDefs_uses written (b := b) (j := j) (k := k) (by simp) i
    obtain ⟨casts, casted⟩ := @castArgs_uses s (args ++ pc) f.params 0 b j k
    rcases List.mem_append.mp member with member | member
    · rcases List.mem_append.mp (casts i member used) with here | there
      · exact here
      · obtain ⟨c, const⟩ := pcArgument_const counter there
        cases const
    · rcases List.mem_cons.mp member with rfl | member
      · exact absurd used casted
      · exact absurd used (writes member)
  | ret | indirect | jump | branch | call => simp [path] at other

end Bleach
