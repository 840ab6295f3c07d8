import Bleach.Lifter.Chunk
import Bleach.RiscV

/-! The types of the calls to instruction functions. Only the generic path casts its
arguments; the others pass operands as wide as they come. -/
namespace Bleach
variable {W : Type} {cx : Context W} {s : Site} {minst : MachineInstr} {st st' : Builder}
  {addr : Option (BitVec 64)}

/-- An instruction the lifting of a machine instruction added, to whatever block. -/
def Builder.Added (st st' : Builder) (i : Inst) : Prop :=
  ∃ l, i ∈ (st'.blocks l).drop (st.blocks l).length

/-- The width of a value: a constant has its own, any other that of a definition. -/
inductive HasWidth (impl : InstrImpl W) (added : Inst → Prop) : Value → Nat → Prop where
  | const {c} : HasWidth impl added (.const c) c.width
  | load {id width src} (here : added (.load id width src)) : HasWidth impl added (.ssa id) width
  | cast {id val width} (here : added (.sextOrTrunc id val width)) :
      HasWidth impl added (.ssa id) width
  | add {id lhs rhs width} (here : added (.add id lhs rhs)) (left : HasWidth impl added lhs width) :
      HasWidth impl added (.ssa id) width
  | call {id name args f} (here : added (.callInstr id name args))
      (found : impl.getFunction name = some f) : HasWidth impl added (.ssa id) f.ret

/-- The calls added for an instruction pass one value of its type for each parameter. -/
def CallsTyped (cx : Context W) (st st' : Builder) : Prop :=
  ∀ id name args, st.Added st' (.callInstr id name args) → ∃ f, cx.instrs.getFunction name = some f ∧
    List.Forall₂ (HasWidth cx.instrs (st.Added st')) args f.params

/-- How wide an operand comes: constants and immediates always have 64 bits. -/
def operandWidth (cx : Context W) : MachineOperand → Option Nat
  | .reg r _ _ =>
    match cx.instrs.constReg? cx.tm r with
    | some _ => some 64
    | none => (cx.stats.getRegisterClassFor r).map RegisterClass.bitsize
  | .imm _ => some 64
  | _ => none

/-- The operands fit the instruction function: for branches and modifications of the
stack pointer in number and width, elsewhere there have to be enough. -/
def OperandsFit (cx : Context W) (minst : MachineInstr) (sptrack : StackPointerTracker) : Prop :=
  ∀ f, cx.instrs.getFunction minst.desc.name = some f →
    match dispatch cx minst sptrack with
    | .branch =>
      (minst.uses.filter (!·.isMBB)).map (operandWidth cx) = f.params.map some
    | .stackPointerModification => minst.uses.map (operandWidth cx) = f.params.map some
    | .generic => f.params.length ≤
        (minst.uses.filter MachineOperand.isArgument).length + if isPcRelative cx minst then 1 else 0
    | _ => True

theorem added_of_blocks {code : Label → List Inst} (blocks : ∀ l, st'.blocks l = st.blocks l ++ code l)
    {i : Inst} : st.Added st' i ↔ ∃ l, i ∈ code l := by
  simp only [Builder.Added, blocks, List.drop_left]

/-- Operands are loaded where the machine block is, the rest goes to the insertion point. -/
theorem added_emit {loads code : List Inst} {i : Inst}
    (blocks : ∀ l, st'.blocks l = ((st.insert s.label loads).emit code).blocks l) :
    st.Added st' i ↔ i ∈ loads ∨ i ∈ code := by
  rw [added_of_blocks fun l => (blocks l).trans ((Builder.emit_blocks ..).trans
    ((congrArg (· ++ _) (Builder.insert_blocks ..)).trans (List.append_assoc ..)))]
  constructor
  · rintro ⟨l, member⟩
    rcases List.mem_append.mp member with here | here
    · split_ifs at here with at_label
      · exact .inl here
      · simp at here
    · split_ifs at here with at_cur
      · exact .inr here
      · simp at here
  · rintro (here | here)
    · exact ⟨s.label, List.mem_append_left _ (by rwa [if_pos rfl])⟩
    · exact ⟨st.cur, List.mem_append_right _ (by rwa [if_pos (by rfl)])⟩

theorem operandWidth_slotOperand (imm : Int) (op : MachineOperand) :
    operandWidth cx (slotOperand imm op) = operandWidth cx op := by
  cases op with
  | imm v => by_cases same : v = imm <;> simp [slotOperand, same, operandWidth]
  | _ => rfl

/-- The width of an operand's value as its load, if it has one, says. -/
def LoadedWidth (loads : List Inst) : Value → Nat → Prop
  | .const c, n => c.width = n
  | .ssa id, n => ∃ src, .load id n src ∈ loads

/-- The value of an operand from position `k` on, and its width. -/
structure OperandValue (cx : Context W) (s : Site) (k : Nat) (loads : List Inst) (op : MachineOperand)
    (v : Value) : Prop where
  own : ∀ id, v = .ssa id → ∃ n, k ≤ n ∧ id = .operand s.block s.idx n
  width : ∀ n, LoadedWidth loads v n ↔ operandWidth cx op = some n

/-- Loads of other operands do not change the width of a value. -/
theorem OperandValue.weaken {k : Nat} {first later : List Inst} {op : MachineOperand} {v : Value}
    (value : OperandValue cx s (k + 1) later op v)
    (first_only : ∀ i ∈ first, ∃ width src, i = .load (.operand s.block s.idx k) width src) :
    OperandValue cx s k (first ++ later) op v := by
  constructor
  · intro id same
    obtain ⟨n, above, rfl⟩ := value.own id same
    exact ⟨n, by omega, rfl⟩
  · intro n
    rw [← value.width n]
    cases v with
    | const c => rfl
    | ssa id =>
      obtain ⟨m, above, rfl⟩ := value.own id rfl
      constructor
      · rintro ⟨src, member⟩
        rcases List.mem_append.mp member with here | here
        · obtain ⟨width, src', same⟩ := first_only _ here
          cases same
          omega
        · exact ⟨src, here⟩
      · rintro ⟨src, member⟩
        exact ⟨src, List.mem_append_right _ member⟩

theorem operandValue_first {k : Nat} {op : MachineOperand} {load later : List Inst} {v : Value}
    (code : OperandCode cx (.operand s.block s.idx k) op load (some v))
    (others : ∀ i ∈ later, ∃ n width src, k < n ∧ i = .load (.operand s.block s.idx n) width src) :
    OperandValue cx s k (load ++ later) op v := by
  cases code with
  | constant found =>
    refine ⟨by simp, fun n => ?_⟩
    simp [LoadedWidth, operandWidth, found]
  | immediate =>
    refine ⟨by simp, fun n => ?_⟩
    simp [LoadedWidth, operandWidth]
  | @register r isImplicit c rclass varying found classed =>
    refine ⟨fun id same => ⟨k, Nat.le_refl k, (Value.ssa.inj same).symm⟩, fun n => ?_⟩
    simp only [operandWidth, varying, classed, Option.map_some, Option.some.injEq]
    constructor
    · rintro ⟨src, member⟩
      rcases List.mem_append.mp member with here | here
      · cases List.mem_singleton.mp here
        rfl
      · obtain ⟨m, width, src', above, same⟩ := others _ here
        cases same
        omega
    · rintro rfl
      exact ⟨.cell c, by simp⟩

theorem operandCode_loads {id : ValueId} {op : MachineOperand} {load : List Inst} {val : Option Value}
    (code : OperandCode cx id op load val) : ∀ i ∈ load, ∃ width src, i = .load id width src := by
  intro i member
  cases code with
  | register => exact ⟨_, _, List.mem_singleton.mp member⟩
  | constant | implicitDef | immediate => simp at member

theorem operandsToValues_width {ops : List MachineOperand} {k : Nat} {loads : List Inst}
    {vals : List (Option Value)} (done : operandsToValues cx s ops k = .ok (loads, vals)) :
    (∀ i ∈ loads, ∃ n width src, k ≤ n ∧ i = .load (.operand s.block s.idx n) width src) ∧
      List.Forall₂ (fun op val => ∀ v ∈ val, OperandValue cx s k loads op v) ops vals := by
  induction ops generalizing k loads vals with
  | nil =>
    cases done
    exact ⟨by simp, .nil⟩
  | cons op rest ih =>
    obtain ⟨⟨load, val⟩, first, done⟩ := bind_ok.mp done
    obtain ⟨⟨later, vals'⟩, others, done⟩ := bind_ok.mp done
    cases done
    have code := operandToValue_ok.mp first
    have here := operandCode_loads code
    obtain ⟨behind, values⟩ := ih others
    refine ⟨?_, .cons ?_ (values.imp fun op val value v member => (value v member).weaken here)⟩
    · intro i member
      rcases List.mem_append.mp member with front | back
      · obtain ⟨width, src, rfl⟩ := here i front
        exact ⟨k, width, src, Nat.le_refl k, rfl⟩
      · obtain ⟨n, width, src, above, rfl⟩ := behind i back
        exact ⟨n, width, src, by omega, rfl⟩
    · rintro v ⟨⟩
      apply operandValue_first code
      intro i member
      obtain ⟨n, width, src, above, rfl⟩ := behind i member
      exact ⟨n, width, src, by omega, rfl⟩

/-- The values of operands that are all required. -/
theorem Operands.width {ops : List MachineOperand} {loads : List Inst} {args : List Value}
    (operands : Operands cx s ops loads args) :
    List.Forall₂ (OperandValue cx s 0 loads) ops args ∧
      ∀ i ∈ loads, ∃ n width src, i = .load (.operand s.block s.idx n) width src := by
  obtain ⟨vals, values, required⟩ := operands
  obtain ⟨own, widths⟩ := operandsToValues_width values
  rw [required_values required, List.forall₂_map_right_iff] at widths
  refine ⟨widths.imp fun op v value => value v rfl, ?_⟩
  intro i member
  obtain ⟨n, width, src, -, rfl⟩ := own i member
  exact ⟨n, width, src, rfl⟩

/-- Code behind the loads that defines no operand value. -/
def SparesOperands (code : List Inst) : Prop := ∀ i ∈ code, ∀ b j n, i.dst? ≠ some (.operand b j n)

/-- The loads in front of a call and the code from there on are all that is added. -/
structure AddsLoads (s : Site) (st st' : Builder) (loads code : List Inst) : Prop where
  own : ∀ i ∈ loads, ∃ n width src, i = .load (.operand s.block s.idx n) width src
  added : ∀ i, st.Added st' i ↔ i ∈ loads ∨ i ∈ code

variable {loads code : List Inst}

theorem AddsLoads.hasWidth (adds : AddsLoads s st st' loads code) (spares : SparesOperands code)
    {k : Nat} {op : MachineOperand} {v : Value} (value : OperandValue cx s k loads op v) (n : Nat) :
    HasWidth cx.instrs (st.Added st') v n ↔ operandWidth cx op = some n := by
  rw [← value.width n]
  cases v with
  | const c =>
    constructor
    · rintro ⟨⟩
      rfl
    · rintro rfl
      exact .const
  | ssa id =>
    obtain ⟨m, -, rfl⟩ := value.own id rfl
    have loaded : ∀ i, st.Added st' i → i.dst? = some (.operand s.block s.idx m) → i ∈ loads := by
      intro i here defined
      exact ((adds.added i).mp here).resolve_right fun behind => spares i behind _ _ _ defined
    constructor
    · intro wide
      cases wide with
      | load here => exact ⟨_, loaded _ here rfl⟩
      | cast here | add here _ | call here _ =>
        obtain ⟨_, _, _, same⟩ := adds.own _ (loaded _ here rfl)
        cases same
    · rintro ⟨src, member⟩
      exact .load ((adds.added _).mpr (.inl member))

theorem forall₂_width {P : Value → Nat → Prop} {ops : List MachineOperand} {args : List Value}
    (widths : List.Forall₂ (fun op v => ∀ n, P v n ↔ operandWidth cx op = some n) ops args)
    (params : List Nat) : List.Forall₂ P args params ↔ ops.map (operandWidth cx) = params.map some := by
  induction widths generalizing params with
  | nil => cases params <;> simp
  | cons here _ ih =>
    cases params with
    | nil => simp
    | cons n params => rw [List.forall₂_cons, here n, ih params, List.map_cons, List.map_cons, List.cons.injEq]

/-- Casts give every argument that has a parameter the type of the parameter. -/
theorem castArgs_width (s : Site) (args : List Value) (tys : List Nat) (k : Nat) :
    List.Forall₂ (fun v ty => ∃ id arg, v = .ssa id ∧ .sextOrTrunc id arg ty ∈ (castArgs s args tys k).1)
      (castArgs s args tys k).2 (tys.take args.length) := by
  induction args generalizing tys k with
  | nil =>
    rw [List.length_nil, List.take_zero]
    exact .nil
  | cons arg args ih =>
    cases tys with
    | nil =>
      rw [List.take_nil]
      exact .nil
    | cons ty tys =>
      refine .cons ⟨_, _, rfl, List.mem_cons_self⟩ ((ih tys (k + 1)).imp ?_)
      rintro v n ⟨id, arg', rfl, member⟩
      exact ⟨id, arg', rfl, List.mem_cons_of_mem _ member⟩

theorem AddsLoads.cast_width (adds : AddsLoads s st st' loads code) {args : List Value}
    {tys : List Nat} (inside : ∀ i ∈ (castArgs s args tys 0).1, i ∈ code) :
    List.Forall₂ (HasWidth cx.instrs (st.Added st')) (castArgs s args tys 0).2 tys ↔
      tys.length ≤ args.length := by
  have casts := castArgs_width s args tys 0
  constructor
  · intro typed
    have counted := typed.length_eq.symm.trans casts.length_eq
    rw [List.length_take] at counted
    omega
  · intro enough
    rw [List.take_of_length_le enough] at casts
    apply casts.imp
    rintro v n ⟨id, arg, rfl, member⟩
    exact .cast ((adds.added _).mpr (.inr (inside _ member)))

/-- Code is added, but no call to an instruction function. -/
structure Callless (st st' : Builder) : Prop where
  grows : st.Extends st'
  none : ∀ id name args, ¬st.Added st' (.callInstr id name args)

theorem Callless.refl (st : Builder) : Callless st st :=
  ⟨.refl st, by simp [Builder.Added]⟩

theorem Callless.insert (less : Callless st st') (l : Label)
    (none : ∀ id name args, .callInstr id name args ∉ code) : Callless st (st'.insert l code) := by
  refine ⟨less.grows.trans (Builder.extends_insert st' l code), ?_⟩
  rintro id name args ⟨l', member⟩
  rw [Builder.insert_blocks, List.drop_append_of_le_length (less.grows l').length_le] at member
  rcases List.mem_append.mp member with here | here
  · exact less.none id name args ⟨l', here⟩
  · split_ifs at here with at_l
    · exact none id name args here
    · simp at here

theorem Callless.emit (less : Callless st st')
    (none : ∀ id name args, .callInstr id name args ∉ code) : Callless st (st'.emit code) :=
  less.insert st'.cur none

theorem Callless.typed (less : Callless st st') : CallsTyped cx st st' :=
  fun id name args here => absurd here (less.none id name args)

/-- One call is added. -/
theorem callsTyped_single {r : ValueId} {name : String} {args : List Value} {f : InstrFunction W}
    (found : cx.instrs.getFunction name = some f) (here : st.Added st' (.callInstr r name args))
    (only : ∀ id name' args', st.Added st' (.callInstr id name' args') → name' = name ∧ args' = args) :
    CallsTyped cx st st' ↔ List.Forall₂ (HasWidth cx.instrs (st.Added st')) args f.params := by
  constructor
  · intro typed
    obtain ⟨f', found', widths⟩ := typed r name args here
    obtain rfl := Option.some.inj (found.symm.trans found')
    exact widths
  · intro widths id name' args' there
    obtain ⟨rfl, rfl⟩ := only id name' args' there
    exact ⟨f, found, widths⟩

theorem AddsLoads.single (adds : AddsLoads s st st' loads code) {r : ValueId} {name : String}
    {args : List Value} {f : InstrFunction W} (found : cx.instrs.getFunction name = some f)
    {before after : List Inst} (shape : code = before ++ .callInstr r name args :: after)
    (others : ∀ id name' args', .callInstr id name' args' ∉ before ++ after) :
    CallsTyped cx st st' ↔ List.Forall₂ (HasWidth cx.instrs (st.Added st')) args f.params := by
  subst shape
  apply callsTyped_single found ((adds.added (.callInstr r name args)).mpr (.inr (by simp)))
  intro id name' args' here
  rcases (adds.added _).mp here with load | behind
  · obtain ⟨_, _, _, same⟩ := adds.own _ load
    cases same
  · have other := others id name' args'
    simp only [List.mem_append, List.mem_cons, not_or] at behind other
    rcases behind with front | same | back
    · exact absurd front other.1
    · cases same
      exact ⟨rfl, rfl⟩
    · exact absurd back other.2

theorem save_no_call (id : ValueId) (name : String) (args : List Value) :
    .callInstr id name args ∉ cx.save ∧ .callInstr id name args ∉ cx.reload := by
  constructor <;> simp [Context.save, Context.reload, saveRegisters, loadRegisters]

theorem loads_no_call {ops : List MachineOperand} {k : Nat} {vals : List (Option Value)}
    (done : operandsToValues cx s ops k = .ok (loads, vals)) (id : ValueId) (name : String)
    (args : List Value) : .callInstr id name args ∉ loads := by
  intro member
  obtain ⟨_, _, _, -, same⟩ := (operandsToValues_width done).1 _ member
  cases same

theorem storeResult_no_call {val : Value} (done : storeResult cx minst val = .ok code) (id : ValueId)
    (name : String) (args : List Value) : .callInstr id name args ∉ code := by
  intro member
  obtain ⟨_, -, _, _, -, -, same⟩ := storeResult_stores done _ member
  cases same

theorem indirect_callless (done : generateIndirectBranch cx s minst st = .ok st') : Callless st st' := by
  obtain ⟨loads, arg, rest, values, rfl⟩ := generateIndirectBranch_ok done
  apply ((Callless.refl st).insert _ (loads_no_call values)).emit
  intro id name args
  obtain ⟨save, reload⟩ := @save_no_call _ cx id name args
  simp [save, reload]

theorem call_callless (done : generateCall cx minst st = .ok st') : Callless st st' := by
  obtain ⟨callee, -, rfl⟩ := generateCall_ok done
  apply (Callless.refl st).emit
  intro id name args
  obtain ⟨save, reload⟩ := @save_no_call _ cx id name args
  split_ifs <;> simp [save, reload]

theorem access_callless (done : generateLoadStoreFromStack cx s minst st = .ok st') :
    Callless st st' := by
  obtain ⟨spReg, sp, rclass, write, -, -, -, written, paths⟩ := generateLoadStoreFromStack_ok done
  have index : Callless st (st.emit (stackIndexCode s sp rclass minst)) :=
    (Callless.refl st).emit (by simp [stackIndexCode])
  obtain ⟨-, -, f, -, rfl⟩ | ⟨-, op, a, o, load, value, -, operand, rfl⟩ := paths
  · exact index.emit fun id name args => by simp [storeResult_no_call written]
  · apply (index.insert _ _).emit fun id name args => by simp [storeResult_no_call written]
    intro id name args member
    obtain ⟨_, _, same⟩ := operandCode_loads (operandToValue_ok.mp operand) _ member
    cases same

theorem writeDefs_no_call {val : Value} {defs : List MachineOperand}
    (done : writeDefs cx val defs = .ok code) (id : ValueId) (name : String) (args : List Value) :
    .callInstr id name args ∉ code := by
  intro member
  obtain ⟨_, -, _, _, _, -, -, -, same⟩ := writeDefs_stores done _ member
  cases same

theorem branch_typed_iff (done : generateBranch cx s minst st = .ok st') {f : InstrFunction W}
    (found : cx.instrs.getFunction minst.desc.name = some f) :
    CallsTyped cx st st' ↔
      (minst.uses.filter (!·.isMBB)).map (operandWidth cx) = f.params.map some := by
  obtain ⟨f', loads, args, b, ifFalse, -, operands, -, -, -, shape⟩ := generateBranch_ok done
  obtain ⟨widths, own⟩ := operands.width
  have adds : AddsLoads s st st' loads [.callInstr (.result s.block s.idx) minst.desc.name args,
      .condBr (.ssa (.result s.block s.idx)) (.mbb b) ifFalse] :=
    ⟨own, fun i => added_emit fun l => by rw [shape]⟩
  rw [adds.single found (List.nil_append _).symm (by simp)]
  apply forall₂_width
  exact widths.imp fun op v value n => adds.hasWidth (by simp [SparesOperands, Inst.dst?]) value n

theorem modification_typed_iff (done : generateStackPointerModification cx s minst st = .ok st')
    {f : InstrFunction W} (found : cx.instrs.getFunction minst.desc.name = some f) :
    CallsTyped cx st st' ↔ minst.uses.map (operandWidth cx) = f.params.map some := by
  obtain ⟨imm, loads, args, writes, -, operands, written, shape⟩ :=
    generateStackPointerModification_ok done
  obtain ⟨widths, own⟩ := operands.width
  have adds : AddsLoads s st st' loads
      (.callInstr (.result s.block s.idx) minst.desc.name args :: writes) :=
    ⟨own, fun i => added_emit fun l => by rw [shape]⟩
  have spares : SparesOperands (.callInstr (.result s.block s.idx) minst.desc.name args :: writes) := by
    intro i member b j n
    rcases List.mem_cons.mp member with rfl | member
    · simp [Inst.dst?]
    · obtain ⟨_, -, _, _, _, -, -, -, rfl⟩ := writeDefs_stores written i member
      simp [Inst.dst?]
  rw [adds.single found (List.nil_append _).symm (writeDefs_no_call written),
    forall₂_width (widths.imp fun op v value n => adds.hasWidth spares value n), List.map_map]
  simp only [Function.comp_def, operandWidth_slotOperand]

theorem pcArgument_length {pc : List Value} (done : pcArgument cx minst addr = .ok pc) :
    pc.length = if isPcRelative cx minst then 1 else 0 := by
  unfold pcArgument at done
  split_ifs at done with relative
  · split at done
    · cases done
    · cases done
      simp [relative]
  · cases done
    simp [relative]

theorem generic_typed_iff (done : generateGeneric cx s minst addr st = .ok st') {f : InstrFunction W}
    (found : cx.instrs.getFunction minst.desc.name = some f) :
    CallsTyped cx st st' ↔ f.params.length ≤
      (minst.uses.filter MachineOperand.isArgument).length + if isPcRelative cx minst then 1 else 0 := by
  obtain ⟨f', loads, args, pc, writes, found', operands, counter, written, shape⟩ :=
    generateGeneric_ok done
  obtain rfl := Option.some.inj (found.symm.trans found')
  obtain ⟨widths, own⟩ := operands.width
  have adds : AddsLoads s st st' loads ((castArgs s (args ++ pc) f.params 0).1 ++
      .callInstr (.result s.block s.idx) minst.desc.name
        (castArgs s (args ++ pc) f.params 0).2 :: writes) :=
    ⟨own, fun i => added_emit fun l => by rw [shape]⟩
  have others : ∀ id name args',
      .callInstr id name args' ∉ (castArgs s (args ++ pc) f.params 0).1 ++ writes := by
    intro id name args' member
    rcases List.mem_append.mp member with front | back
    · obtain ⟨_, _, _, same⟩ := castArgs_casts s _ _ _ _ front
      cases same
    · exact writeDefs_no_call written id name args' back
  rw [adds.single found rfl others, adds.cast_width fun i member => List.mem_append_left _ member,
    List.length_append, pcArgument_length counter, widths.length_eq]

/-- Every call is well typed exactly when the operands fit. -/
theorem calls_typed_iff (done : generateInstruction cx s addr minst st = .ok st') :
    CallsTyped cx st st' ↔ OperandsFit cx minst st.sptrack := by
  rw [generateInstruction_eq] at done
  unfold OperandsFit
  cases path : dispatch cx minst st.sptrack with
  | ret =>
    obtain rfl := Except.ok.inj (path ▸ done)
    exact iff_of_true ((Callless.refl st).emit (by simp)).typed fun _ _ => trivial
  | indirect =>
    exact iff_of_true (indirect_callless (by simpa [path] using done)).typed fun _ _ => trivial
  | jump =>
    obtain ⟨-, rfl⟩ | ⟨-, b, -, -, rfl⟩ := generateJump_ok (by simpa [path] using done)
    · exact iff_of_true (Callless.refl _).typed fun _ _ => trivial
    · exact iff_of_true ((Callless.refl st).emit (by simp)).typed fun _ _ => trivial
  | branch =>
    have branch : generateBranch cx s minst st = .ok st' := by simpa [path] using done
    obtain ⟨f, _, _, _, _, function, -⟩ := generateBranch_ok branch
    have found := findFunction_ok function
    simp only [found, Option.some.injEq, forall_eq']
    exact branch_typed_iff branch found
  | call =>
    exact iff_of_true (call_callless (by simpa [path] using done)).typed fun _ _ => trivial
  | stackAccess =>
    exact iff_of_true (access_callless (by simpa [path] using done)).typed fun _ _ => trivial
  | stackPointerModification =>
    simp only [path] at done
    obtain ⟨_, -, done⟩ := bind_ok.mp done
    obtain ⟨f, function, done⟩ := bind_ok.mp done
    have found := findFunction_ok function
    simp only [found, Option.some.injEq, forall_eq']
    exact modification_typed_iff done found
  | generic =>
    simp only [path] at done
    obtain ⟨_, -, done⟩ := bind_ok.mp done
    obtain ⟨f, function, done⟩ := bind_ok.mp done
    have found := findFunction_ok function
    simp only [found, Option.some.injEq, forall_eq']
    exact generic_typed_iff done found

def equal32 : InstrFunction RiscV.World where
  params := [32, 32]
  ret := 1
  eval
    | [a, b], world => some (if a = b then 1 else 0, world)
    | _, _ => none

def narrowContext : Context RiscV.World where
  instrs :=
    { instrs := [{ name := "BEQ", irModule := some equal32 }], stackPointer := "X2", constRegs := [⟨"X0", 0⟩] }
  tm := RiscV.target
  stats := [{ RiscV.gpr with bitsize := 32 }]

def compareZero : MachineInstr := RiscV.beq 10 0 0

/-- Behind the comparison of `X10` with `X0`, the last instruction of the first of two blocks. -/
def comparedZero : Lift Builder :=
  generateInstruction narrowContext ⟨2, 0, [compareZero], 0⟩ none compareZero
    ⟨fun _ => [], .mbb 0, {2}⟩

theorem compare_zero_ill_typed : ∃ st', comparedZero = .ok st' ∧
    ¬CallsTyped narrowContext ⟨fun _ => [], .mbb 0, {2}⟩ st' := by
  obtain ⟨st', done⟩ : ∃ st', generateBranch narrowContext ⟨2, 0, [compareZero], 0⟩ compareZero
    ⟨fun _ => [], .mbb 0, {2}⟩ = .ok st' := ⟨_, rfl⟩
  refine ⟨st', done, ?_⟩
  rw [branch_typed_iff done (f := equal32) rfl]
  decide

/-- Comparing `X10` with `X11` is typed. -/
theorem compare_zero_typed_iff :
    (∃ st', comparedZero = .ok st' ∧ (CallsTyped narrowContext ⟨fun _ => [], .mbb 0, {2}⟩ st' ↔
      OperandsFit narrowContext compareZero {2})) ∧
    ∃ st', generateInstruction narrowContext ⟨2, 0, [RiscV.beq 10 11 0], 0⟩ none (RiscV.beq 10 11 0)
        ⟨fun _ => [], .mbb 0, {2}⟩ = .ok st' ∧
      CallsTyped narrowContext ⟨fun _ => [], .mbb 0, {2}⟩ st' := by
  obtain ⟨st', done⟩ : ∃ st', comparedZero = .ok st' := ⟨_, rfl⟩
  obtain ⟨st'', done'⟩ : ∃ st', generateInstruction narrowContext ⟨2, 0, [RiscV.beq 10 11 0], 0⟩ none
    (RiscV.beq 10 11 0) ⟨fun _ => [], .mbb 0, {2}⟩ = .ok st' := ⟨_, rfl⟩
  refine ⟨⟨st', done, calls_typed_iff done⟩, st'', done', (calls_typed_iff done').mpr ?_⟩
  have fit : ((RiscV.beq 10 11 0).uses.filter (!·.isMBB)).map (operandWidth narrowContext) =
      equal32.params.map some := by decide
  rintro f ⟨⟩
  exact fit

end Bleach
