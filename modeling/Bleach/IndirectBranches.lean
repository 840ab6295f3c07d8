import Bleach.SymbolTable
import Bleach.CallProtocol
import Bleach.Lifter.Operands

/-! Indirect branches. The lookup is given the base register alone, so that the
branch goes to the function that starts at its target exactly when the target is
the value of the base register, or nothing starts at either address. -/
namespace Bleach
open Transition
variable {W : Type} {w : Nat → Nat} {cx : Context W} {mfs : List MachineFunction}
  {addrs : FuncId → FunctionAddresses} {finfo : FileInfo} {adds : List Inst} {M : IRModule W}
  {mf : MachineFunction} {mbb : MachineBasicBlock} {minst : MachineInstr} {base : Register}
  {off : Int} {fr : Frame M.widths} {rest : List (Frame M.widths)} {shared : Shared M.widths W}
  {code : List Inst} {g : FuncId}

/-- The next function the frame on top of `rest` enters is `g`. -/
def NextCall (M : IRModule W) (rest : List (Frame M.widths)) (c : Config M.widths W) (g : FuncId) :
    Prop :=
  ∃ c₁ blocks waiting shared, Within M.step (fun c => ∃ fr, c.frames = fr :: rest) c c₁ ∧
    M.body g = some blocks ∧ M.step c₁ = some ⟨M.entryFrame g blocks :: waiting :: rest, shared⟩

theorem nextCall_plain {i : Inst} (at_ : fr.code = i :: code) (plain : i.isPlain = true) :
    NextCall M rest ⟨fr :: rest, shared⟩ g ↔ ∃ d, execInst M (fr.data shared) i = some d ∧
      NextCall M rest ⟨⟨fr.func, fr.label, code, d.env, d.locals⟩ :: rest, d.shared⟩ g := by
  constructor
  · rintro ⟨c₁, blocks, waiting, shared', run, body, last⟩
    cases run with
    | refl _ =>
      obtain ⟨d, -, same⟩ := stepped_plain at_ plain last
      have depth := congrArg (fun c => c.frames.length) same
      simp at depth
    | next _ first later =>
      obtain ⟨d, one, rfl⟩ := stepped_plain at_ plain first
      exact ⟨d, one, c₁, blocks, waiting, shared', later, body, last⟩
  · rintro ⟨d, one, c₁, blocks, waiting, shared', run, body, last⟩
    exact ⟨c₁, blocks, waiting, shared', .next ⟨fr, rfl⟩ (IRModule.step_plain at_ one) run, body, last⟩

theorem nextCall_code {before : List Inst} (at_ : fr.code = before ++ code) (plain : Plain before) :
    NextCall M rest ⟨fr :: rest, shared⟩ g ↔ ∃ d, execCode M before (fr.data shared) = some d ∧
      NextCall M rest ⟨⟨fr.func, fr.label, code, d.env, d.locals⟩ :: rest, d.shared⟩ g := by
  induction before generalizing fr shared with
  | nil =>
    obtain rfl : fr.code = code := at_
    simp [execCode, Frame.data]
  | cons i later ih =>
    obtain ⟨here, others⟩ := List.forall_mem_cons.mp plain
    have onward : ∀ d : Data M.widths W, NextCall M rest
        ⟨⟨fr.func, fr.label, later ++ code, d.env, d.locals⟩ :: rest, d.shared⟩ g ↔
        ∃ d', execCode M later d = some d' ∧
          NextCall M rest ⟨⟨fr.func, fr.label, code, d'.env, d'.locals⟩ :: rest, d'.shared⟩ g :=
      fun d => ih rfl others
    have head : fr.code = i :: (later ++ code) := at_
    rw [nextCall_plain head here]
    simp only [onward, execCode, Option.bind_eq_some_iff]
    constructor
    · rintro ⟨d, one, d', run, next⟩
      exact ⟨d', ⟨d, one, run⟩, next⟩
    · rintro ⟨d', ⟨d, one, run⟩, next⟩
      exact ⟨d, one, d', run, next⟩

theorem nextCall_callPtr {v : ValueId} (at_ : fr.code = .callPtr v :: code) :
    NextCall M rest ⟨fr :: rest, shared⟩ g ↔
      fr.env v = some (.func g) ∧ (M.body g).isSome = true := by
  have entered : ∀ {c}, M.step ⟨fr :: rest, shared⟩ = some c → ∃ h blocks, M.body h = some blocks ∧
      fr.env v = some (.func h) ∧
      c = ⟨M.entryFrame h blocks :: { fr with code := code } :: rest, shared⟩ := by
    intro c done
    cases stepped done with
    | plain at' one =>
      obtain ⟨rfl, -⟩ := List.cons.inj (at_.symm.trans at')
      cases one
    | ret at' => cases at_.symm.trans at'
    | jump at' target body =>
      obtain ⟨rfl, -⟩ := List.cons.inj (at_.symm.trans at')
      cases target
    | enter at' calls body =>
      obtain ⟨rfl, rfl⟩ := List.cons.inj (at_.symm.trans at')
      obtain ⟨⟨⟩⟩ | ⟨v', same, value⟩ := calls
      obtain rfl := Inst.callPtr.inj same
      exact ⟨_, _, body, value, rfl⟩
  constructor
  · rintro ⟨c₁, blocks, waiting, shared', run, body, last⟩
    cases run with
    | refl _ =>
      obtain ⟨h, blocks', body', value, same⟩ := entered last
      obtain rfl : g = h := congrArg (fun c => (c.frames.head?.map Frame.func).getD g) same
      exact ⟨value, by simp [body]⟩
    | next _ first later =>
      obtain ⟨h, blocks', -, -, rfl⟩ := entered first
      obtain ⟨fr', top⟩ := later.start
      have depth := congrArg List.length top
      simp at depth
  · rintro ⟨value, present⟩
    obtain ⟨blocks, body⟩ := Option.isSome_iff_exists.mp present
    refine ⟨_, blocks, { fr with code := code }, shared, .refl ⟨fr, rfl⟩, body, ?_⟩
    simp [IRModule.step, at_, value, IRModule.enter, body]

/-- An indirect branch to an offset from a base register. -/
structure IndirectBranch (cx : Context W) (minst : MachineInstr) (base : Register) (off : Int) :
    Prop where
  isReturn : isReturn cx minst = false
  isIndirect : isIndirectBranch cx minst = true
  operands : ∃ more, minst.uses = .reg base false false :: .imm off :: more

/-- The target: the sum with its low bit cleared. -/
def branchTarget (v : BitVec 64) (off : Int) : BitVec 64 := (v + BitVec.ofInt 64 off) &&& ~~~1#64

/-- The value of the base register gets to the lookup: it is a constant, or it is
loaded in the block the lookup stands in. -/
def BaseLoaded (cx : Context W) (mbb : MachineBasicBlock) (i : Nat) (base : Register) : Prop :=
  (cx.instrs.constReg? cx.tm base).isSome = true ∨ Unbranched cx mbb i

theorem IndirectBranch.dispatch_eq (branch : IndirectBranch cx minst base off)
    (T : StackPointerTracker) : dispatch cx minst T = .indirect := by
  simp [dispatch, branch.isReturn, branch.isIndirect]

theorem indirectBranch_code (lifted : Lifted cx mfs addrs adds M) {f : FuncId} {b i : Nat}
    (found : mfs[f]? = some mf) (block : mf.blocks[b]? = some mbb) (here : mbb[i]? = some minst)
    (at_ : fr.At cx mfs addrs f b i) (branch : IndirectBranch cx minst base off) :
    ∃ fin st load loads arg later rest, finalBuilder cx mf (addrs f) = .ok fin ∧
      builderAt cx mf (addrs f) b i = .ok st ∧
      operandToValue cx (.operand b i 0) (.reg base false false) = .ok (load, some arg) ∧
      operandsToValues cx (mf.site b mbb i) (minst.uses.filter (!·.isMBB)) 0 =
        .ok (load ++ loads, some arg :: rest) ∧
      fr.code = (if st.cur = .mbb b then load ++ loads else []) ++
        (.symtabLookup (.callee b i) arg :: cx.save ++ .callPtr (.callee b i) :: later) := by
  obtain ⟨rfl, mf', found', pc⟩ := at_
  obtain rfl := Option.some.inj (found.symm.trans found')
  obtain ⟨fin, whole, -⟩ := lifted.functions found
  obtain ⟨st, st', addr, builder, generated, next⟩ := builderAt_instr whole block here
  rw [generateInstruction_eq, branch.dispatch_eq] at generated
  obtain ⟨loads, arg, vals, values, emitted⟩ := generateIndirectBranch_ok generated
  obtain ⟨more, uses⟩ := branch.operands
  have appends : Appends (mf.site b mbb i) st st' ((if st.cur = .mbb b then loads else []) ++
      (.symtabLookup (.callee b i) arg :: cx.save ++ .callPtr (.callee b i) :: cx.reload)) :=
    appends_loads (plain_operands values) fun _ => emitted ▸ rfl
  have values' := values
  simp only [uses, MachineOperand.isMBB, Bool.not_false, List.filter_cons_of_pos] at values'
  obtain ⟨⟨load, val⟩, first, values'⟩ := bind_ok.mp values'
  obtain ⟨⟨others, vals'⟩, -, values'⟩ := bind_ok.mp values'
  obtain ⟨rfl, rfl, rfl⟩ : loads = load ++ others ∧ val = some arg ∧ vals' = vals := by
    simpa [eq_comm] using Except.ok.inj values'
  rw [pcAt_ok whole builder] at pc
  obtain ⟨-, code⟩ := Prod.mk.inj (Except.ok.inj pc)
  have ext := builderAt_extends whole block next
  refine ⟨fin, st, load, others, arg, cx.reload ++ codeAt cx fin st', vals', whole, builder, first,
    values, ?_⟩
  rw [← code, codeAt_next cx appends ext (emitted ▸ rfl) ?_]
  · simp
  · have loadsPlain := plain_operands values
    simp only [List.mem_append, List.mem_cons, not_or]
    refine ⟨?_, ⟨⟨by simp, (plain_save cx).noRet⟩, by simp, (plain_reload cx).noRet⟩⟩
    exact (plain_ite loadsPlain).noRet

theorem exec_lookup {d : Data M.widths W} {arg : Value} {v : BitVec 64}
    (eval : evalInt d.env arg = some ⟨64, v⟩) (id : ValueId) :
    execInst M d (.symtabLookup id arg) =
      (d.shared.symtab.lookup v).map fun f => d.bind id (.func f) := by
  simp only [execInst, eval, symtabLookup, Option.bind_eq_bind, Option.bind_some, if_true,
    BitVec.setWidth_eq]
  cases d.shared.symtab.lookup v <;> rfl

theorem exec_base (widths : M.widths = cx.stats.widths) {fin st : Builder}
    {addrs : FunctionAddresses} {b i : Nat} {load loads : List Inst} {arg : Value}
    {vals : List (Option Value)} {v : BitVec 64} (whole : finalBuilder cx mf addrs = .ok fin)
    (block : mf.blocks[b]? = some mbb) (bound : i ≤ mbb.length)
    (builder : builderAt cx mf addrs b i = .ok st)
    (first : operandToValue cx (.operand b i 0) (.reg base false false) = .ok (load, some arg))
    (values : operandsToValues cx (mf.site b mbb i) (.reg base false false :: ops) 0 =
      .ok (loads, some arg :: vals))
    (loaded : BaseLoaded cx mbb i base) (d : Data M.widths W)
    (value : argumentValue cx d.locals (.reg base false false) = some ⟨64, v⟩) :
    ∃ d', execCode M (if st.cur = .mbb b then loads else []) d = some d' ∧
      d'.shared = d.shared ∧ evalInt d'.env arg = some ⟨64, v⟩ := by
  by_cases own : st.cur = .mbb b
  · rw [if_pos own]
    obtain ⟨d', run, loaded⟩ := exec_operands widths values d
    obtain ⟨eval, -⟩ := List.forall₂_cons.mp loaded.values
    exact ⟨d', run, loaded.shared, (eval arg rfl).2.trans value⟩
  · rw [if_neg own]
    refine ⟨d, rfl, rfl, ?_⟩
    obtain constant | unbranched := loaded
    · obtain ⟨k, found⟩ := Option.isSome_iff_exists.mp constant
      rw [← value]
      cases operandToValue_ok.mp first with
      | constant found' => simp [argumentValue, evalInt, evalValue, found']
      | register varying => simp [varying] at found
    · obtain ⟨cur, -⟩ | ⟨branched, -⟩ := (origins whole block bound builder).cur block
      · exact absurd cur own
      · exact absurd unbranched branched

/-- The loads behind a conditional branch are never executed. -/
theorem base_unloaded (lifted : Lifted cx mfs addrs adds M) {f : FuncId} {b i : Nat} {st : Builder}
    {load loads : List Inst} {arg : Value} (found : mfs[f]? = some mf)
    (block : mf.blocks[b]? = some mbb) (func : fr.func = f)
    (grounded : fr.Grounded M)
    (first : operandToValue cx (.operand b i 0) (.reg base false false) = .ok (load, some arg))
    (split : fr.code = (if st.cur = .mbb b then load ++ loads else []) ++ code)
    (unloaded : ¬BaseLoaded cx mbb i base) :
    st.cur ≠ .mbb b ∧ evalInt fr.env arg = none := by
  obtain ⟨constant, branched⟩ := not_or.mp unloaded
  have unbound : fr.env (.operand b i 0) = none :=
    grounded.operand_unbound lifted (func ▸ found) block branched 0
  obtain ⟨⟨blocks, pre, body, whole, before⟩, -⟩ := grounded
  cases operandToValue_ok.mp first with
  | constant found => simp [found] at constant
  | @register _ _ c rclass varying found' classed =>
    refine ⟨fun own => ?_, by rw [evalInt, evalValue, unbound]⟩
    rw [if_pos own] at split
    rw [split] at whole
    exact lifted.operand_unloaded body (func ▸ found) block branched (whole ▸ mem_live before rfl) 0 rfl

theorem indirectBranch_enters (lifted : Lifted cx mfs addrs adds M) (disjoint : cx.stats.Disjoint)
    {f : FuncId} {b i : Nat} {v : BitVec 64} (found : mfs[f]? = some mf)
    (block : mf.blocks[b]? = some mbb) (here : mbb[i]? = some minst)
    (at_ : fr.At cx mfs addrs f b i) (branch : IndirectBranch cx minst base off)
    (grounded : fr.Grounded M)
    (value : argumentValue cx fr.locals (.reg base false false) = some ⟨64, v⟩) :
    NextCall M rest ⟨fr :: rest, shared⟩ g ↔ BaseLoaded cx mbb i base ∧
      shared.symtab.lookup v = some g ∧ (M.body g).isSome = true := by
  obtain ⟨fin, st, load, loads, arg, later, vals, whole, builder, first, values, split⟩ :=
    indirectBranch_code lifted found block here at_ branch
  have bound := (List.getElem?_eq_some_iff.mp here).1
  obtain ⟨more, uses⟩ := branch.operands
  simp only [uses, MachineOperand.isMBB, Bool.not_false, List.filter_cons_of_pos] at values
  let lookup := Inst.symtabLookup (.callee b i) arg
  have plain : Plain ((if st.cur = .mbb b then load ++ loads else []) ++ lookup :: cx.save) :=
    (plain_ite (plain_operands values)).append (.cons rfl (plain_save cx))
  rw [nextCall_code (split.trans (List.append_assoc ..).symm) plain]
  by_cases loaded : BaseLoaded cx mbb i base
  · obtain ⟨d₁, run, same, eval⟩ := exec_base lifted.widths whole block bound.le builder first values
      loaded (fr.data shared) value
    have recorded : d₁.shared.symtab = shared.symtab := congrArg Shared.symtab same
    rw [execCode_append, run, Option.bind_some, execCode, exec_lookup eval, recorded]
    simp only [loaded, true_and]
    cases shared.symtab.lookup v with
    | none => simp
    | some h =>
      obtain ⟨d₂, saved, effect⟩ := lifted.run_save disjoint (d₁.bind (.callee b i) (.func h))
      have callee : d₂.env (.callee b i) = some (.func h) := by
        rw [effect.values _ (by simp)]
        exact Function.update_self ..
      simp only [Option.map_some, Option.bind_some, saved, Option.some.injEq, exists_eq_left']
      rw [nextCall_callPtr rfl]
      simp only [callee, Option.some.injEq, RuntimeValue.func.injEq]
  · obtain ⟨apart, unbound⟩ := base_unloaded lifted found block at_.1 grounded first split loaded
    simp only [if_neg apart, List.nil_append, execCode, loaded, false_and, iff_false]
    rintro ⟨d, run, -⟩
    have undefined : execInst M (fr.data shared) (.symtabLookup (.callee b i) arg) = none := by
      simp [execInst, Frame.data, unbound]
    simp [undefined] at run

theorem recorded_at (lifted : Lifted cx mfs addrs adds M) {f : FuncId} {b i : Nat}
    (found : mfs[f]? = some mf) (block : mf.blocks[b]? = some mbb) (here : mbb[i]? = some minst)
    (at_ : fr.At cx mfs addrs f b i) (branch : IndirectBranch cx minst base off)
    (table : Tabled M adds ⟨fr :: rest, shared⟩) : Recorded adds shared.symtab := by
  obtain recorded | ⟨fr', before, add, after, later, top, whole, code, -⟩ := table.complete
  · exact recorded
  · obtain ⟨rfl, -⟩ := List.cons.inj top
    obtain ⟨a, g, rfl⟩ := lifted.adds add (by simp [whole])
    obtain ⟨fin, st, load, loads, arg, _, vals, -, -, -, values, split⟩ :=
      indirectBranch_code lifted found block here at_ branch
    rw [code] at split
    split_ifs at split
    · generalize load ++ loads = all at values split
      cases all with
      | nil => simp at split
      | cons i rest =>
        obtain ⟨k, width, c, rfl⟩ := operandLoad_operands values i List.mem_cons_self
        simp at split
    · simp at split

/-- An indirect branch goes to the function that starts at its target, and to none
if none does, exactly if the value of the base register gets to the lookup and is
the target itself, or nothing starts at the two addresses. -/
theorem indirectBranch_target_iff {stackSize : Nat} {liftedPrefix : String}
    (module : bleachModule cx mfs addrs (some finfo) stackSize liftedPrefix = .ok M)
    (disjoint : cx.stats.Disjoint) (names : (mfs.map MachineFunction.name).Nodup)
    (starts : (finfo.map FunctionSymbol.start).Nodup) (called : Called M ⟨fr :: rest, shared⟩)
    {f : FuncId} {b i : Nat} {v : BitVec 64} (found : mfs[f]? = some mf)
    (block : mf.blocks[b]? = some mbb) (here : mbb[i]? = some minst)
    (at_ : fr.At cx mfs addrs f b i) (branch : IndirectBranch cx minst base off)
    (value : argumentValue cx fr.locals (.reg base false false) = some ⟨64, v⟩) :
    (∀ g, NextCall M rest ⟨fr :: rest, shared⟩ g ↔ startOf mfs finfo g = some (branchTarget v off)) ↔
      (BaseLoaded cx mbb i base → v = branchTarget v off ∨
        ∀ g, startOf mfs finfo g ≠ some v ∧ startOf mfs finfo g ≠ some (branchTarget v off)) ∧
      (¬BaseLoaded cx mbb i base → ∀ g, startOf mfs finfo g ≠ some (branchTarget v off)) := by
  obtain ⟨funcs, adds, registered, lifted, -, named, bodies⟩ := lifted_of_bleachModule module
  have registration : ∀ {a g}, .symtabAdd a g ∈ adds ↔ startOf mfs finfo g = some a :=
    registered_iff lifted registered named bodies
  have table := tabled lifted (fun here here' =>
    startOf_inj names starts (registration.mp here) (registration.mp here')) called
  have enters : ∀ g, NextCall M rest ⟨fr :: rest, shared⟩ g ↔
      BaseLoaded cx mbb i base ∧ startOf mfs finfo g = some v := by
    intro g
    rw [indirectBranch_enters lifted disjoint found block here at_ branch
      (table.grounded fr List.mem_cons_self) value, ← registration]
    refine and_congr_right fun _ => ⟨fun bound => table.sound v g bound.1, fun member => ?_⟩
    obtain ⟨mf', found', nonempty, -⟩ := startOf_eq.mp (registration.mp member)
    obtain ⟨fin, -, body⟩ := lifted.functions found'
    exact ⟨recorded_at lifted found block here at_ branch table v g member, by simp [body, nonempty]⟩
  simp only [enters]
  generalize branchTarget v off = t
  constructor
  · intro same
    refine ⟨fun loaded => ?_, fun unloaded g start => unloaded ((same g).mpr start).1⟩
    by_cases some_ : ∃ g, startOf mfs finfo g = some v
    · obtain ⟨g, start⟩ := some_
      exact .inl (Option.some.inj (start.symm.trans ((same g).mp ⟨loaded, start⟩)))
    · refine .inr fun g => ⟨fun start => some_ ⟨g, start⟩, fun start => ?_⟩
      exact some_ ⟨g, ((same g).mpr start).2⟩
  · rintro ⟨direct, lost⟩ g
    by_cases loaded : BaseLoaded cx mbb i base
    · obtain rfl | nothing := direct loaded
      · exact ⟨And.right, fun start => ⟨loaded, start⟩⟩
      · exact ⟨fun start => absurd start.2 (nothing g).1, fun start => absurd start (nothing g).2⟩
    · exact ⟨fun start => absurd start.1 loaded, fun start => absurd start (lost loaded g)⟩

namespace RiscV

def farCall (off : Int) : List MachineFunction :=
  [⟨"caller", [[jalr X1 X10 off, ret]]⟩, ⟨"near", [[ret]]⟩, ⟨"far", [[ret]]⟩]

def symbols : FileInfo := [⟨"caller", 0, 8⟩, ⟨"near", 256, 272⟩, ⟨"far", 272, 288⟩]

def farModule (off : Int) : IRModule World := module (farCall off) (some symbols)

/-- The caller in front of its indirect branch, every register holding 256. -/
theorem farCall_reached (off : Int) : ∃ fr shared, Called (farModule off) ⟨[fr], shared⟩ ∧
    fr.At context (farCall off) (fun _ => none) 0 0 0 ∧
    argumentValue context fr.locals (use X10) = some ⟨64, 256⟩ := by
  obtain ⟨funcs, adds, -, lifted, -, -, -⟩ := @lifted_of_bleachModule World context (farCall off)
    (fun _ => none) (farModule off) (some symbols) 64 "" rfl
  let shared : Shared (farModule off).widths World :=
    ⟨fun s => BitVec.ofNat _ 256, fun _ => 0, [], fun _ => 0⟩
  obtain ⟨blocks, body⟩ : ∃ blocks, (farModule off).body 0 = some blocks := ⟨_, rfl⟩
  obtain ⟨fr, symtab, run, at_, agrees⟩ := lifted.enters body [] shared
  have called := run.invariant (P := Called _) (fun before next => .step before next) (.first body rfl)
  refine ⟨fr, _, called, at_, ?_⟩
  exact (agrees.stateValue_eq X10).symm.trans rfl

/-- The offset of an indirect branch is dropped. -/
theorem farCall_misses : ¬∀ {fr rest shared v}, Called (farModule 16) ⟨fr :: rest, shared⟩ →
    fr.At context (farCall 16) (fun _ => none) 0 0 0 →
    argumentValue context fr.locals (use X10) = some ⟨64, v⟩ →
    ∀ g, NextCall (farModule 16) rest ⟨fr :: rest, shared⟩ g ↔
      startOf (farCall 16) symbols g = some (branchTarget v 16) := by
  intro right
  obtain ⟨fr, shared, called, at_, value⟩ := farCall_reached 16
  obtain ⟨funcs, adds, registered, lifted, -, named, bodies⟩ := @lifted_of_bleachModule World context
    (farCall 16) (fun _ => none) (farModule 16) (some symbols) 64 "" rfl
  have registration : ∀ {a g}, .symtabAdd a g ∈ adds ↔ startOf (farCall 16) symbols g = some a :=
    registered_iff lifted registered named bodies
  have table := tabled lifted (fun here here' => startOf_inj (by decide) (by decide)
    (registration.mp here) (registration.mp here')) called
  obtain ⟨-, recorded, -⟩ := (indirectBranch_enters lifted (by decide) rfl rfl rfl at_
    ⟨by decide, by decide, [], rfl⟩ (table.grounded fr List.mem_cons_self) value).mp
    ((right called at_ value 2).mpr (by decide))
  exact absurd (registration.mp (table.sound 256 2 recorded)) (by decide)

theorem nearCall_reaches : ∃ fr shared, Called (farModule 0) ⟨[fr], shared⟩ ∧
    fr.At context (farCall 0) (fun _ => none) 0 0 0 ∧ NextCall (farModule 0) [] ⟨[fr], shared⟩ 1 := by
  obtain ⟨fr, shared, called, at_, value⟩ := farCall_reached 0
  have right := @indirectBranch_target_iff World context (farCall 0) (fun _ => none) symbols
    (farModule 0) _ _ _ X10 0 fr [] shared 64 "" rfl (by decide) (by decide) (by decide) called 0 0 0
    256 rfl rfl rfl at_ ⟨by decide, by decide, [], rfl⟩ value
  refine ⟨fr, shared, called, at_, (right.mpr ⟨fun _ => .inl (by decide), fun unloaded => ?_⟩ 1).mpr
    (by decide)⟩
  exact absurd (.inr fun j before => absurd before (Nat.not_lt_zero j)) unloaded

end RiscV
end Bleach
