import Bleach.Lifter.Lifted
import Bleach.IRRun
import Bleach.RiscV

/-! The entry block of a lifted function. The copies from `register_state` stand in
the block of the first machine block, so they are executed once per invocation
exactly when no branch names that block. -/
namespace Bleach
open Transition
variable {W : Type} {cx : Context W} {mfs : List MachineFunction} {mf : MachineFunction}
  {addrs : FuncId → FunctionAddresses} {M : IRModule W} {s : Site} {minst : MachineInstr}

/-- The machine blocks the branch code of an instruction names: a conditional
branch takes over the target of the jump behind it. -/
def Site.branchTargets (cx : Context W) (s : Site) (minst : MachineInstr) : List BlockId :=
  match dispatch cx minst ∅ with
  | .jump =>
    if s.prev.any MachineInstr.isConditionalBranch then [] else minst.mbbOperand.toList
  | .branch =>
    ((minst.operands[2]?).bind MachineOperand.mbb?).toList ++
      match s.next with
      | some next =>
        if next.isUnconditionalBranch then ((next.operands[0]?).bind MachineOperand.mbb?).toList
        else []
      | none => []
  | _ => []

/-- Registers are loaded from `register_state` once per invocation: nothing
branches to the entry block, and an activation that has left its start, whatever
it calls, never stands there again. -/
structure LoadsOnce (M : IRModule W) (f : FuncId) (blocks : Label → List Inst) : Prop where
  noPredecessors : ∀ l, ∀ i ∈ blocks l, entryLabel ∉ i.targets
  onEntry : ∀ {rest shared c₁ c fr}, M.step ⟨M.entryFrame f blocks :: rest, shared⟩ = some c₁ →
    Within M.step (Config.On rest) c₁ c → c.frames = fr :: rest →
    ¬(fr.label = entryLabel ∧ fr.code = blocks entryLabel)

/-- The frame on top of `rest` is an activation of `f` that has left its start. -/
def HasLeft (blocks : Label → List Inst) (f : FuncId) (rest : List (Frame M.widths))
    (c : Config M.widths W) : Prop :=
  ∃ upper fr pre, c.frames = upper ++ fr :: rest ∧ fr.func = f ∧ blocks fr.label = pre ++ fr.code ∧
    (fr.label = entryLabel → pre ≠ [])

/-- The activation itself takes a step. -/
theorem leaves {f : FuncId} {blocks : Label → List Inst} (body : M.body f = some blocks)
    (noPredecessors : ∀ l, ∀ i ∈ blocks l, entryLabel ∉ i.targets) {rest : List (Frame M.widths)}
    {fr : Frame M.widths} {pre : List Inst} {c c' : Config M.widths W} (top : c.frames = fr :: rest)
    (func : fr.func = f) (split : blocks fr.label = pre ++ fr.code) (done : M.step c = some c')
    (above : c'.On rest) : HasLeft blocks f rest c' := by
  cases stepped done with
  | @plain _ _ _ i _ _ at_ one =>
    obtain ⟨rfl, rfl⟩ := List.cons.inj top
    exact ⟨[], _, pre ++ [i], rfl, func, by simp [Frame.withData, split, at_], by simp⟩
  | ret at_ =>
    obtain ⟨rfl, rfl⟩ := List.cons.inj top
    simp [Config.On] at above
  | @jump fr₁ _ _ i _ dest _ at_ target body' =>
    obtain ⟨rfl, rfl⟩ := List.cons.inj top
    obtain rfl := Option.some.inj (body.symm.trans (func ▸ body'))
    have inside : i ∈ blocks fr₁.label := by
      rw [split, at_]
      simp
    exact ⟨[], _, [], rfl, func, rfl, fun entry =>
      absurd (entry ▸ target) (noPredecessors _ i inside)⟩
  | @enter _ _ _ i _ _ _ at_ calls _ =>
    obtain ⟨rfl, rfl⟩ := List.cons.inj top
    exact ⟨[_], _, pre ++ [i], rfl, func, by simp [split, at_], by simp⟩

theorem hasLeft_step {f : FuncId} {blocks : Label → List Inst} (body : M.body f = some blocks)
    (noPredecessors : ∀ l, ∀ i ∈ blocks l, entryLabel ∉ i.targets) {rest : List (Frame M.widths)}
    {c c' : Config M.widths W} (left : HasLeft blocks f rest c) (done : M.step c = some c')
    (above : c'.On rest) : HasLeft blocks f rest c' := by
  obtain ⟨upper, fr, pre, frames, func, split, behind⟩ := left
  cases upper with
  | nil => exact leaves body noPredecessors frames func split done above
  | cons top upper =>
    cases stepped done with
    | plain at_ one =>
      obtain ⟨rfl, rfl⟩ := List.cons.inj frames
      exact ⟨_ :: upper, fr, pre, rfl, func, split, behind⟩
    | ret at_ =>
      obtain ⟨rfl, rfl⟩ := List.cons.inj frames
      exact ⟨upper, fr, pre, rfl, func, split, behind⟩
    | jump at_ target body =>
      obtain ⟨rfl, rfl⟩ := List.cons.inj frames
      exact ⟨_ :: upper, fr, pre, rfl, func, split, behind⟩
    | enter at_ calls body =>
      obtain ⟨rfl, rfl⟩ := List.cons.inj frames
      exact ⟨_ :: _ :: upper, fr, pre, rfl, func, split, behind⟩

theorem loadsOnce_of_noPredecessors {f : FuncId} {blocks : Label → List Inst}
    (body : M.body f = some blocks)
    (noPredecessors : ∀ l, ∀ i ∈ blocks l, entryLabel ∉ i.targets) : LoadsOnce M f blocks := by
  refine ⟨noPredecessors, ?_⟩
  intro rest shared c₁ c fr first run top again
  have left : HasLeft blocks f rest c := run.invariant
    (Q := HasLeft blocks f rest)
    (fun _ above held done => hasLeft_step body noPredecessors held done above)
    (leaves body noPredecessors rfl rfl (List.nil_append _).symm first run.start)
  obtain ⟨upper, fr', pre, frames, -, split, behind⟩ := left
  obtain rfl : upper = [] := by
    rw [top] at frames
    simpa using congrArg List.length frames
  obtain ⟨rfl, -⟩ := List.cons.inj (top.symm.trans frames)
  rw [again.1, again.2] at split
  exact behind again.1 (by simpa using split)

theorem Plain.targets {code : List Inst} (plain : Plain code) : code.flatMap Inst.targets = [] := by
  apply List.flatMap_eq_nil_iff.mpr
  intro i member
  have straight := plain i member
  cases i <;> simp_all [Inst.isPlain, Inst.targets]

theorem IfFalse.entry {l : Label} (untaken : IfFalse s l) : entryLabel = l ↔
    ∃ next, s.next = some next ∧ next.isUnconditionalBranch = true ∧
      (next.operands[0]?).bind MachineOperand.mbb? = some 0 := by
  cases untaken with
  | folded next b found unconditional operand bound =>
    simpa [entryLabel, found, unconditional, operand] using eq_comm
  | split next found other => simp [entryLabel, found, other]
  | fallthrough last bound => simp [entryLabel, last]

theorem Chunk.targets_entry {T : StackPointerTracker} {cur cur' : Label} {code : List Inst}
    (chunk : Chunk cx s minst (dispatch cx minst T) cur code cur') :
    entryLabel ∈ code.flatMap Inst.targets ↔ 0 ∈ s.branchTargets cx minst := by
  unfold Site.branchTargets
  have transfer : ∀ path ∈ [Path.ret, .indirect, .jump, .branch, .call],
      dispatch cx minst T = path → dispatch cx minst ∅ = path :=
    fun path inside here => dispatch_congr inside here
  cases chunk with
  | ret here => simp [transfer _ (by simp) here, Inst.targets]
  | indirect here plain =>
    simp [transfer _ (by simp) here, Inst.targets, plain.targets, (plain_reload cx).targets]
  | folded here behind => simp [transfer _ (by simp) here, behind]
  | jump here behind operand bound =>
    simp [transfer _ (by simp) here, behind, operand, Inst.targets, entryLabel, eq_comm]
  | branch here plain operand bound untaken =>
    rw [transfer _ (by simp) here]
    simp only [List.flatMap_append, plain.targets, Inst.targets, List.flatMap_cons, List.flatMap_nil,
      operand, Option.toList_some, List.nil_append, List.append_nil, List.mem_cons, untaken.entry,
      List.not_mem_nil, or_false, List.singleton_append]
    refine or_congr ?_ (by cases s.next <;> simp)
    simp [entryLabel]
  | call here operand =>
    cases cx.functionsNop <;>
      simp [transfer _ (by simp) here, Inst.targets, (plain_save cx).targets, (plain_reload cx).targets]
  | plain here straight =>
    rw [straight.targets]
    cases path : dispatch cx minst ∅ with
    | jump =>
      have back : dispatch cx minst T = .jump := dispatch_congr (by simp) path
      simp [back] at here
    | branch =>
      have back : dispatch cx minst T = .branch := dispatch_congr (by simp) path
      simp [back] at here
    | _ => simp

theorem saves_targets {save : List Inst} (plain : Plain save) (code : List Inst) :
    (saveRegistersBeforeReturn save code).flatMap Inst.targets = code.flatMap Inst.targets := by
  induction code with
  | nil => rfl
  | cons i rest ih =>
    by_cases ret : i = .retVoid
    · subst ret
      simp [plain.targets]
    · simp [saveRegistersBeforeReturn_cons save ret, ih]

theorem liftedBody_targets {adds : List Inst} (plain : Plain adds) (fin : Builder) (l : Label) :
    (liftedBody cx adds fin l).flatMap Inst.targets = (fin.blocks l).flatMap Inst.targets := by
  by_cases entry : l = entryLabel
  · subst entry
    simp [plain.targets, saves_targets (plain_save cx)]
  · rw [liftedBody_other entry, saves_targets (plain_save cx)]

/-- Some block of the builder branches to the entry block. -/
def TargetsEntry (st : Builder) : Prop := ∃ l, entryLabel ∈ (st.blocks l).flatMap Inst.targets

theorem Builder.Extends.targetsEntry {st st' : Builder} (ext : st.Extends st')
    (targets : TargetsEntry st) : TargetsEntry st' := by
  obtain ⟨l, member⟩ := targets
  obtain ⟨more, whole⟩ := ext l
  exact ⟨l, by rw [← whole, List.flatMap_append]; exact List.mem_append_left _ member⟩

theorem Appends.targetsEntry {st st' : Builder} {code : List Inst} (appends : Appends s st st' code) :
    TargetsEntry st' ↔ TargetsEntry st ∨ entryLabel ∈ code.flatMap Inst.targets := by
  constructor
  · rintro ⟨l, member⟩
    by_cases here : l = st.cur
    · subst here
      rw [appends.here, List.flatMap_append, List.mem_append] at member
      exact member.imp_left fun before => ⟨_, before⟩
    · obtain ⟨loads, more, plain, -⟩ := appends.loads l here
      rw [more, List.flatMap_append, plain.targets, List.append_nil] at member
      exact .inl ⟨l, member⟩
  · rintro (before | member)
    · exact appends.extends.targetsEntry before
    · refine ⟨st.cur, ?_⟩
      rw [appends.here, List.flatMap_append]
      exact List.mem_append_right _ member

theorem terminator_targetsEntry {st st' : Builder} (done : fillTerminator cx s st = .ok st')
    (targets : TargetsEntry st') : TargetsEntry st := by
  obtain ⟨last, -, ⟨-, rfl⟩ | ⟨-, -, ⟨-, rfl⟩ | ⟨-, -, rfl⟩⟩⟩ := fillTerminator_ok done
  · exact targets
  · have appends : Appends s st (st.emit [.retVoid]) [.retVoid] := appends_emit fun _ => rfl
    simpa [appends.targetsEntry, Inst.targets] using targets
  · have appends : Appends s st (st.emit [.br (.mbb (s.block + 1))]) [.br (.mbb (s.block + 1))] :=
      appends_emit fun _ => rfl
    simpa [appends.targetsEntry, Inst.targets, entryLabel] using targets

theorem targetsEntry_iff {addrs : FunctionAddresses} {fin : Builder}
    (whole : finalBuilder cx mf addrs = .ok fin) (blocks : mf.blocks ≠ []) :
    TargetsEntry fin ↔ ∃ b mbb i minst, mf.blocks[b]? = some mbb ∧ mbb[i]? = some minst ∧
      0 ∈ (mf.site b mbb i).branchTargets cx minst := by
  constructor
  · intro targets
    by_contra none
    have never : ∀ {b mbb i st}, mf.blocks[b]? = some mbb → i ≤ mbb.length →
        builderAt cx mf addrs b i = .ok st → ¬TargetsEntry st := by
      refine fun found bound at_ => builder_induction whole (P := fun _ _ st => ¬TargetsEntry st)
        ?_ ?_ ?_ found bound at_
      · intro st start
        obtain ⟨spReg, -, builder⟩ := builderAt_zero whole blocks
        obtain rfl := Except.ok.inj (builder.symm.trans start)
        rintro ⟨l, member⟩
        by_cases entry : l = entryLabel
        · subst entry
          simp [(plain_materialize cx.stats).targets] at member
        · simp [initialBuilder_other entry] at member
      · intro b mbb i minst st st' code found here lifting before after
        obtain now | member := lifting.appends.targetsEntry.mp after
        · exact before now
        · exact none ⟨b, mbb, i, minst, found, here, lifting.chunk.targets_entry.mp member⟩
      · intro b mbb st st' found bound terminator before after
        exact before (terminator_targetsEntry terminator after)
    obtain ⟨b, mbb, st, found, builder, terminator⟩ := fin_last whole blocks
    exact never found (Nat.le_refl _) builder (terminator_targetsEntry terminator targets)
  · rintro ⟨b, mbb, i, minst, found, here, named⟩
    obtain ⟨st, st', code, lifting⟩ := instrLifting whole found here
    exact lifting.rest.targetsEntry
      (lifting.appends.targetsEntry.mpr (.inr (lifting.chunk.targets_entry.mpr named)))

/-- Registers are loaded once per invocation of a lifted function exactly when no
branch instruction of the function names its first block. -/
theorem loadsOnce_iff {finfo : Option FileInfo} {stackSize : Nat} {liftedPrefix : String}
    (module : bleachModule cx mfs addrs finfo stackSize liftedPrefix = .ok M) {f : FuncId}
    {blocks : Label → List Inst} (found : mfs[f]? = some mf) (body : M.body f = some blocks) :
    LoadsOnce M f blocks ↔ ∀ b mbb i minst, mf.blocks[b]? = some mbb → mbb[i]? = some minst →
      0 ∉ (mf.site b mbb i).branchTargets cx minst := by
  obtain ⟨funcs, adds, -, lifted, -, -, -⟩ := lifted_of_bleachModule module
  obtain ⟨mf', fin, found', nonempty, whole, rfl⟩ := lifted.body body
  obtain rfl := Option.some.inj (found.symm.trans found')
  have reached : TargetsEntry fin ↔ ∃ l, ∃ i ∈ liftedBody cx adds fin l, entryLabel ∈ i.targets := by
    simp only [TargetsEntry, ← List.mem_flatMap, liftedBody_targets lifted.plain_adds]
  constructor
  · intro once b mbb i minst block here named
    obtain ⟨l, i, member, target⟩ := reached.mp
      ((targetsEntry_iff whole nonempty).mpr ⟨b, mbb, i, minst, block, here, named⟩)
    exact once.noPredecessors l i member target
  · intro unnamed
    apply loadsOnce_of_noPredecessors body
    intro l i member target
    obtain ⟨b, mbb, i, minst, block, here, named⟩ :=
      (targetsEntry_iff whole nonempty).mp (reached.mpr ⟨l, i, member, target⟩)
    exact unnamed b mbb i minst block here named

namespace RiscV

def countingLoop : MachineFunction := ⟨"loop", [[addi X10 X10 1, beq X10 X11 0], [ret]]⟩

/-- A loop that starts at the first instruction of its function. -/
theorem countingLoop_reloads : ¬∃ blocks, (module [countingLoop] none).body 0 = some blocks ∧
    LoadsOnce (module [countingLoop] none) 0 blocks := by
  rintro ⟨blocks, body, once⟩
  obtain rfl := Option.some.inj body
  exact once.noPredecessors entryLabel (.condBr (.ssa (.result 0 1)) (.mbb 0) (.mbb 1)) (by decide)
    (by decide)

def loopBehindEntry : MachineFunction :=
  ⟨"loop", [[addi X10 X0 0], [addi X10 X10 1, beq X10 X11 1], [ret]]⟩

theorem loopBehindEntry_loadsOnce : ∃ blocks, (module [loopBehindEntry] none).body 0 = some blocks ∧
    LoadsOnce (module [loopBehindEntry] none) 0 blocks := by
  refine ⟨_, rfl, (@loadsOnce_iff World context [loopBehindEntry] loopBehindEntry (fun _ => none)
    (module [loopBehindEntry] none) none 64 "" rfl 0 _ rfl rfl).mpr ?_⟩
  intro b mbb i minst block here
  obtain ⟨inside, rfl⟩ := List.getElem?_eq_some_iff.mp block
  obtain ⟨inside', rfl⟩ := List.getElem?_eq_some_iff.mp here
  revert i
  revert b
  decide

end RiscV
end Bleach
