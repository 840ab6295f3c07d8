import Bleach.CallProtocol

/-! A direct call at the end of a block. `fill_ir_for_bb` closes every such block
with a return, so the lifted function never continues behind the call. -/
namespace Bleach
open Transition
variable {W : Type} {w : Nat → Nat} {cx : Context W} {mfs : List MachineFunction}
  {mf : MachineFunction} {mbb : MachineBasicBlock} {minst : MachineInstr}
  {addrs : FuncId → FunctionAddresses} {adds : List Inst} {M : IRModule W}

/-- The frame on top of `rest` goes on to the start of block `b` of its function. -/
def Continues (cx : Context W) (mfs : List MachineFunction) (addrs : FuncId → FunctionAddresses)
    (M : IRModule W) (f : FuncId) (b : BlockId) (rest : List (Frame M.widths))
    (c : Config M.widths W) : Prop :=
  ∃ c' fr, Within M.step (Config.On rest) c c' ∧ c'.frames = fr :: rest ∧ fr.At cx mfs addrs f b 0

theorem straight_to_return {tail : List Inst} {fr : Frame M.widths} {todo : List Inst}
    {rest : List (Frame M.widths)} {shared : Shared M.widths W} {c : Config M.widths W}
    (plain : Plain todo) (code : fr.code = todo ++ .retVoid :: tail)
    (run : Within M.step (Config.On rest) ⟨fr :: rest, shared⟩ c) :
    ∃ fr' todo', c.frames = fr' :: rest ∧ fr'.label = fr.label ∧ Plain todo' ∧
      fr'.code = todo' ++ .retVoid :: tail := by
  refine run.invariant
    (Q := fun c => ∃ fr' todo', c.frames = fr' :: rest ∧ fr'.label = fr.label ∧ Plain todo' ∧
      fr'.code = todo' ++ .retVoid :: tail) ?_ ⟨fr, todo, rfl, rfl, plain, code⟩
  rintro c c' - above ⟨fr', todo', top, label, plain', code'⟩ done
  cases stepped done with
  | plain at_ one =>
    obtain ⟨rfl, rfl⟩ := List.cons.inj top
    cases todo' with
    | nil =>
      obtain rfl := (List.cons.inj (at_.symm.trans code')).1
      cases one
    | cons i later =>
      obtain ⟨-, rfl⟩ := List.cons.inj (at_.symm.trans code')
      exact ⟨_, later, rfl, label, fun j member => plain' j (List.mem_cons_of_mem _ member), rfl⟩
  | ret at_ =>
    obtain ⟨rfl, rfl⟩ := List.cons.inj top
    simp [Config.On] at above
  | @jump fr₁ _ _ i _ _ _ at_ target _ =>
    obtain ⟨rfl, rfl⟩ := List.cons.inj top
    cases todo' with
    | nil =>
      obtain rfl := (List.cons.inj (at_.symm.trans code')).1
      cases target
    | cons j later =>
      obtain ⟨rfl, -⟩ := List.cons.inj (at_.symm.trans code')
      have straight := plain' i List.mem_cons_self
      cases i <;> simp_all [Inst.isPlain, Inst.targets]
  | @enter fr₁ _ _ i _ _ _ at_ calls _ =>
    obtain ⟨rfl, rfl⟩ := List.cons.inj top
    cases todo' with
    | nil =>
      obtain rfl := (List.cons.inj (at_.symm.trans code')).1
      simp at calls
    | cons j later =>
      obtain ⟨rfl, -⟩ := List.cons.inj (at_.symm.trans code')
      have straight := plain' i List.mem_cons_self
      obtain rfl | ⟨v, rfl, -⟩ := calls <;> simp [Inst.isPlain] at straight

theorem returning_ne {save todo : List Inst} (plain : Plain save) (straight : Plain todo)
    (tail : List Inst) : todo ++ .retVoid :: tail ≠ saveRegistersBeforeReturn save tail := by
  intro same
  by_cases ret : .retVoid ∈ tail
  · obtain ⟨before, later, rfl, first⟩ := List.eq_append_cons_of_mem ret
    rw [saveRegistersBeforeReturn_append _ first, saveRegistersBeforeReturn_ret,
      ← List.append_assoc] at same
    have equal := prefix_of_first straight.noRet
      (List.not_mem_append first plain.noRet) same
    rw [equal] at same
    have := congrArg List.length (List.append_cancel_left same)
    simp at this
    omega
  · have whole := saveRegistersBeforeReturn_append save ret []
    rw [List.append_nil, saveRegistersBeforeReturn, List.append_nil] at whole
    rw [whole] at same
    exact ret (same ▸ by simp)

theorem block_end_code (lifted : Lifted cx mfs addrs adds M) {f : FuncId} {b : BlockId}
    {fr : Frame w} (found : mfs[f]? = some mf) (block : mf.blocks[b]? = some mbb)
    (last : mbb.getLast? = some minst) (call : isCall minst = true)
    (noReturn : isReturn cx minst = false) (noBranch : isBranch minst = false)
    (at_ : fr.At cx mfs addrs f b mbb.length) : ∃ tail, fr.code = cx.save ++ .retVoid :: tail ∧
      ∀ fr' : Frame w, b + 1 < mf.blocks.length → fr'.At cx mfs addrs f (b + 1) 0 →
        fr'.label = fr.label → fr'.code = saveRegistersBeforeReturn cx.save tail := by
  obtain ⟨rfl, mf', found', pc⟩ := at_
  obtain rfl := Option.some.inj (found.symm.trans found')
  obtain ⟨fin, whole, -⟩ := lifted.functions found
  obtain ⟨st, st', builder, terminator, ext, next, -⟩ := builderAt_end whole block
  obtain ⟨last', found'', shape⟩ := fillTerminator_ok terminator
  obtain rfl := Option.some.inj (last.symm.trans found'')
  obtain rfl : st' = st.emit [.retVoid] := by
    simpa [call, noReturn, noBranch] using shape
  have appends : Appends (mf.site b mbb 0) st (st.emit [.retVoid]) [.retVoid] :=
    appends_emit fun _ => rfl
  have split := codeAt_appends cx appends ext
  rw [pcAt_ok whole builder] at pc
  obtain ⟨label, code⟩ := Prod.mk.inj (Except.ok.inj pc)
  refine ⟨_, code.symm.trans split, ?_⟩
  rintro fr' bound ⟨-, mf', found', pc'⟩ same
  obtain rfl := Option.some.inj (found.symm.trans found')
  rw [pcAt_ok whole (next bound)] at pc'
  obtain ⟨label', code'⟩ := Prod.mk.inj (Except.ok.inj pc')
  have cur : Label.mbb (b + 1) = st.cur := label'.trans (same.trans label.symm)
  rw [← code', codeAt]
  simp only [cur]
  rfl

/-- A frame with nothing but copies in front of a return does not continue. -/
theorem never_continues {f : FuncId} {b : BlockId} {waiting : Frame M.widths}
    {copies code tail : List Inst} {rest : List (Frame M.widths)} {shared : Shared M.widths W}
    (plain : Plain copies) (split : waiting.code = copies ++ code)
    (returns : code = cx.save ++ .retVoid :: tail)
    (next : ∀ fr' : Frame M.widths, fr'.At cx mfs addrs f b 0 → fr'.label = waiting.label →
      fr'.code = saveRegistersBeforeReturn cx.save tail) :
    ¬Continues cx mfs addrs M f b rest ⟨waiting :: rest, shared⟩ := by
  subst returns
  rintro ⟨c, fr, run, top, at_⟩
  obtain ⟨fr', todo, top', label, straight, code'⟩ :=
    straight_to_return (plain.append (plain_save cx)) (by rw [split, List.append_assoc]) run
  obtain ⟨rfl, -⟩ := List.cons.inj (top.symm.trans top')
  exact returning_ne (plain_save cx) straight tail (code'.symm.trans (next fr at_ label))

theorem waits_then_returns (lifted : Lifted cx mfs addrs adds M) {f : FuncId} {b : BlockId}
    {waiting : Frame M.widths} {code tail : List Inst} {rest : List (Frame M.widths)}
    {shared : Shared M.widths W}
    (split : waiting.code = (if cx.functionsNop then [] else cx.reload) ++ code)
    (returns : code = cx.save ++ .retVoid :: tail)
    (next : ∀ fr' : Frame M.widths, fr'.At cx mfs addrs f b 0 → fr'.label = waiting.label →
      fr'.code = saveRegistersBeforeReturn cx.save tail) :
    ¬Continues cx mfs addrs M f b rest ⟨waiting :: rest, shared⟩ ∧
    (cx.stats.Disjoint → ∃ shared', Reaches M.step ⟨waiting :: rest, shared⟩ ⟨rest, shared'⟩) := by
  constructor
  · have straight : Plain (if cx.functionsNop then [] else cx.reload) := by
      split_ifs
      · exact .nil
      · exact plain_reload cx
    exact never_continues straight split returns next
  · intro disjoint
    subst returns
    have loads : ∃ d, execCode M (if cx.functionsNop then [] else cx.reload)
        (waiting.data shared) = some d := by
      split_ifs
      · exact ⟨_, rfl⟩
      · obtain ⟨d, done, -⟩ := lifted.run_reload disjoint (waiting.data shared)
        exact ⟨d, done⟩
    obtain ⟨d, loaded⟩ := loads
    obtain ⟨d', saved, -⟩ := lifted.run_save disjoint d
    have whole : execCode M ((if cx.functionsNop then [] else cx.reload) ++ cx.save)
        (waiting.data shared) = some d' := by
      rw [execCode_append, loaded]
      exact saved
    have run := run_code rest (split.trans (List.append_assoc ..).symm) whole
    exact ⟨d'.shared, run.trans (.single (IRModule.step_ret rfl))⟩

/-- A direct call that ends its block is emitted like any other, but the function
returns as soon as its callee does. It never continues with the next block. -/
theorem block_ending_call_returns {finfo : Option FileInfo} {stackSize : Nat}
    {liftedPrefix : String}
    (module : bleachModule cx mfs addrs finfo stackSize liftedPrefix = .ok M) {f : FuncId}
    {b : BlockId} (found : mfs[f]? = some mf) (block : mf.blocks[b]? = some mbb)
    (last : mbb.getLast? = some minst) (call : isDirectCall cx minst = true)
    (successor : b + 1 < mf.blocks.length) :
    (∀ fr : Frame M.widths, fr.At cx mfs addrs f b (mbb.length - 1) →
      ∃ callee code, minst.globalOperand = some callee ∧ fr.code = cx.save ++ .call callee :: code ∧
        Frame.WaitsAt cx mfs addrs { fr with code := code } f b (mbb.length - 1)) ∧
    ∀ (waiting : Frame M.widths) rest shared,
      waiting.WaitsAt cx mfs addrs f b (mbb.length - 1) →
      ¬Continues cx mfs addrs M f (b + 1) rest ⟨waiting :: rest, shared⟩ ∧
      (cx.stats.Disjoint → ∃ shared', Reaches M.step ⟨waiting :: rest, shared⟩ ⟨rest, shared'⟩) := by
  obtain ⟨funcs, adds, -, lifted, -, -, -⟩ := lifted_of_bleachModule module
  have nonempty : mbb ≠ [] := by
    rintro rfl
    cases last
  have here : mbb[mbb.length - 1]? = some minst := by rw [← last, List.getLast?_eq_getElem?]
  have position : mbb.length - 1 + 1 = mbb.length :=
    Nat.sub_add_cancel (List.length_pos_of_ne_nil nonempty)
  refine ⟨fun fr at_ => lifted.call_code found block here call at_, ?_⟩
  rintro waiting rest shared ⟨code, split, behind⟩
  rw [position] at behind
  simp only [isDirectCall, Bool.and_eq_true, Bool.not_eq_true'] at call
  obtain ⟨⟨⟨isCall, noReturn⟩, -⟩, noBranch⟩ := call
  obtain ⟨tail, returns, next⟩ :=
    block_end_code lifted found block last isCall noReturn noBranch behind
  exact waits_then_returns lifted split returns fun fr' => next fr' successor

namespace RiscV

def callThenLoop : MachineFunction :=
  ⟨"caller", [[call 1], [addi X10 X10 1, beq X10 X11 1], [ret]]⟩

def callBeforeLoop : List MachineFunction := [callThenLoop, ⟨"leaf", [[ret]]⟩]

/-- The frame of `caller` when `leaf` has returned. -/
def leafReturned : Frame (module callBeforeLoop none).widths :=
  let fr := frameAt _ callBeforeLoop 0 0 1
  { fr with code := context.reload ++ fr.code }

/-- The loop behind the call is never entered. -/
theorem callBeforeLoop_truncated :
    ¬∀ (waiting : Frame (module callBeforeLoop none).widths) rest shared,
      waiting.WaitsAt context callBeforeLoop (fun _ => none) 0 0 0 →
      Continues context callBeforeLoop (fun _ => none) (module callBeforeLoop none) 0 1 rest
        ⟨waiting :: rest, shared⟩ := by
  intro continues
  obtain ⟨funcs, adds, -, lifted, -, -, -⟩ :=
    @lifted_of_bleachModule World context callBeforeLoop (fun _ => none) (module callBeforeLoop none)
      none 64 "" rfl
  have behind : (frameAt (module callBeforeLoop none).widths callBeforeLoop 0 0 1).At context
      callBeforeLoop (fun _ => none) 0 0 1 := ⟨rfl, _, rfl, rfl⟩
  have waits : leafReturned.WaitsAt context callBeforeLoop (fun _ => none) 0 0 0 :=
    ⟨_, rfl, behind⟩
  have block : callThenLoop.blocks[0]? = some [call 1] := rfl
  obtain ⟨tail, returns, next⟩ := block_end_code lifted rfl block rfl rfl rfl rfl behind
  have split : leafReturned.code = (if context.functionsNop then [] else context.reload) ++
      (frameAt (module callBeforeLoop none).widths callBeforeLoop 0 0 1).code := rfl
  exact (waits_then_returns lifted split returns fun fr' => next fr' (by decide)).1
    (continues leafReturned [] (zeroed _) waits)

theorem callBeforeLoop_returns : ∃ shared,
    Reaches (module callBeforeLoop none).step ⟨[leafReturned], zeroed _⟩ ⟨[], shared⟩ := by
  obtain ⟨-, returns⟩ := @block_ending_call_returns World context callBeforeLoop _ _ _
    (fun _ => none) (module callBeforeLoop none) none 64 "" rfl 0 0 rfl rfl rfl rfl (by decide)
  exact (returns leafReturned [] (zeroed _) ⟨_, rfl, rfl, _, rfl, rfl⟩).2 (by decide)

end RiscV
end Bleach
