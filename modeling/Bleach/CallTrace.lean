import Bleach.Lifter.Shape
import Bleach.IRRun
import Bleach.RiscV

/-! The direct calls on the paths of a function. A path is fixed by the decisions
its conditional branches take; the machine function and the lifted function are
run along it, and the callees they meet are compared. -/
namespace Bleach
open Transition
variable {W : Type} {cx : Context W} {mfs : List MachineFunction} {mf : MachineFunction}
  {addrs : FunctionAddresses} {adds : List Inst} {fin : Builder} {minst : MachineInstr}

/-- A function somewhere on a path: the place it has reached, unless it has
returned, the decisions still to be taken and the callees met so far. -/
structure Trace (P : Type) where
  place : Option P
  decisions : List Bool
  callees : List FuncId

/-- The global callee of a call instruction. -/
def directCallee (minst : MachineInstr) : Option FuncId :=
  if isCall minst then minst.globalOperand else none

/-- An unconditional branch to a global. -/
def isTailCall (minst : MachineInstr) : Bool :=
  minst.isUnconditionalBranch && minst.operands.any MachineOperand.isGlobal

/-- The branch leaves a return address in some register. -/
def linksReturnAddress (cx : Context W) (minst : MachineInstr) : Bool :=
  minst.operands.any fun
    | .reg r isDef _ => isDef && (cx.instrs.constReg? cx.tm r).isNone
    | _ => false

/-- A tail call, or an indirect branch that is no call: the machine function is left. -/
def leavesFunction (cx : Context W) (minst : MachineInstr) : Bool :=
  isTailCall minst || (isIndirectBranch cx minst && !linksReturnAddress cx minst)

/-- The next instruction in layout order. -/
def nextPlace (mf : MachineFunction) (b : BlockId) (mbb : MachineBasicBlock) (i : Nat) :
    Option (BlockId × Nat) :=
  if i + 1 < mbb.length then some (b, i + 1)
  else if b + 1 < mf.blocks.length then some (b + 1, 0)
  else none

def pathStep (cx : Context W) (mf : MachineFunction) (s : Trace (BlockId × Nat)) :
    Option (Trace (BlockId × Nat)) := do
  let (b, i) ← s.place
  let mbb ← mf.blocks[b]?
  let minst ← mbb[i]?
  let callees := s.callees ++ (directCallee minst).toList
  match dispatch cx minst ∅ with
  | .ret => some ⟨none, s.decisions, callees⟩
  | .jump => do
    let t ← minst.mbbOperand
    some ⟨some (t, 0), s.decisions, callees⟩
  | .branch =>
    match s.decisions with
    | [] => none
    | true :: decisions => do
      let t ← (minst.operands[2]?).bind MachineOperand.mbb?
      some ⟨some (t, 0), decisions, callees⟩
    | false :: decisions => do
      let place ← nextPlace mf b mbb i
      some ⟨some place, decisions, callees⟩
  | _ =>
    if leavesFunction cx minst then some ⟨none, s.decisions, callees⟩
    else do
      let place ← nextPlace mf b mbb i
      some ⟨some place, s.decisions, callees⟩

/-- Calls come back to the next instruction; only direct ones are recorded. -/
def flowStep (blocks : Label → List Inst) (s : Trace (Label × List Inst)) :
    Option (Trace (Label × List Inst)) :=
  match s.place with
  | some (l, i :: code) =>
    match i with
    | .retVoid => some { s with place := none }
    | .br dest => some { s with place := some (dest, blocks dest) }
    | .condBr _ ifTrue ifFalse =>
      match s.decisions with
      | [] => none
      | d :: decisions =>
        let dest := if d then ifTrue else ifFalse
        some ⟨some (dest, blocks dest), decisions, s.callees⟩
    | .call g => some ⟨some (l, code), s.decisions, s.callees ++ [g]⟩
    | _ => some { s with place := some (l, code) }
  | _ => none

theorem flow_plain {blocks : Label → List Inst} {before : List Inst} (plain : Plain before)
    (l : Label) (code : List Inst) (decisions : List Bool) (callees : List FuncId) :
    Reaches (flowStep blocks) ⟨some (l, before ++ code), decisions, callees⟩
      ⟨some (l, code), decisions, callees⟩ := by
  induction before with
  | nil => exact .refl _
  | cons i rest ih =>
    obtain ⟨here, later⟩ := List.forall_mem_cons.mp plain
    refine .head ?_ (ih later)
    cases i <;> simp_all [Inst.isPlain, flowStep]

/-- The call instructions the lifter treats as such: a call with a global callee is
lifted as a call, a tail call ends its block, no other call ends a block that has a
successor, and an indirect branch is a call. -/
structure CallSafe (cx : Context W) (mf : MachineFunction) (b : BlockId) (mbb : MachineBasicBlock)
    (i : Nat) (minst : MachineInstr) : Prop where
  lifted : (directCallee minst).isSome = true → dispatch cx minst ∅ = .call
  tail : isTailCall minst = true → dispatch cx minst ∅ = .call → i + 1 = mbb.length
  ending : i + 1 = mbb.length → b + 1 < mf.blocks.length →
    dispatch cx minst ∅ = .call ∨ dispatch cx minst ∅ = .indirect → isTailCall minst = false →
    isCall minst = false ∧ isBranch minst = false
  indirect : dispatch cx minst ∅ = .indirect → leavesFunction cx minst = false

def PathSafe (cx : Context W) (mf : MachineFunction) (s : Trace (BlockId × Nat)) : Prop :=
  ∀ b i mbb minst, s.place = some (b, i) → mf.blocks[b]? = some mbb → mbb[i]? = some minst →
    CallSafe cx mf b mbb i minst

/-- The lifted function stands where the machine function stands. -/
def Stands (cx : Context W) (mf : MachineFunction) (addrs : FunctionAddresses) (adds : List Inst)
    (fin : Builder) (b i : Nat) (l : Label) (code : List Inst) : Prop :=
  (∃ st before, builderAt cx mf addrs b i = .ok st ∧ Own b i st.cur ∧
    (∀ mbb minst, mf.blocks[b]? = some mbb → mbb[i]? = some minst → ¬Folded cx mbb i minst) ∧
    l = st.cur ∧ Plain before ∧ code = before ++ codeAt cx fin st) ∨
  ∃ mbb minst t, mf.blocks[b]? = some mbb ∧ mbb[i]? = some minst ∧ Folded cx mbb i minst ∧
    minst.mbbOperand = some t ∧ t < mf.blocks.length ∧ l = .mbb t ∧
    code = liftedBody cx adds fin (.mbb t)

inductive Follows (cx : Context W) (mf : MachineFunction) (addrs : FunctionAddresses)
    (adds : List Inst) (fin : Builder) :
    Trace (BlockId × Nat) → Trace (Label × List Inst) → Prop where
  | inside {b i l code decisions callees} (stands : Stands cx mf addrs adds fin b i l code) :
      Follows cx mf addrs adds fin ⟨some (b, i), decisions, callees⟩
        ⟨some (l, code), decisions, callees⟩
  | left {decisions callees} :
      Follows cx mf addrs adds fin ⟨none, decisions, callees⟩ ⟨none, decisions, callees⟩

/-- The lifted function runs on to a place that follows the machine function. -/
def Catches (cx : Context W) (mf : MachineFunction) (addrs : FunctionAddresses) (adds : List Inst)
    (fin : Builder) (f : Trace (Label × List Inst)) (m : Trace (BlockId × Nat)) : Prop :=
  ∃ f', Reaches (flowStep (liftedBody cx adds fin)) f f' ∧ Follows cx mf addrs adds fin m f'

theorem Catches.after {f f' : Trace (Label × List Inst)} {m : Trace (BlockId × Nat)}
    (path : Reaches (flowStep (liftedBody cx adds fin)) f f')
    (rest : Catches cx mf addrs adds fin f' m) : Catches cx mf addrs adds fin f m := by
  obtain ⟨f'', path', follows⟩ := rest
  exact ⟨f'', path.trans path', follows⟩

theorem stands_start (shape : WellShaped cx mf) (whole : finalBuilder cx mf addrs = .ok fin)
    (plain : Plain adds) {t : BlockId} (bound : t < mf.blocks.length) :
    Stands cx mf addrs adds fin t 0 (.mbb t) (liftedBody cx adds fin (.mbb t)) := by
  obtain ⟨st, before, builder, cur, straight, code⟩ :=
    block_start shape whole plain (List.getElem?_eq_getElem bound)
  refine .inl ⟨st, before, builder, .inl cur, ?_, cur.symm, straight, code⟩
  rintro mbb minst - - ⟨-, j, prev, first, -⟩
  cases first

/-- Behind an instruction that contains no transfer the lifted function stands at
the next instruction in layout order. -/
theorem catches_next (shape : WellShaped cx mf) (whole : finalBuilder cx mf addrs = .ok fin)
    (plain : Plain adds) {b i : Nat} {mbb : MachineBasicBlock} {st' : Builder}
    (block : mf.blocks[b]? = some mbb) (here : mbb[i]? = some minst)
    (next : builderAt cx mf addrs b (i + 1) = .ok st') (own : Own b (i + 1) st'.cur)
    (other : i + 1 < mbb.length → minst.isConditionalBranch = false)
    (open_ : i + 1 = mbb.length → b + 1 < mf.blocks.length →
      isBranch minst = false ∧ isReturn cx minst = false ∧ isCall minst = false)
    {place : BlockId × Nat} (moves : nextPlace mf b mbb i = some place) (decisions : List Bool)
    (callees : List FuncId) : Catches cx mf addrs adds fin
      ⟨some (st'.cur, codeAt cx fin st'), decisions, callees⟩ ⟨some place, decisions, callees⟩ := by
  unfold nextPlace at moves
  split_ifs at moves with inside after
  · obtain rfl := Option.some.inj moves
    refine ⟨_, .refl _, .inside (.inl ⟨st', [], next, own, ?_, rfl, .nil, rfl⟩)⟩
    rintro mbb' next block' - ⟨-, j, prev, same, here', conditional⟩
    obtain rfl := Option.some.inj (block.symm.trans block')
    obtain rfl := Nat.succ.inj same
    obtain rfl := Option.some.inj (here.symm.trans here')
    simp [other inside] at conditional
  · obtain rfl := Option.some.inj moves
    have bound := (List.getElem?_eq_some_iff.mp here).1
    have length : i + 1 = mbb.length := by omega
    obtain ⟨branch, ret, call⟩ := open_ length after
    rw [length] at next
    obtain ⟨call', -⟩ | ⟨-, -, rest, code⟩ :=
      codeAt_end whole block (getLast?_of_end here length) next branch ret
    · simp [call] at call'
    · refine ⟨_, .single ?_, .inside (stands_start shape whole plain after)⟩
      rw [code]
      rfl

theorem directCallee_none {b i : Nat} {mbb : MachineBasicBlock} (safe : CallSafe cx mf b mbb i minst)
    (other : dispatch cx minst ∅ ≠ .call) : directCallee minst = none := by
  cases callee : directCallee minst with
  | none => rfl
  | some f => exact absurd (safe.lifted (by simp [callee])) other

theorem isCall_of_tail (tail : isTailCall minst = true) : isCall minst = true := by
  simp only [isTailCall, Bool.and_eq_true] at tail
  simp [isCall, tail]

theorem dispatch_call_iff {T : StackPointerTracker} (here : dispatch cx minst T = .call) :
    isCall minst = true ∧ isReturn cx minst = false ∧ isBranch minst = false := by
  unfold dispatch at here
  split_ifs at here
  all_goals simp_all

theorem dispatch_indirect {T : StackPointerTracker} (here : dispatch cx minst T = .indirect) :
    isReturn cx minst = false := by
  unfold dispatch at here
  split_ifs at here
  all_goals simp_all

/-- Behind a tail call the lifted function returns. -/
theorem tail_code (whole : finalBuilder cx mf addrs = .ok fin) {b i : Nat} {mbb : MachineBasicBlock}
    {st : Builder} (block : mf.blocks[b]? = some mbb) (here : mbb[i]? = some minst)
    (last : i + 1 = mbb.length) (call : dispatch cx minst ∅ = .call)
    (builder : builderAt cx mf addrs b (i + 1) = .ok st) :
    ∃ rest, codeAt cx fin st = cx.save ++ .retVoid :: rest := by
  obtain ⟨isCall, isReturn, isBranch⟩ := dispatch_call_iff call
  rw [last] at builder
  obtain ⟨-, code⟩ | ⟨other, -⟩ :=
    codeAt_end whole block (getLast?_of_end here last) builder isBranch isReturn
  · exact code
  · simp [isCall] at other

/-- Where a conditional branch that is not taken goes. -/
theorem stands_untaken (shape : WellShaped cx mf) (whole : finalBuilder cx mf addrs = .ok fin)
    (plain : Plain adds) {b i : Nat} {mbb : MachineBasicBlock} {st st' : Builder} {code : List Inst}
    (block : mf.blocks[b]? = some mbb) (here : mbb[i]? = some minst)
    (lifting : InstrLifting cx mf addrs fin b mbb i minst st st' code) (own : Own b i st.cur)
    (path : dispatch cx minst ∅ = .branch) (untaken : IfFalse (mf.site b mbb i) st'.cur)
    {place : BlockId × Nat} (moves : nextPlace mf b mbb i = some place) :
    Stands cx mf addrs adds fin place.1 place.2 st'.cur (liftedBody cx adds fin st'.cur) := by
  obtain ⟨-, -, conditional⟩ := dispatch_branch path
  have inside : ∀ {next}, mbb[i + 1]? = some next → place = (b, i + 1) := by
    intro next found
    have bound := (List.getElem?_eq_some_iff.mp found).1
    simpa [nextPlace, bound] using moves.symm
  generalize target : st'.cur = l at untaken
  cases untaken with
  | folded next t found unconditional operand bound =>
    obtain rfl := inside found
    have jump := (shape.folded block here conditional found unconditional).1
    exact .inr ⟨mbb, next, t, block, found, ⟨jump, i, minst, rfl, here, conditional⟩,
      mbbOperand_first operand, bound, rfl, rfl⟩
  | split next found other =>
    obtain rfl := inside found
    refine .inl ⟨st', [], lifting.next, .inr ⟨i, Nat.lt_succ_self i, target⟩, ?_, target.symm, .nil,
      split_start shape whole adds block here lifting own target⟩
    rintro mbb' next' block' here' ⟨jump, -⟩
    obtain rfl := Option.some.inj (block.symm.trans block')
    obtain rfl := Option.some.inj (here'.symm.trans found)
    exact shape.unfolded block here conditional here' other jump
  | fallthrough last bound =>
    have length : mbb.length ≤ i + 1 := List.getElem?_eq_none_iff.mp last
    obtain rfl : place = (b + 1, 0) := by
      have after : b + 1 < mf.blocks.length := bound
      simpa [nextPlace, Nat.not_lt.mpr length, after] using moves.symm
    exact stands_start shape whole plain bound

theorem leaves_eq (direct : isIndirectBranch cx minst = false) :
    leavesFunction cx minst = isTailCall minst := by
  simp [leavesFunction, direct]

theorem direct_of_dispatch (ret : isReturn cx minst = false)
    (other : dispatch cx minst ∅ ≠ .indirect) : isIndirectBranch cx minst = false := by
  cases indirect : isIndirectBranch cx minst with
  | false => rfl
  | true => exact absurd (by simp [dispatch, ret, indirect]) other

/-- The lifted function in front of the code of an instruction that is safe. -/
structure InFront (cx : Context W) (mf : MachineFunction) (addrs : FunctionAddresses) (fin : Builder)
    (b : BlockId) (mbb : MachineBasicBlock) (i : Nat) (minst : MachineInstr) (st st' : Builder)
    (code : List Inst) : Prop where
  block : mf.blocks[b]? = some mbb
  here : mbb[i]? = some minst
  lifting : InstrLifting cx mf addrs fin b mbb i minst st st' code
  own : Own b i st.cur
  unfolded : ¬Folded cx mbb i minst
  safe : CallSafe cx mf b mbb i minst

namespace InFront
variable {b i : Nat} {mbb : MachineBasicBlock} {st st' : Builder} {code : List Inst}
  {decisions : List Bool} {callees : List FuncId} {m' : Trace (BlockId × Nat)}

theorem chunk (front : InFront cx mf addrs fin b mbb i minst st st' code) {path : Path}
    (transfer : path ∈ [.ret, .indirect, .jump, .branch, .call]) (taken : dispatch cx minst ∅ = path) :
    Chunk cx (mf.site b mbb i) minst path st.cur code st'.cur := by
  have chunk := front.lifting.chunk
  rwa [dispatch_congr transfer taken] at chunk

theorem unconditional (front : InFront cx mf addrs fin b mbb i minst st st' code)
    (shape : WellShaped cx mf) (other : dispatch cx minst ∅ ≠ .branch) (inside : i + 1 < mbb.length) :
    minst.isConditionalBranch = false := by
  cases flag : minst.isConditionalBranch with
  | false => rfl
  | true => exact absurd (shape.branch front.block front.here flag inside) other

theorem catches_ret (front : InFront cx mf addrs fin b mbb i minst st st' code)
    (taken : dispatch cx minst ∅ = .ret)
    (done : pathStep cx mf ⟨some (b, i), decisions, callees⟩ = some m') :
    Catches cx mf addrs adds fin ⟨some (st.cur, codeAt cx fin st), decisions, callees⟩ m' := by
  obtain ⟨-, rfl⟩ := (front.chunk (by simp) taken).of_ret
  have none : directCallee minst = none := directCallee_none front.safe (by simp [taken])
  simp only [pathStep, front.block, front.here, taken, none, Option.bind_eq_bind, Option.bind_some,
    Option.toList_none, List.append_nil] at done
  obtain rfl := Option.some.inj done
  rw [codeAt_appends cx front.lifting.appends front.lifting.rest]
  exact .after (flow_plain (plain_save cx) ..) ⟨_, .single rfl, .left⟩

theorem catches_jump (front : InFront cx mf addrs fin b mbb i minst st st' code)
    (shape : WellShaped cx mf) (whole : finalBuilder cx mf addrs = .ok fin) (plain : Plain adds)
    (taken : dispatch cx minst ∅ = .jump)
    (done : pathStep cx mf ⟨some (b, i), decisions, callees⟩ = some m') :
    Catches cx mf addrs adds fin ⟨some (st.cur, codeAt cx fin st), decisions, callees⟩ m' := by
  obtain ⟨-, ⟨folded, -⟩ | ⟨-, t, operand, bound, rfl⟩⟩ := (front.chunk (by simp) taken).of_jump
  · exact absurd ⟨taken, site_prev.mp folded⟩ front.unfolded
  · have none : directCallee minst = none := directCallee_none front.safe (by simp [taken])
    simp only [pathStep, front.block, front.here, taken, none, operand, Option.bind_eq_bind,
      Option.bind_some, Option.toList_none, List.append_nil] at done
    obtain rfl := Option.some.inj done
    rw [codeAt_appends cx front.lifting.appends front.lifting.rest]
    exact ⟨_, .single rfl, .inside (stands_start shape whole plain bound)⟩

theorem catches_branch (front : InFront cx mf addrs fin b mbb i minst st st' code)
    (shape : WellShaped cx mf) (whole : finalBuilder cx mf addrs = .ok fin) (plain : Plain adds)
    (taken : dispatch cx minst ∅ = .branch)
    (done : pathStep cx mf ⟨some (b, i), decisions, callees⟩ = some m') :
    Catches cx mf addrs adds fin ⟨some (st.cur, codeAt cx fin st), decisions, callees⟩ m' := by
  obtain ⟨before, t, straight, operand, bound, untaken, rfl⟩ :=
    (front.chunk (by simp) taken).of_branch
  have none : directCallee minst = none := directCallee_none front.safe (by simp [taken])
  simp only [pathStep, front.block, front.here, taken, none, operand, Option.bind_eq_bind,
    Option.bind_some, Option.toList_none, List.append_nil] at done
  rw [codeAt_appends cx front.lifting.appends front.lifting.rest, List.append_assoc,
    saveRegistersBeforeReturn_append _ straight.noRet]
  apply Catches.after (flow_plain straight ..)
  cases decisions with
  | nil => cases done
  | cons d decisions =>
    cases d with
    | true =>
      obtain rfl := Option.some.inj done
      exact ⟨_, .single rfl, .inside (stands_start shape whole plain bound)⟩
    | false =>
      obtain ⟨place, moves, same⟩ := Option.bind_eq_some_iff.mp done
      obtain rfl := Option.some.inj same
      exact ⟨_, .single rfl, .inside (stands_untaken shape whole plain front.block front.here
        front.lifting front.own taken untaken moves)⟩

theorem catches_call (front : InFront cx mf addrs fin b mbb i minst st st' code)
    (shape : WellShaped cx mf) (whole : finalBuilder cx mf addrs = .ok fin) (plain : Plain adds)
    (taken : dispatch cx minst ∅ = .call)
    (done : pathStep cx mf ⟨some (b, i), decisions, callees⟩ = some m') :
    Catches cx mf addrs adds fin ⟨some (st.cur, codeAt cx fin st), decisions, callees⟩ m' := by
  have ⟨block, here, lifting, own, _, safe⟩ := front
  obtain ⟨call, ret, -⟩ := dispatch_call_iff taken
  have direct := direct_of_dispatch ret (by simp [taken])
  obtain ⟨cur, callee, operand, rfl⟩ := (front.chunk (by simp) taken).of_call
  have reload : Plain (if cx.functionsNop then [] else cx.reload) := by
    split_ifs
    · exact .nil
    · exact plain_reload cx
  have met : directCallee minst = some callee := by simp [directCallee, call, operand]
  simp only [pathStep, block, here, taken, met, leaves_eq direct, Option.bind_eq_bind,
    Option.bind_some, Option.toList_some] at done
  rw [codeAt_next cx lifting.appends lifting.rest cur (by
    simp [(plain_save cx).noRet, reload.noRet]), List.append_assoc, List.cons_append, ← cur]
  apply Catches.after (flow_plain (plain_save cx) ..)
  apply Catches.after (.single rfl)
  apply Catches.after (flow_plain reload ..)
  split_ifs at done with tail
  · obtain rfl := Option.some.inj done
    obtain ⟨rest, returns⟩ := tail_code whole block here (safe.tail tail taken) taken lifting.next
    rw [returns]
    exact .after (flow_plain (plain_save cx) ..) ⟨_, .single rfl, .left⟩
  · obtain ⟨place, moves, same⟩ := Option.bind_eq_some_iff.mp done
    obtain rfl := Option.some.inj same
    refine catches_next shape whole plain block here lifting.next (cur ▸ own.mono (Nat.le_succ i))
      (front.unconditional shape (by simp [taken])) ?_ moves ..
    intro last after
    have open_ := safe.ending last after (.inl taken) (by simpa using tail)
    simp [call] at open_

theorem catches_indirect (front : InFront cx mf addrs fin b mbb i minst st st' code)
    (shape : WellShaped cx mf) (whole : finalBuilder cx mf addrs = .ok fin) (plain : Plain adds)
    (taken : dispatch cx minst ∅ = .indirect)
    (done : pathStep cx mf ⟨some (b, i), decisions, callees⟩ = some m') :
    Catches cx mf addrs adds fin ⟨some (st.cur, codeAt cx fin st), decisions, callees⟩ m' := by
  have ⟨block, here, lifting, own, _, safe⟩ := front
  obtain ⟨cur, before, straight, rfl⟩ := (front.chunk (by simp) taken).of_indirect
  have none : directCallee minst = none := directCallee_none safe (by simp [taken])
  simp only [pathStep, block, here, taken, none, safe.indirect taken, Option.bind_eq_bind,
    Option.bind_some, Option.toList_none, List.append_nil, Bool.false_eq_true, if_false] at done
  obtain ⟨place, moves, same⟩ := Option.bind_eq_some_iff.mp done
  obtain rfl := Option.some.inj same
  rw [codeAt_next cx lifting.appends lifting.rest cur (by
    simp [straight.noRet, (plain_reload cx).noRet]), List.append_assoc, List.cons_append, ← cur]
  apply Catches.after (flow_plain straight ..)
  apply Catches.after (.single rfl)
  apply Catches.after (flow_plain (plain_reload cx) ..)
  refine catches_next shape whole plain block here lifting.next (cur ▸ own.mono (Nat.le_succ i))
    (front.unconditional shape (by simp [taken])) ?_ moves ..
  intro last after
  have tail : isTailCall minst = false := by
    have stays := safe.indirect taken
    simp only [leavesFunction, Bool.or_eq_false_iff] at stays
    exact stays.1
  obtain ⟨call, branch⟩ := safe.ending last after (.inr taken) tail
  exact ⟨branch, dispatch_indirect taken, call⟩

theorem catches_plain (front : InFront cx mf addrs fin b mbb i minst st st' code)
    (shape : WellShaped cx mf) (whole : finalBuilder cx mf addrs = .ok fin) (plain : Plain adds)
    (other : dispatch cx minst ∅ ∉ [.ret, .indirect, .jump, .branch, .call])
    (done : pathStep cx mf ⟨some (b, i), decisions, callees⟩ = some m') :
    Catches cx mf addrs adds fin ⟨some (st.cur, codeAt cx fin st), decisions, callees⟩ m' := by
  have ⟨block, here, lifting, own, _, safe⟩ := front
  obtain ⟨ret, branch, call⟩ := no_transfer other
  have none : directCallee minst = none := by simp [directCallee, call]
  have stays : leavesFunction cx minst = false := by
    rw [leaves_eq (direct_of_dispatch ret fun taken => other (by simp [taken]))]
    cases flag : isTailCall minst with
    | false => rfl
    | true => simp [isCall_of_tail flag] at call
  obtain ⟨cur, straight⟩ := lifting.chunk.of_plain fun inside => other (by
    have back : dispatch cx minst ∅ = dispatch cx minst st.sptrack := dispatch_congr inside rfl
    exact back ▸ inside)
  simp only [pathStep, block, here, none, stays, Option.bind_eq_bind, Option.bind_some,
    Option.toList_none, List.append_nil, Bool.false_eq_true, if_false] at done
  split at done
  · simp_all
  · simp_all
  · simp_all
  · obtain ⟨place, moves, same⟩ := Option.bind_eq_some_iff.mp done
    obtain rfl := Option.some.inj same
    rw [codeAt_next cx lifting.appends lifting.rest cur straight.noRet, ← cur]
    exact .after (flow_plain straight ..) (catches_next shape whole plain block here lifting.next
      (cur ▸ own.mono (Nat.le_succ i)) (front.unconditional shape (fun taken => other (by simp [taken])))
      (fun _ _ => ⟨branch, ret, call⟩) moves ..)

/-- One instruction, by the path it takes. -/
theorem catches (front : InFront cx mf addrs fin b mbb i minst st st' code)
    (shape : WellShaped cx mf) (whole : finalBuilder cx mf addrs = .ok fin) (plain : Plain adds)
    (done : pathStep cx mf ⟨some (b, i), decisions, callees⟩ = some m') :
    Catches cx mf addrs adds fin ⟨some (st.cur, codeAt cx fin st), decisions, callees⟩ m' := by
  cases taken : dispatch cx minst ∅ with
  | ret => exact front.catches_ret taken done
  | jump => exact front.catches_jump shape whole plain taken done
  | branch => exact front.catches_branch shape whole plain taken done
  | call => exact front.catches_call shape whole plain taken done
  | indirect => exact front.catches_indirect shape whole plain taken done
  | stackAccess | stackPointerModification | generic =>
    exact front.catches_plain shape whole plain (by simp [taken]) done

end InFront

theorem catches_step (shape : WellShaped cx mf) (whole : finalBuilder cx mf addrs = .ok fin)
    (plain : Plain adds) {m m' : Trace (BlockId × Nat)} {f : Trace (Label × List Inst)}
    (follows : Follows cx mf addrs adds fin m f) (safe : PathSafe cx mf m)
    (done : pathStep cx mf m = some m') : Catches cx mf addrs adds fin f m' := by
  cases follows with
  | left => cases done
  | @inside b i l code decisions callees stands =>
    obtain ⟨mbb, block, next⟩ := Option.bind_eq_some_iff.mp done
    obtain ⟨minst, here, next⟩ := Option.bind_eq_some_iff.mp next
    have safe := safe b i mbb minst rfl block here
    obtain ⟨st, before, builder, own, unfolded, rfl, straight, rfl⟩ |
      ⟨mbb', minst', t, block', here', folded, operand, bound, rfl, rfl⟩ := stands
    · obtain ⟨st₁, st', chunkCode, lifting⟩ := instrLifting whole block here
      obtain rfl := Except.ok.inj (lifting.builder.symm.trans builder)
      have front : InFront cx mf addrs fin b mbb i minst st₁ st' chunkCode :=
        ⟨block, here, lifting, own, unfolded mbb minst block here, safe⟩
      exact .after (flow_plain straight ..) (front.catches shape whole plain done)
    · -- the conditional branch has already gone where the jump goes
      obtain rfl := Option.some.inj (block.symm.trans block')
      obtain rfl := Option.some.inj (here.symm.trans here')
      have none := directCallee_none safe (by simp [folded.1])
      simp only [folded.1, operand, none, Option.toList_none, List.append_nil] at next
      obtain rfl := Option.some.inj next
      exact ⟨_, .refl _, .inside (stands_start shape whole plain bound)⟩

end Bleach
