import Bleach.Lifter.ErasedRuns
import Bleach.Simulation
import Mathlib.Data.List.Forall2

/-! Lifting preserves the meaning of whole programs. Functions call each other, themselves included,
to any depth; the lifted module stands in the functions the machine stands in, with the same
registers and the same world. -/
namespace Bleach
open Transition
variable {W : Type} {w : Nat → Nat} {cx : Context W} {mfs : List MachineFunction} {mf : MachineFunction}
  {addrs : FuncId → FunctionAddresses} {adds : List Inst} {fin : Builder} {spReg : Register}
  {M : IRModule W}

/-- A function that has called another: where it goes on, unless it returns at once, and the
registers it had. -/
structure Caller (w : Nat → Nat) where
  func : FuncId
  place : Option (BlockId × Nat)
  regs : Locals w

/-- The machine in a function, or behind its return, and the functions that wait for it. -/
structure ProgramState (w : Nat → Nat) (W : Type) where
  func : FuncId
  guest : Guest w W
  callers : List (Caller w)

/-- What a caller goes on with: the registers of the callee, or its own if called functions are
assumed to do nothing. -/
def Caller.resumed (cx : Context W) (a : Caller w) (regs : Locals w) : Locals w :=
  if cx.functionsNop then a.regs else regs

/-- Where a caller goes on behind a call; a call that ends its block is a tail call. -/
def behindCall (mbb : MachineBasicBlock) (b i : Nat) : Option (BlockId × Nat) :=
  if i + 1 < mbb.length then some (b, i + 1) else none

def programStep (cx : Context W) (mfs : List MachineFunction) (s : ProgramState w W) :
    Option (ProgramState w W) :=
  match s.guest.place with
  | none =>
    match s.callers with
    | [] => none
    | a :: rest => some ⟨a.func, ⟨a.place, a.resumed cx s.guest.regs, s.guest.world⟩, rest⟩
  | some (b, i) => do
    let mf ← mfs[s.func]?
    let mbb ← mf.blocks[b]?
    let minst ← mbb[i]?
    if isDirectCall cx minst then
      let callee ← minst.globalOperand
      let target ← mfs[callee]?
      if target.blocks.isEmpty then none
      else some ⟨callee, { s.guest with place := some (0, 0) },
        ⟨s.func, behindCall mbb b i, s.guest.regs⟩ :: s.callers⟩
    else
      let g ← guestStep cx mf s.guest
      some { s with guest := g }

/-- The index of the next instruction in its block, counted from where a caller goes on. -/
def ProgramState.index (s : ProgramState w W) : Nat :=
  match s.guest.place, s.callers with
  | some (_, i), _ => i
  | none, [] => 0
  | none, a :: _ => match a.place with
    | some (_, i) => i + 1
    | none => 0

/-- The functions under execution, the running one first. -/
def ProgramState.stack (s : ProgramState w W) : List FuncId :=
  (s.guest.place.map fun _ => s.func).toList ++ s.callers.map Caller.func

/-- A configuration above frames that wait for it. -/
def Config.above (c : Config w W) (rest : List (Frame w)) : Config w W := ⟨c.frames ++ rest, c.shared⟩

/-- A function executes without touching the frames below. -/
theorem IRModule.step_above (M : IRModule W) {c : Config M.widths W} (running : c.frames ≠ [])
    (rest : List (Frame M.widths)) : M.step (c.above rest) = (M.step c).map (·.above rest) := by
  obtain ⟨frames, shared⟩ := c
  obtain ⟨fr, callers, rfl⟩ := List.exists_cons_of_ne_nil running
  have above : Config.above ⟨fr :: callers, shared⟩ rest = ⟨fr :: (callers ++ rest), shared⟩ := rfl
  rw [above]
  cases at_ : fr.code with
  | nil => simp [step, at_]
  | cons i code =>
    cases i with
    | retVoid => simp [step, at_, Config.above]
    | br dest => simp [step, at_, Config.above, Function.comp_def]
    | condBr cond ifTrue ifFalse =>
      simp only [step, at_]
      cases evalInt fr.env cond with
      | none => rfl
      | some v =>
        simp only [Option.bind_eq_bind, Option.bind_some]
        split_ifs
        · cases M.jump { fr with code := code } ifTrue <;> rfl
        · cases M.jump { fr with code := code } ifFalse <;> rfl
        · rfl
    | call callee => simp [step, at_, Config.above, enter, Function.comp_def]
    | callPtr callee =>
      simp only [step, at_]
      split
      · simp [Config.above, enter, Function.comp_def]
      · rfl
    | alloca | load | store | sextOrTrunc | add | callInstr | symtabAdd | symtabLookup =>
      simp only [step, at_, Option.bind_eq_bind, Option.map_bind]
      rfl

theorem step_above_of {c c' : Config M.widths W} (rest : List (Frame M.widths)) (done : M.step c = some c') :
    M.step (c.above rest) = some (c'.above rest) := by
  have running : c.frames ≠ [] := fun none => by simp [IRModule.step, none] at done
  rw [M.step_above running, done]
  rfl

theorem Halts.above {c c' : Config M.widths W} (halts : Halts M.step c c') (running : c'.frames ≠ [])
    (rest : List (Frame M.widths)) : Halts M.step (c.above rest) (c'.above rest) := by
  refine ⟨halts.1.map (step_above_of rest), ?_⟩
  rw [M.step_above running, halts.2]
  rfl

/-- The frame goes on, or returns, where its function waits to. -/
inductive Waits (cx : Context W) (mfs : List MachineFunction) (addrs : FuncId → FunctionAddresses) :
    Caller w → Frame w → Prop where
  | call {f b i mf mbb minst regs fr} (found : mfs[f]? = some mf) (block : mf.blocks[b]? = some mbb)
      (here : mbb[i]? = some minst) (straight : minst.isConditionalBranch = false)
      (inside : i + 1 < mbb.length) (waits : Frame.WaitsAt cx mfs addrs fr f b i)
      (same : SameCells cx.stats regs fr.locals) : Waits cx mfs addrs ⟨f, some (b, i + 1), regs⟩ fr
  | tail {f mf regs fr later} (found : mfs[f]? = some mf) (nonempty : mf.blocks ≠ []) (func : fr.func = f)
      (code : fr.code = (if cx.functionsNop then [] else cx.reload) ++ (cx.save ++ .retVoid :: later))
      (same : SameCells cx.stats regs fr.locals) : Waits cx mfs addrs ⟨f, none, regs⟩ fr

theorem Waits.func {a : Caller w} {fr : Frame w} (waits : Waits cx mfs addrs a fr) : fr.func = a.func := by
  cases waits with
  | call found block here straight inside waits same => exact waits.choose_spec.2.1
  | tail found nonempty func code same => exact func

theorem Waits.same {a : Caller w} {fr : Frame w} (waits : Waits cx mfs addrs a fr) :
    SameCells cx.stats a.regs fr.locals := by
  cases waits with
  | call found block here straight inside waits same => exact same
  | tail found nonempty func code same => exact same

/-- Back from a call the registers are loaded, unless the callee is assumed to do nothing. -/
theorem run_resumed (lifted : Lifted cx mfs addrs adds M) (disjoint : cx.stats.Disjoint)
    {a : Caller M.widths} {fr : Frame M.widths} {later : List Inst} {regs : Locals M.widths}
    {shared : Shared M.widths W} (code : fr.code = (if cx.functionsNop then [] else cx.reload) ++ later)
    (kept : SameCells cx.stats a.regs fr.locals) (agrees : Agrees cx.stats regs shared.slots)
    (rest : List (Frame M.widths)) :
    ∃ env locals, Reaches M.step ⟨fr :: rest, shared⟩
        ⟨⟨fr.func, fr.label, later, env, locals⟩ :: rest, shared⟩ ∧
      SameCells cx.stats (a.resumed cx regs) locals := by
  unfold Caller.resumed
  cases nop : cx.functionsNop with
  | true =>
    rw [nop] at code
    obtain ⟨func, label, _, env, locals⟩ := fr
    obtain rfl : _ = later := code
    exact ⟨env, locals, .refl _, kept⟩
  | false =>
    simp only [nop, Bool.false_eq_true, if_false] at code ⊢
    obtain ⟨d, loaded, effect⟩ := lifted.run_reload disjoint (fr.data shared)
    have path := run_code rest code loaded
    rw [effect.shared] at path
    exact ⟨d.env, d.locals, path, fun t member => (effect.copied t member).trans (agrees t member)⟩

/-- A program whose functions are of the sublanguage and call each other. -/
structure Program (cx : Context W) (mfs : List MachineFunction) (spReg : Register) : Prop where
  stackPointer : cx.stackPointer? = some spReg
  disjoint : cx.stats.Disjoint
  functions : ∀ mf ∈ mfs, mf.blocks ≠ [] → ProgramFunction cx mf spReg

theorem Program.housed (program : Program cx mfs spReg) (lifted : Lifted cx mfs addrs adds M) {f : FuncId}
    (found : mfs[f]? = some mf) (nonempty : mf.blocks ≠ []) :
    ∃ fin, Housed cx mfs addrs adds M f mf fin spReg := by
  obtain ⟨fin, whole, body⟩ := lifted.functions found
  rw [if_neg (by simpa using nonempty)] at body
  exact ⟨fin, lifted, program.disjoint, whole, body,
    program.functions mf (List.mem_of_getElem? found) nonempty⟩

/-- The lifted module stands where the machine stands, and its other frames wait for the running
one. -/
inductive ProgramFollows (cx : Context W) (mfs : List MachineFunction) (addrs : FuncId → FunctionAddresses)
    (adds : List Inst) (spReg : Register) (M : IRModule W) :
    ProgramState M.widths W → Config M.widths W → Prop where
  | mk {f guest callers mf fin top rest} (host : Housed cx mfs addrs adds M f mf fin spReg)
      (found : mfs[f]? = some mf) (tracks : Tracks cx mf (addrs f) adds fin f guest top)
      (waiting : List.Forall₂ (Waits cx mfs addrs) callers rest) :
      ProgramFollows cx mfs addrs adds spReg M ⟨f, guest, callers⟩ (top.above rest)

/-- Both have left the function they started in, with every register in `register_state`, or both
are stuck. -/
structure ProgramEnd (stats : RegisterStats) (s : ProgramState w W) (c : Config w W) : Prop where
  returned : s.stack = [] ↔ c.frames = []
  registers : s.stack = [] → ∀ r, stateValue stats c.shared.slots r = registerValue stats s.guest.regs r
  world : c.shared.world = s.guest.world

/-- What the lifted module does while the machine makes a step, or stops. -/
def ProgramAnswers (stats : RegisterStats) (M : IRModule W)
    (ProgramFollows : ProgramState M.widths W → Config M.widths W → Prop) (s : ProgramState M.widths W)
    (c : Config M.widths W) : Option (ProgramState M.widths W) → Prop
  | some s' => ∃ c', (Advances M.step c c' ∨ Reaches M.step c c' ∧ s'.index < s.index) ∧ ProgramFollows s' c'
  | none => ∃ c', Halts M.step c c' ∧ ProgramEnd stats s c'

section Steps
variable {f : FuncId} {b i : Nat} {mbb : MachineBasicBlock} {minst : MachineInstr} {regs : Locals w}
  {world : W} {callers : List (Caller w)}

theorem programStep_own (found : mfs[f]? = some mf) (block : mf.blocks[b]? = some mbb)
    (here : mbb[i]? = some minst) (own : isDirectCall cx minst = false) :
    programStep cx mfs ⟨f, ⟨some (b, i), regs, world⟩, callers⟩ =
      (guestStep cx mf ⟨some (b, i), regs, world⟩).map fun g => ⟨f, g, callers⟩ := by
  simp only [programStep, found, block, here, own, Option.bind_eq_bind, Option.bind_some,
    Bool.false_eq_true, if_false]
  exact Option.map_eq_bind.symm

theorem programStep_call {callee : FuncId} (found : mfs[f]? = some mf) (block : mf.blocks[b]? = some mbb)
    (here : mbb[i]? = some minst) (call : isDirectCall cx minst = true)
    (operand : minst.globalOperand = some callee) :
    programStep cx mfs ⟨f, ⟨some (b, i), regs, world⟩, callers⟩ = (mfs[callee]?).bind fun target =>
      if target.blocks.isEmpty then none
      else some ⟨callee, ⟨some (0, 0), regs, world⟩, ⟨f, behindCall mbb b i, regs⟩ :: callers⟩ := by
  simp [programStep, found, block, here, call, operand]

theorem SubInstr.not_call {T : StackPointerTracker} (instr : SubInstr cx mf T b mbb i minst) :
    isDirectCall cx minst = false := by
  by_contra direct
  have call := Bool.of_not_eq_false direct
  have path := dispatch_call call T
  cases instr with
  | generic generic => simp [generic] at path
  | ret returns => simp [(directCall_flags call).2.1] at returns
  | jump jump => simp [jump.dispatch_eq] at path
  | branch branches noReturn direct function params output noDefs operands =>
    rw [dispatch_conditional branches noReturn direct (by simp [operands, MachineOperand.isMBB])] at path
    cases path

end Steps

/-- Behind a direct call the frame waits as its caller does. -/
theorem Housed.waits_behind (host : Housed cx mfs addrs adds M f mf fin spReg) (found : mfs[f]? = some mf)
    {b i : Nat} {mbb : MachineBasicBlock} {minst : MachineInstr} (block : mf.blocks[b]? = some mbb)
    (here : mbb[i]? = some minst) (call : isDirectCall cx minst = true)
    (form : minst.isConditionalBranch = false ∧ i + 1 < mbb.length ∨ i + 1 = mbb.length)
    {fr : Frame M.widths} (waits : fr.WaitsAt cx mfs addrs f b i) {regs : Locals M.widths}
    (same : SameCells cx.stats regs fr.locals) : Waits cx mfs addrs ⟨f, behindCall mbb b i, regs⟩ fr := by
  unfold behindCall
  obtain ⟨straight, inside⟩ | last := form
  · rw [if_pos inside]
    exact .call found block here straight inside waits same
  · rw [if_neg (by omega)]
    obtain ⟨code, behind, func, mf', found', pc⟩ := waits
    obtain rfl := Option.some.inj (found.symm.trans found')
    obtain ⟨st, st', chunk, lifting⟩ := instrLifting host.whole block here
    have next := lifting.next
    rw [pcAt_ok host.whole next] at pc
    obtain ⟨-, rfl⟩ := Prod.mk.inj (Except.ok.inj pc)
    obtain ⟨isCall, noReturn, noBranch⟩ := directCall_flags call
    rw [last] at next
    obtain ⟨-, later, code⟩ | ⟨other, -⟩ :=
      codeAt_end host.whole block (getLast?_of_end here last) next noBranch noReturn
    · have nonempty : mf.blocks ≠ [] := fun empty => by simp [empty] at block
      exact .tail found nonempty func (code ▸ behind) same
    · simp [isCall] at other

namespace Program
variable {f : FuncId} {regs : Locals M.widths} {callers : List (Caller M.widths)}
  {rest : List (Frame M.widths)}

/-- A caller goes on with what its callee has left in `register_state`. -/
theorem answers_resume (program : Program cx mfs spReg) (lifted : Lifted cx mfs addrs adds M)
    {a : Caller M.widths} {fr : Frame M.widths} (waits : Waits cx mfs addrs a fr)
    (waiting : List.Forall₂ (Waits cx mfs addrs) callers rest) {shared : Shared M.widths W}
    (agrees : Agrees cx.stats regs shared.slots) :
    ProgramAnswers cx.stats M (ProgramFollows cx mfs addrs adds spReg M)
      ⟨f, ⟨none, regs, shared.world⟩, a :: callers⟩ ⟨fr :: rest, shared⟩
      (some ⟨a.func, ⟨a.place, a.resumed cx regs, shared.world⟩, callers⟩) := by
  cases waits with
  | @call f' b i mf mbb minst regs' fr found block here straight inside waits same =>
    obtain ⟨code, behind, at_⟩ := waits
    obtain ⟨env, locals, path, cells⟩ :=
      run_resumed (a := ⟨f', some (b, i + 1), regs'⟩) lifted program.disjoint behind same agrees rest
    have nonempty : mf.blocks ≠ [] := fun empty => by simp [empty] at block
    obtain ⟨fin, host⟩ := program.housed lifted found nonempty
    have unfolded : ¬Folded cx mbb (i + 1) mbb[i + 1] := by
      rintro ⟨-, j, prev, next, there, conditional⟩
      obtain rfl := Nat.succ.inj next
      obtain rfl := Option.some.inj (here.symm.trans there)
      simp [straight] at conditional
    let resumed : Frame M.widths := ⟨fr.func, fr.label, code, env, locals⟩
    have next : resumed.At cx mfs addrs f' b (i + 1) := at_
    have tracks := host.at_tracks found block (List.getElem?_eq_getElem inside) unfolded next cells shared
    exact ⟨_, .inr ⟨path, Nat.lt_succ_self (i + 1)⟩, .mk host found tracks waiting⟩
  | @tail f' mf regs' fr later found nonempty func code same =>
    obtain ⟨env, locals, path, cells⟩ :=
      run_resumed (a := ⟨f', none, regs'⟩) lifted program.disjoint code same agrees rest
    obtain ⟨fin, host⟩ := program.housed lifted found nonempty
    let leaving : Frame M.widths := ⟨fr.func, fr.label, cx.save ++ .retVoid :: later, env, locals⟩
    obtain ⟨d, saved, effect⟩ := lifted.run_save program.disjoint (leaving.data shared)
    have split : leaving.code = cx.save ++ .retVoid :: later := rfl
    have save := run_code rest split saved
    have world : d.shared.world = shared.world := by
      rw [effect.shared]
      rfl
    have tracks : Tracks cx mf (addrs f') adds fin f'
        ⟨none, Caller.resumed cx ⟨f', none, regs'⟩ regs, d.shared.world⟩ ⟨[], d.shared⟩ :=
      .returned fun t member => (effect.copied t member).trans (cells t member)
    rw [← world]
    exact ⟨_, .inl (.snoc (path.trans save) (IRModule.step_ret rfl)), .mk host found tracks waiting⟩

/-- A direct call saves the registers and enters the callee, which starts with them. -/
theorem answers_call (program : Program cx mfs spReg) (host : Housed cx mfs addrs adds M f mf fin spReg)
    (found : mfs[f]? = some mf) {b i : Nat} {mbb : MachineBasicBlock} {minst : MachineInstr}
    (block : mf.blocks[b]? = some mbb) (here : mbb[i]? = some minst)
    (call : isDirectCall cx minst = true)
    (form : minst.isConditionalBranch = false ∧ i + 1 < mbb.length ∨ i + 1 = mbb.length)
    {l : Label} {code : List Inst} (meets : Meets cx mf (addrs f) adds fin b i mbb minst l code)
    {locals : Locals M.widths} (same : SameCells cx.stats regs locals) (env : Env)
    (shared : Shared M.widths W) (waiting : List.Forall₂ (Waits cx mfs addrs) callers rest) :
    ProgramAnswers cx.stats M (ProgramFollows cx mfs addrs adds spReg M)
      ⟨f, ⟨some (b, i), regs, shared.world⟩, callers⟩ ⟨⟨f, l, code, env, locals⟩ :: rest, shared⟩
      (programStep cx mfs ⟨f, ⟨some (b, i), regs, shared.world⟩, callers⟩) := by
  have at_ : Frame.At cx mfs addrs (⟨f, l, code, env, locals⟩ : Frame M.widths) f b i := by
    cases meets with
    | own unfolded builder =>
      have cur := host.sub.cur_eq host.whole block here unfolded builder
      exact ⟨rfl, mf, found, (pcAt_ok host.whole builder).trans (by rw [cur])⟩
    | folded folded jump =>
      obtain ⟨path, -⟩ := folded
      simp [dispatch_call call] at path
  let fr : Frame M.widths := ⟨f, l, code, env, locals⟩
  obtain ⟨callee, code', operand, split, waits⟩ := host.lifted.call_code found block here call at_
  obtain ⟨d, saved, effect⟩ := host.lifted.run_save host.disjoint (fr.data shared)
  have path : Reaches M.step ⟨fr :: rest, shared⟩ _ := run_code rest split saved
  let calling : Frame M.widths := ⟨f, l, .call callee :: code', d.env, d.locals⟩
  have world : d.shared.world = shared.world := by
    rw [effect.shared]
    rfl
  have stuck : M.body callee = none → ∃ c', Halts M.step ⟨fr :: rest, shared⟩ c' ∧ ProgramEnd cx.stats
      ⟨f, ⟨some (b, i), regs, shared.world⟩, callers⟩ c' := by
    intro missing
    have halted : M.step ⟨calling :: rest, d.shared⟩ = none := by
      simp [IRModule.step, calling, IRModule.enter, missing]
    exact ⟨_, ⟨path, halted⟩, by simp [ProgramState.stack], by simp [ProgramState.stack], world⟩
  rw [programStep_call found block here call operand]
  cases target : mfs[callee]? with
  | none => exact stuck (host.lifted.outside target)
  | some mf' =>
    obtain ⟨fin', whole', body'⟩ := host.lifted.functions target
    rw [Option.bind_some]
    split_ifs with empty
    · exact stuck (by rw [body', if_pos empty])
    · have nonempty : mf'.blocks ≠ [] := by simpa using empty
      obtain ⟨fin', host'⟩ := program.housed host.lifted target nonempty
      have cells : SameCells cx.stats regs d.locals := by
        rw [effect.locals]
        exact same
      have agrees : Agrees cx.stats regs d.shared.slots :=
        fun t member => (effect.copied t member).trans (same t member)
      let waiter : Frame M.widths := ⟨f, l, code', d.env, d.locals⟩
      have waits : waiter.WaitsAt cx mfs addrs f b i := waits
      have waits := host.waits_behind found block here call form waits cells
      have enters : M.step ⟨calling :: rest, d.shared⟩ = some ⟨_ :: waiter :: rest, d.shared⟩ :=
        IRModule.step_call rfl host'.body
      obtain ⟨first, symtab, path', tracks⟩ := host'.enters target (waiter :: rest) agrees
      rw [← world]
      exact ⟨_, .inl (Advances.trans (.snoc path enters) path'),
        .mk host' target tracks (.cons waits waiting)⟩

theorem answers (program : Program cx mfs spReg) (lifted : Lifted cx mfs addrs adds M)
    {s : ProgramState M.widths W} {c : Config M.widths W} (related : ProgramFollows cx mfs addrs adds spReg M s c) :
    ProgramAnswers cx.stats M (ProgramFollows cx mfs addrs adds spReg M) s c (programStep cx mfs s) := by
  obtain @⟨f, guest, callers, mf, fin, top, rest, host, found, tracks, waiting⟩ := related
  cases tracks with
  | returned agrees =>
    cases waiting with
    | nil => exact ⟨_, ⟨.refl _, rfl⟩, by simp [ProgramState.stack, Config.above],
        fun _ => agrees.stateValue_eq, rfl⟩
    | cons waits waiting => exact program.answers_resume lifted waits waiting agrees
  | @inside b i mbb minst l code regs env locals shared block here meets same =>
    cases host.sub.instr block here with
    | call call operand straight inside =>
      exact program.answers_call host found block here call
        (.inl ⟨by simp [MachineInstr.isConditionalBranch, straight], inside⟩) meets same env shared waiting
    | tail call operand jumps last =>
      exact program.answers_call host found block here call (.inr last) meets same env shared waiting
    | own instr =>
      have answers := host.answers_met block here instr meets same env shared
      rw [programStep_own found block here instr.not_call]
      cases done : guestStep cx mf ⟨some (b, i), regs, shared.world⟩ with
      | none =>
        rw [done] at answers
        obtain ⟨c', halts, outcome⟩ := answers
        have running : c'.frames ≠ [] := fun left => by simpa using outcome.returned.mpr left
        exact ⟨_, Halts.above halts running rest, by simp [ProgramState.stack, Config.above, running],
          by simp [ProgramState.stack], outcome.world⟩
      | some g =>
        rw [done] at answers
        obtain ⟨c', path, tracks⟩ := answers
        refine ⟨c'.above rest, ?_, .mk host found tracks waiting⟩
        obtain path | ⟨rfl, drops⟩ := path
        · exact .inl (path.map (step_above_of rest))
        · cases tracks with
          | inside => exact .inr ⟨.refl _, drops⟩

theorem simulation (program : Program cx mfs spReg) (lifted : Lifted cx mfs addrs adds M) :
    Simulation (programStep cx mfs) M.step (ProgramFollows cx mfs addrs adds spReg M) (ProgramEnd cx.stats)
      ProgramState.index := by
  constructor
  · intro s s' c related done
    have answers := program.answers lifted related
    rw [done] at answers
    obtain ⟨c', ⟨n, pos, path⟩ | ⟨⟨n, path⟩, drops⟩, related'⟩ := answers
    · exact ⟨n, c', path, related', fun zero => absurd zero pos.ne'⟩
    · exact ⟨n, c', path, related', fun _ => drops⟩
  · intro s c related done
    have answers := program.answers lifted related
    rw [done] at answers
    exact answers

end Program

/-- The same functions are under execution, and every register of the running one has the same value in
both; behind a return `register_state` holds it. -/
structure SameProgram (stats : RegisterStats) (s : ProgramState w W) (c : Config w W) : Prop where
  stack : c.frames.map Frame.func = s.stack
  world : c.shared.world = s.guest.world
  registers : match s.guest.place with
    | none => ∀ r, stateValue stats c.shared.slots r = registerValue stats s.guest.regs r
    | some _ => ∃ fr rest, c.frames = fr :: rest ∧
        ∀ r, registerValue stats fr.locals r = registerValue stats s.guest.regs r

theorem ProgramFollows.sameProgram {s : ProgramState M.widths W} {c : Config M.widths W}
    (related : ProgramFollows cx mfs addrs adds spReg M s c) : SameProgram cx.stats s c := by
  obtain @⟨f, guest, callers, mf, fin, top, rest, host, found, tracks, waiting⟩ := related
  have funcs : rest.map Frame.func = callers.map Caller.func := by
    induction waiting with
    | nil => rfl
    | cons waits _ ih => rw [List.map_cons, List.map_cons, waits.func, ih]
  cases tracks with
  | returned agrees =>
    exact ⟨by simpa [ProgramState.stack, Config.above] using funcs, rfl, agrees.stateValue_eq⟩
  | inside block here meets same =>
    exact ⟨by simpa [ProgramState.stack, Config.above] using funcs, rfl, _, _, rfl, same.registerValue_eq⟩

theorem SameProgram.erased {stats : RegisterStats} {s : ProgramState w W} {c : Config w W}
    (same : SameProgram stats s c) : SameProgram stats s c.erased := by
  obtain ⟨frames, shared⟩ := c
  obtain ⟨stack, world, registers⟩ := same
  refine ⟨?_, world, ?_⟩
  · rw [← stack, Config.erased, List.map_map]
    rfl
  · cases place : s.guest.place with
    | none =>
      rw [place] at registers
      exact registers
    | some place =>
      simp only [place] at registers
      obtain ⟨fr, rest, rfl, values⟩ := registers
      exact ⟨_, _, rfl, values⟩

theorem ProgramEnd.erased {stats : RegisterStats} {s : ProgramState w W} {c : Config w W}
    (same : ProgramEnd stats s c) : ProgramEnd stats s c.erased where
  returned := by
    rw [same.returned, Config.erased]
    exact List.map_eq_nil_iff.symm
  registers := same.registers
  world := same.world

theorem generateFunctions_exists {mfs : List MachineFunction} {f : FuncId}
    (each : ∀ k mf, mfs[k]? = some mf → ∃ body, generateFunction cx mf (addrs (f + k)) = .ok body) :
    ∃ funcs, generateFunctions cx addrs mfs f = .ok funcs := by
  induction mfs generalizing f with
  | nil => exact ⟨[], rfl⟩
  | cons mf rest ih =>
    obtain ⟨body, first⟩ := each 0 mf rfl
    obtain ⟨funcs, others⟩ := @ih (f + 1) fun k mf found =>
      Nat.add_right_comm f 1 k ▸ each (k + 1) mf found
    exact ⟨_, bind_ok.mpr ⟨body, first, bind_ok.mpr ⟨funcs, others, rfl⟩⟩⟩

/-- A program can be lifted; functions without blocks stay declarations. -/
theorem Program.lifts (program : Program cx mfs spReg)
    (addressed : ∀ f mf, mfs[f]? = some mf → Addressed mf (addrs f)) (registers : cx.stats ≠ [])
    (stackSize : Nat) (liftedPrefix : String) :
    ∃ M, bleachModule cx mfs addrs none stackSize liftedPrefix = .ok M := by
  have each : ∀ k mf, mfs[k]? = some mf → ∃ body, generateFunction cx mf (addrs (0 + k)) = .ok body := by
    intro k mf found
    rw [Nat.zero_add]
    by_cases empty : mf.blocks = []
    · exact ⟨none, by simp [generateFunction, getStackPointer, program.stackPointer, empty, fillBlocks, bind,
        Except.bind]⟩
    · obtain ⟨blocks, lifted⟩ :=
        (program.functions mf (List.mem_of_getElem? found) empty).lifts (addressed k mf found)
      exact ⟨_, lifted⟩
  obtain ⟨funcs, generated⟩ := generateFunctions_exists each
  exact bleachModule_exists.mpr ⟨by simpa using registers, funcs, generated, funcs, rfl⟩

theorem Program.runs (program : Program cx mfs spReg) (lifted : Lifted cx mfs addrs adds M) {f : FuncId}
    {blocks : Label → List Inst} (body : M.erased.body f = some blocks) (regs : Locals M.widths)
    (shared : Shared M.widths W) (agrees : Agrees cx.stats regs shared.slots) :
    Exhibits (programStep cx mfs) M.erased.step (SameProgram cx.stats) (ProgramEnd cx.stats)
      ⟨f, ⟨some (0, 0), regs, shared.world⟩, []⟩ ⟨[M.erased.entryFrame f blocks], shared⟩ := by
  rw [IRModule.body_erased] at body
  obtain ⟨blocks, here, rfl⟩ := Option.map_eq_some_iff.mp body
  obtain ⟨mf, fin, found, nonempty, -, rfl⟩ := lifted.body here
  obtain ⟨fin', host⟩ := program.housed lifted found nonempty
  have same : liftedBody cx adds fin = liftedBody cx adds fin' := Option.some.inj (here.symm.trans host.body)
  rw [same]
  obtain ⟨fr, symtab, entry, tracks⟩ := host.enters found [] agrees
  have related : ProgramFollows cx mfs addrs adds spReg M ⟨f, ⟨some (0, 0), regs, shared.world⟩, []⟩ _ :=
    .mk host found tracks .nil
  have through := (program.simulation lifted).exhibits related entry fun s c => ProgramFollows.sameProgram
  refine through.behind (erased_lockstep M) rfl (fun s c e same shown => ?_) fun s c e same ended => ?_
  · rw [same]
    exact shown.erased
  · rw [same]
    exact ended.erased

/-- Lifting preserves meaning across calls. A program whose functions are of the sublanguage and call
each other directly, at any depth, can be lifted. Started in one of its functions with the same registers
and world, the module behind the eraser passes through the states of the machine, function by function on
the stack of calls; both return together, with the same registers and world, or stop together. -/
theorem lifting_preserves_programs (program : Program cx mfs spReg)
    (addressed : ∀ f mf, mfs[f]? = some mf → Addressed mf (addrs f)) (registers : cx.stats ≠ []) :
    (∀ stackSize liftedPrefix, ∃ M, bleachModule cx mfs addrs none stackSize liftedPrefix = .ok M) ∧
    ∀ {finfo : Option FileInfo} {stackSize : Nat} {liftedPrefix : String} {M : IRModule W},
      bleachModule cx mfs addrs finfo stackSize liftedPrefix = .ok M →
      ∀ {f : FuncId} {blocks : Label → List Inst}, M.erased.body f = some blocks →
      ∀ (regs : Locals M.widths) (shared : Shared M.widths W), Agrees cx.stats regs shared.slots →
        Exhibits (programStep cx mfs) M.erased.step (SameProgram cx.stats) (ProgramEnd cx.stats)
          ⟨f, ⟨some (0, 0), regs, shared.world⟩, []⟩ ⟨[M.erased.entryFrame f blocks], shared⟩ := by
  refine ⟨program.lifts addressed registers, ?_⟩
  intro finfo stackSize liftedPrefix M module f blocks body regs shared agrees
  obtain ⟨funcs, adds, -, lifted, -⟩ := lifted_of_bleachModule module
  exact program.runs lifted body regs shared agrees

namespace RiscV

/-- Calls itself as often as `X10` says, and counts the activations. -/
def down : MachineFunction :=
  ⟨"down", [[addi X11 X11 1], [beq X10 X0 3, br 2], [addi X10 X10 (-1), call 1, ret], [ret]]⟩

/-- `main` calls `down` and jumps to `leaf`. -/
def counting : List MachineFunction :=
  [⟨"main", [[call 1, ⟨PseudoBR, [.global 2]⟩]]⟩, down, ⟨"leaf", [[addi X10 X10 1, ret]]⟩]

theorem program_function {mf : MachineFunction} (function : mf.blocks ≠ [])
    (nonempty : ∀ mbb ∈ mf.blocks, mbb ≠ [])
    (instr : ∀ b mbb i minst, mf.blocks[b]? = some mbb → mbb[i]? = some minst →
      ProgramInstr context mf (layoutTracker context mf X2 b i) b mbb i minst) :
    ProgramFunction context mf X2 :=
  ⟨rfl, function, nonempty, fun {b mbb i minst} => instr b mbb i minst, constRegs_found, constReg_named⟩

theorem down_function : ProgramFunction context down X2 := by
  refine program_function (by decide) (by decide) fun b mbb i minst block here => ?_
  obtain ⟨inside, rfl⟩ := List.getElem?_eq_some_iff.mp block
  obtain ⟨inside', rfl⟩ := List.getElem?_eq_some_iff.mp here
  match b, i with
  | 0, 0 => exact .own (addi_subInstr (by decide) (by decide) fun _ => by decide)
  | 1, 0 => exact .own (beq_subInstr (by decide) ⟨by decide, by decide⟩ rfl ⟨by decide, by decide⟩ rfl)
  | 1, 1 => exact .own (.jump (br_jump ⟨by decide, by decide⟩) rfl)
  | 2, 0 => exact .own (addi_subInstr (by decide) (by decide) fun ends => by simp [down] at ends)
  | 2, 1 => exact .call rfl rfl rfl (Nat.lt_succ_self 2)
  | 2, 2 => exact .own (.ret rfl rfl rfl)
  | 3, 0 => exact .own (.ret rfl rfl rfl)

theorem counting_program : Program context counting X2 := by
  refine ⟨rfl, by decide, ?_⟩
  simp only [counting, List.forall_mem_cons]
  refine ⟨fun _ => ?_, fun _ => down_function, fun _ => ?_, by simp⟩
  all_goals
    refine program_function (by decide) (by decide) fun b mbb i minst block here => ?_
    obtain ⟨inside, rfl⟩ := List.getElem?_eq_some_iff.mp block
    obtain ⟨inside', rfl⟩ := List.getElem?_eq_some_iff.mp here
  · match b, i with
    | 0, 0 => exact .call rfl rfl rfl (Nat.lt_succ_self 1)
    | 0, 1 => exact .tail rfl rfl rfl rfl
  · match b, i with
    | 0, 0 => exact .own (addi_subInstr (by decide) (by decide) fun ends => by simp at ends)
    | 0, 1 => exact .own (.ret rfl rfl rfl)

/-- Three activations of `down`, each under the one that calls it, and the tail call. -/
theorem counting_returns : ∃ M blocks, bleachModule context counting (fun _ => none) none 64 "" = .ok M ∧
    M.erased.body 0 = some blocks ∧
    ∃ c, Halts M.erased.step ⟨[M.erased.entryFrame 0 blocks], ⟨fun _ => 2, fun _ => 0, [], fun _ => 0⟩⟩ c ∧
      c.frames = [] ∧ stateValue [gpr] c.shared.slots X11 = some ⟨64, 5⟩ := by
  obtain ⟨-, preserved⟩ := @lifting_preserves_programs World context counting (fun _ => none) X2
    counting_program (by rintro f mf - bs ⟨⟩) (by decide)
  have runs := @preserved none 64 "" (module counting none) rfl 0 _ rfl (fun _ => 2)
    ⟨fun _ => 2, fun _ => 0, [], fun _ => 0⟩ (fun _ _ => rfl)
  let start : ProgramState (module counting none).widths World :=
    ⟨0, ⟨some (0, 0), fun _ => 2, fun _ => 0⟩, []⟩
  have ends : ((iterate (programStep context counting) 23 start).map fun s =>
      (s.guest.place, s.callers.length, registerValue [gpr] s.guest.regs X11)) =
        some (none, 0, some ⟨64, 5⟩) := by decide
  obtain ⟨s, path, same⟩ := Option.map_eq_some_iff.mp ends
  simp only [Prod.mk.injEq, List.length_eq_zero_iff] at same
  obtain ⟨place, callers, value⟩ := same
  have halted : programStep context counting s = none := by simp [programStep, place, callers]
  have left : s.stack = [] := by simp [ProgramState.stack, place, callers]
  obtain ⟨c, done, ⟨returned, registers, -⟩⟩ := runs.halts s ⟨⟨23, path⟩, halted⟩
  exact ⟨_, _, rfl, rfl, c, done, returned.mp left, (registers left X11).trans value⟩

end RiscV
end Bleach
