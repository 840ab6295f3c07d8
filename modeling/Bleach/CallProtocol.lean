import Bleach.Lifter.Lifted
import Bleach.IRRun
import Bleach.RiscV

/-! Registers across calls. The caller saves every register, the callee loads
them on entry and saves them before it returns, the caller loads them again:
between a call and the return from it no register is lost, swapped or stale. -/
namespace Bleach
open Transition
variable {W : Type} {w : Nat → Nat} {cx : Context W} {mfs : List MachineFunction}
  {addrs : FuncId → FunctionAddresses} {adds : List Inst} {M : IRModule W}

/-- The frame is about to execute instruction `i` of block `b` of function `f`. -/
def Frame.At (cx : Context W) (mfs : List MachineFunction) (addrs : FuncId → FunctionAddresses)
    (fr : Frame w) (f : FuncId) (b : BlockId) (i : Nat) : Prop :=
  fr.func = f ∧ ∃ mf, mfs[f]? = some mf ∧ pcAt cx mf (addrs f) b i = .ok (fr.label, fr.code)

/-- The frame waits for the callee of the direct call at instruction `i` of block `b`. -/
def Frame.WaitsAt (cx : Context W) (mfs : List MachineFunction) (addrs : FuncId → FunctionAddresses)
    (fr : Frame w) (f : FuncId) (b : BlockId) (i : Nat) : Prop :=
  ∃ code, fr.code = (if cx.functionsNop then [] else cx.reload) ++ code ∧
    Frame.At cx mfs addrs { fr with code := code } f b (i + 1)

/-- The frame is about to execute the code of a return. -/
def Frame.Returning (cx : Context W) (fr : Frame w) : Prop :=
  ∃ tail, fr.code = cx.save ++ .retVoid :: tail

/-- Every register, subregisters included, has the same value in both frames. -/
def SameRegisters (stats : RegisterStats) (fr fr' : Frame w) : Prop :=
  ∀ r, registerValue stats fr'.locals r = registerValue stats fr.locals r

theorem within_code {fr : Frame M.widths} (rest : List (Frame M.widths)) {shared : Shared M.widths W}
    {code later : List Inst} {d : Data M.widths W} (at_ : fr.code = code ++ later)
    (done : execCode M code (fr.data shared) = some d) :
    Within M.step (Config.On rest) ⟨fr :: rest, shared⟩
      ⟨⟨fr.func, fr.label, later, d.env, d.locals⟩ :: rest, d.shared⟩ := by
  induction code generalizing fr shared with
  | nil =>
    obtain rfl := Option.some.inj done
    obtain ⟨func, label, _, env, locals⟩ := fr
    obtain rfl : _ = later := at_
    exact .refl (Nat.lt_succ_self _)
  | cons i after ih =>
    obtain ⟨middle, one, tail⟩ := Option.bind_eq_some_iff.mp done
    refine .next (Nat.lt_succ_self _) (IRModule.step_plain at_ one) ?_
    exact @ih ⟨fr.func, fr.label, after ++ later, middle.env, middle.locals⟩ middle.shared rfl tail

theorem run_code {fr : Frame M.widths} (rest : List (Frame M.widths)) {shared : Shared M.widths W}
    {code later : List Inst} {d : Data M.widths W} (at_ : fr.code = code ++ later)
    (done : execCode M code (fr.data shared) = some d) :
    Reaches M.step ⟨fr :: rest, shared⟩
      ⟨⟨fr.func, fr.label, later, d.env, d.locals⟩ :: rest, d.shared⟩ :=
  (within_code rest at_ done).reaches

namespace Lifted

theorem enters (lifted : Lifted cx mfs addrs adds M) {g : FuncId} {blocks : Label → List Inst}
    (body : M.body g = some blocks) (rest : List (Frame M.widths)) (shared : Shared M.widths W) :
    ∃ fr symtab, Reaches M.step ⟨M.entryFrame g blocks :: rest, shared⟩
        ⟨fr :: rest, { shared with symtab := symtab }⟩ ∧
      fr.At cx mfs addrs g 0 0 ∧ Agrees cx.stats fr.locals shared.slots := by
  obtain ⟨mf, fin, found, nonempty, whole, rfl⟩ := lifted.body body
  obtain ⟨st, builder, cur, code⟩ := entry_code adds whole nonempty
  let fr := M.entryFrame g (liftedBody cx adds fin)
  obtain ⟨symtab, registered⟩ := exec_adds lifted.adds (fr.data shared)
  obtain ⟨d, loaded, reloaded⟩ := run_materializeRegisters lifted.widths
    { fr.data shared with shared := { shared with symtab := symtab } }
  have run : execCode M (adds ++ materializeRegisters cx.stats) (fr.data shared) = some d := by
    rw [execCode_append, registered]
    exact loaded
  have agrees := reloaded.agrees
  rw [reloaded.shared] at agrees
  refine ⟨⟨g, entryLabel, codeAt cx fin st, d.env, d.locals⟩, symtab, ?_, ⟨rfl, mf, found, ?_⟩, agrees⟩
  · have path := run_code rest code run
    rwa [reloaded.shared] at path
  · rw [pcAt_ok whole builder, cur]

/-- A function returns only through the saves, so that `register_state` holds the
registers it had when it began to return. -/
theorem returns (lifted : Lifted cx mfs addrs adds M) (disjoint : cx.stats.Disjoint) {g : FuncId}
    {blocks : Label → List Inst} (body : M.body g = some blocks) {rest : List (Frame M.widths)}
    {shared : Shared M.widths W} {c : Config M.widths W} {fr : Frame M.widths} {tail : List Inst}
    (run : Within M.step (Config.On rest) ⟨M.entryFrame g blocks :: rest, shared⟩ c)
    (top : c.frames = fr :: rest) (ret : fr.code = .retVoid :: tail) :
    ∃ c₀ fr₀, Within M.step (Config.On rest) ⟨M.entryFrame g blocks :: rest, shared⟩ c₀ ∧
      c₀.frames = fr₀ :: rest ∧ fr₀.Returning cx ∧ Reaches M.step c₀ c ∧
      Agrees cx.stats fr₀.locals c.shared.slots := by
  obtain ⟨c₀, fr₀, path, top₀, code, steps⟩ :=
    returns_through (plain_save cx) lifted.saves body run top ret
  refine ⟨c₀, fr₀, path, top₀, ⟨tail, code⟩, ⟨_, steps⟩, ?_⟩
  obtain ⟨d, saved, effect⟩ := lifted.run_save disjoint (fr₀.data c₀.shared)
  obtain ⟨frames₀, shared₀⟩ := c₀
  obtain rfl : frames₀ = fr₀ :: rest := top₀
  have same := (IRModule.run_plain rest code saved).symm.trans steps
  have slots := congrArg (fun c => c.shared.slots) (Option.some.inj same)
  have agrees := effect.agrees
  rw [effect.locals] at agrees
  exact slots ▸ agrees

theorem call_code (lifted : Lifted cx mfs addrs adds M) {f : FuncId} {b i : Nat}
    {mf : MachineFunction} {mbb : MachineBasicBlock} {minst : MachineInstr} {fr : Frame w}
    (found : mfs[f]? = some mf) (block : mf.blocks[b]? = some mbb) (here : mbb[i]? = some minst)
    (call : isDirectCall cx minst = true) (at_ : fr.At cx mfs addrs f b i) :
    ∃ callee code, minst.globalOperand = some callee ∧ fr.code = cx.save ++ .call callee :: code ∧
      Frame.WaitsAt cx mfs addrs { fr with code := code } f b i := by
  obtain ⟨rfl, mf', found', pc⟩ := at_
  obtain rfl := Option.some.inj (found.symm.trans found')
  obtain ⟨fin, whole, -⟩ := lifted.functions found
  obtain ⟨st, st', code, builder, next, -, appends, chunk, -, ext⟩ := instrLifting whole block here
  rw [dispatch_call call] at chunk
  obtain ⟨cur, callee, operand, rfl⟩ := chunk.of_call
  have noRet : .retVoid ∉ cx.save ++ .call callee :: if cx.functionsNop then [] else cx.reload := by
    have := (plain_reload cx).noRet
    cases cx.functionsNop <;> simp [(plain_save cx).noRet, this]
  have split := codeAt_next cx appends ext cur noRet
  rw [pcAt_ok whole builder] at pc
  obtain ⟨label, code⟩ := Prod.mk.inj (Except.ok.inj pc)
  refine ⟨callee, _, operand, ?_, codeAt cx fin st', rfl, rfl, mf, found, ?_⟩
  · rw [← code, split, List.append_assoc, List.cons_append]
  · rw [pcAt_ok whole next, cur, label]

/-- A direct call saves the registers and enters the callee; the caller waits in
front of the code that loads them. -/
theorem calls (lifted : Lifted cx mfs addrs adds M) (disjoint : cx.stats.Disjoint) {f : FuncId}
    {b i : Nat} {mf : MachineFunction} {mbb : MachineBasicBlock} {minst : MachineInstr}
    {callee : FuncId} {blocks : Label → List Inst} {fr : Frame M.widths} (found : mfs[f]? = some mf)
    (block : mf.blocks[b]? = some mbb) (here : mbb[i]? = some minst)
    (call : isDirectCall cx minst = true) (operand : minst.globalOperand = some callee)
    (body : M.body callee = some blocks) (at_ : fr.At cx mfs addrs f b i)
    (rest : List (Frame M.widths)) (shared : Shared M.widths W) :
    ∃ waiting shared₁, Reaches M.step ⟨fr :: rest, shared⟩
        ⟨M.entryFrame callee blocks :: waiting :: rest, shared₁⟩ ∧
      Agrees cx.stats fr.locals shared₁.slots ∧ waiting.WaitsAt cx mfs addrs f b i := by
  obtain ⟨callee', code, operand', split, waits⟩ := lifted.call_code found block here call at_
  obtain rfl := Option.some.inj (operand.symm.trans operand')
  obtain ⟨d, saved, effect⟩ := lifted.run_save disjoint (fr.data shared)
  have agrees := effect.agrees
  rw [effect.locals] at agrees
  have path := run_code rest split saved
  exact ⟨⟨fr.func, fr.label, code, d.env, d.locals⟩, d.shared,
    path.trans (.single (IRModule.step_call rfl body)), agrees, waits⟩

end Lifted

theorem Agrees.sameRegisters {stats : RegisterStats} {fr fr' : Frame w} {slots : Slots w}
    (first : Agrees stats fr.locals slots) (second : Agrees stats fr'.locals slots) :
    SameRegisters stats fr fr' :=
  fun r => (second.stateValue_eq r).symm.trans (first.stateValue_eq r)

/-- Registers are passed faithfully through every call tree. From a direct call
the run enters the callee; its first guest instruction sees the caller's
registers. When the callee returns, however deep the calls it made were, it has
begun to return in some state, and the caller's next instruction sees the
registers of that state. When the outermost function returns, `register_state`
holds every register. -/
theorem registers_passed_faithfully {finfo : Option FileInfo} {stackSize : Nat}
    {liftedPrefix : String}
    (module : bleachModule cx mfs addrs finfo stackSize liftedPrefix = .ok M)
    (disjoint : cx.stats.Disjoint) (real : cx.functionsNop = false) :
    (∀ {f b i mf mbb minst callee blocks} {fr : Frame M.widths} {rest : List (Frame M.widths)}
      {shared : Shared M.widths W}, mfs[f]? = some mf → mf.blocks[b]? = some mbb →
      mbb[i]? = some minst → i + 1 < mbb.length → isDirectCall cx minst = true →
      minst.globalOperand = some callee → M.body callee = some blocks →
      fr.At cx mfs addrs f b i →
      ∃ waiting shared₁,
        Reaches M.step ⟨fr :: rest, shared⟩
          ⟨M.entryFrame callee blocks :: waiting :: rest, shared₁⟩ ∧
        (∃ fr₁ shared₂, Reaches M.step ⟨M.entryFrame callee blocks :: waiting :: rest, shared₁⟩
            ⟨fr₁ :: waiting :: rest, shared₂⟩ ∧
          fr₁.At cx mfs addrs callee 0 0 ∧ SameRegisters cx.stats fr fr₁) ∧
        ∀ {c fr₂ tail}, Within M.step (Config.On (waiting :: rest))
            ⟨M.entryFrame callee blocks :: waiting :: rest, shared₁⟩ c →
          c.frames = fr₂ :: waiting :: rest → fr₂.code = .retVoid :: tail →
          ∃ c₀ fr₀ fr₃ shared₃, Within M.step (Config.On (waiting :: rest))
              ⟨M.entryFrame callee blocks :: waiting :: rest, shared₁⟩ c₀ ∧
            c₀.frames = fr₀ :: waiting :: rest ∧ fr₀.Returning cx ∧ Reaches M.step c₀ c ∧
            Reaches M.step c ⟨fr₃ :: rest, shared₃⟩ ∧ fr₃.At cx mfs addrs f b (i + 1) ∧
            SameRegisters cx.stats fr₀ fr₃) ∧
    ∀ {f blocks} {shared : Shared M.widths W} {c fr tail}, M.body f = some blocks →
      Within M.step (Config.On []) ⟨[M.entryFrame f blocks], shared⟩ c → c.frames = [fr] →
      fr.code = .retVoid :: tail →
      ∃ c₀ fr₀, Within M.step (Config.On []) ⟨[M.entryFrame f blocks], shared⟩ c₀ ∧
        c₀.frames = [fr₀] ∧ fr₀.Returning cx ∧ Reaches M.step c₀ c ∧
        M.step c = some ⟨[], c.shared⟩ ∧
        ∀ r, stateValue cx.stats c.shared.slots r = registerValue cx.stats fr₀.locals r := by
  obtain ⟨funcs, adds, -, lifted, -, -, -⟩ := lifted_of_bleachModule module
  constructor
  · intro f b i mf mbb minst callee blocks fr rest shared found block here _ call operand body at_
    obtain ⟨waiting, shared₁, path, saved, code, resume, next⟩ :=
      lifted.calls disjoint found block here call operand body at_ rest shared
    simp only [real, Bool.false_eq_true, if_false] at resume
    obtain ⟨fr₁, symtab, entered, first, loaded⟩ := lifted.enters body (waiting :: rest) shared₁
    refine ⟨waiting, shared₁, path, ⟨fr₁, _, entered, first, saved.sameRegisters loaded⟩, ?_⟩
    intro c fr₂ tail run top ret
    obtain ⟨c₀, fr₀, before, top₀, returning, reached, agrees⟩ :=
      lifted.returns disjoint body run top ret
    obtain ⟨d, reload, effect⟩ := lifted.run_reload disjoint (waiting.data c.shared)
    have loaded := effect.agrees
    rw [effect.shared] at loaded
    obtain ⟨frames, shared'⟩ := c
    obtain rfl : frames = fr₂ :: waiting :: rest := top
    exact ⟨c₀, fr₀, ⟨waiting.func, waiting.label, code, d.env, d.locals⟩, d.shared, before, top₀,
      returning, reached, .head (IRModule.step_ret ret) (run_code _ resume reload), next,
      agrees.sameRegisters loaded⟩
  · intro f blocks shared c fr tail body run top ret
    obtain ⟨c₀, fr₀, path, top₀, returning, reached, agrees⟩ :=
      lifted.returns disjoint body run top ret
    obtain ⟨frames, shared'⟩ := c
    obtain rfl : frames = [fr] := top
    exact ⟨c₀, fr₀, path, top₀, returning, reached, IRModule.step_ret ret, agrees.stateValue_eq⟩

namespace RiscV

def callerOfLeaf : List MachineFunction :=
  [⟨"caller", [[call 1, addi X10 X10 1, ret]]⟩, ⟨"leaf", [[addi X10 X10 1, ret]]⟩]

theorem caller_passes_registers : ∃ fr waiting shared,
    Reaches (module callerOfLeaf none).step ⟨[frameAt _ callerOfLeaf 0 0 0], zeroed _⟩
      ⟨[fr, waiting], shared⟩ ∧
    fr.At context callerOfLeaf (fun _ => none) 1 0 0 ∧
    SameRegisters [gpr] (frameAt _ callerOfLeaf 0 0 0) fr := by
  obtain ⟨calls, -⟩ := @registers_passed_faithfully World context callerOfLeaf (fun _ => none)
    (module callerOfLeaf none) none 64 "" rfl (by decide) rfl
  obtain ⟨waiting, _, called, ⟨fr, shared, entered, at_, same⟩, -⟩ :=
    @calls 0 0 0 _ _ _ _ _ (frameAt _ callerOfLeaf 0 0 0) [] (zeroed _) rfl rfl rfl (by decide)
      (by decide) rfl rfl ⟨rfl, _, rfl, rfl⟩
  exact ⟨fr, waiting, shared, called.trans entered, at_, same⟩

end RiscV
end Bleach
