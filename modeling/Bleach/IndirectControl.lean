import Bleach.BlockEndCalls
import Bleach.CallTrace
import Bleach.Lifter.Operands

/-! Control behind an indirect branch. The branch becomes a call that is marked
`musttail`, the registers are loaded behind the call as behind any other, and what
ends the block is chosen later, by flags that do not say whether the branch links. -/
namespace Bleach
open Transition
variable {W : Type} {w : Nat → Nat} {cx : Context W} {mfs : List MachineFunction}
  {addrs : FuncId → FunctionAddresses} {adds : List Inst} {M : IRModule W} {mf : MachineFunction}
  {mbb : MachineBasicBlock} {minst : MachineInstr} {f : FuncId} {b i : Nat}

/-- The frame waits for the function that the indirect branch at instruction `i`
has looked up. -/
def Frame.WaitsIndirect (cx : Context W) (mfs : List MachineFunction)
    (addrs : FuncId → FunctionAddresses) (fr : Frame w) (f : FuncId) (b : BlockId) (i : Nat) : Prop :=
  ∃ code, fr.code = cx.reload ++ code ∧ Frame.At cx mfs addrs { fr with code := code } f b (i + 1)

/-- A frame that waits behind the branch copies registers, if anything, and returns
with `register_state` as it found it. -/
def ReturnsBehind (cx : Context W) (mfs : List MachineFunction) (addrs : FuncId → FunctionAddresses)
    (M : IRModule W) (f : FuncId) (b : BlockId) (i : Nat) : Prop :=
  ∀ waiting : Frame M.widths, waiting.WaitsIndirect cx mfs addrs f b i →
    (∃ copies tail, waiting.code = copies ++ .retVoid :: tail ∧
      ∀ j ∈ copies, j ∈ cx.reload ∨ j ∈ cx.save) ∧
    ∀ rest shared, Reaches M.step ⟨waiting :: rest, shared⟩ ⟨rest, shared⟩

/-- A frame that waits behind the branch goes on at `place` with the registers of
`register_state`. -/
def ResumesBehind (cx : Context W) (mfs : List MachineFunction) (addrs : FuncId → FunctionAddresses)
    (M : IRModule W) (f : FuncId) (b : BlockId) (i : Nat) (place : BlockId × Nat) : Prop :=
  ∀ (waiting : Frame M.widths) rest shared, waiting.WaitsIndirect cx mfs addrs f b i →
    ∃ fr, Within M.step (Config.On rest) ⟨waiting :: rest, shared⟩ ⟨fr :: rest, shared⟩ ∧
      fr.At cx mfs addrs f place.1 place.2 ∧ Agrees cx.stats fr.locals shared.slots

/-- Every `musttail` call, which all calls of looked-up functions are, is followed by
a return. -/
def MustTailLegal (blocks : Label → List Inst) : Prop :=
  ∀ l before callee after, blocks l = before ++ .callPtr callee :: after →
    after.head? = some .retVoid

/-- What an indirect branch has to do. -/
structure IndirectSound (cx : Context W) (mfs : List MachineFunction)
    (addrs : FuncId → FunctionAddresses) (M : IRModule W) (f : FuncId) (mf : MachineFunction)
    (b : BlockId) (mbb : MachineBasicBlock) (i : Nat) (minst : MachineInstr) : Prop where
  jump : linksReturnAddress cx minst = false → ReturnsBehind cx mfs addrs M f b i
  link : linksReturnAddress cx minst = true → ∀ place, nextPlace mf b mbb i = some place →
    ResumesBehind cx mfs addrs M f b i place
  legal : ∀ blocks, M.body f = some blocks → MustTailLegal blocks

theorem dispatch_isIndirect (noReturn : isReturn cx minst = false)
    (indirect : isIndirectBranch cx minst = true) (T : StackPointerTracker) :
    dispatch cx minst T = .indirect := by
  simp [dispatch, noReturn, indirect]

theorem indirectLifting {addrs : FunctionAddresses} {fin : Builder}
    (whole : finalBuilder cx mf addrs = .ok fin) (block : mf.blocks[b]? = some mbb)
    (here : mbb[i]? = some minst) (noReturn : isReturn cx minst = false)
    (indirect : isIndirectBranch cx minst = true) : ∃ st st' before,
      InstrLifting cx mf addrs fin b mbb i minst st st'
        (before ++ .callPtr (.callee b i) :: cx.reload) ∧ Plain before ∧ st'.cur = st.cur := by
  obtain ⟨st, st', code, lifting⟩ := instrLifting whole block here
  have chunk := lifting.chunk
  rw [dispatch_isIndirect noReturn indirect] at chunk
  obtain ⟨cur, before, plain, rfl⟩ := chunk.of_indirect
  exact ⟨st, st', before, lifting, plain, cur⟩

theorem indirect_noRet {before : List Inst} (plain : Plain before) (callee : ValueId) :
    .retVoid ∉ before ++ .callPtr callee :: cx.reload := by
  have loads := (plain_reload cx).noRet
  simp [plain.noRet, loads]

theorem Lifted.indirect_code (lifted : Lifted cx mfs addrs adds M) (found : mfs[f]? = some mf)
    (block : mf.blocks[b]? = some mbb) (here : mbb[i]? = some minst)
    (noReturn : isReturn cx minst = false) (indirect : isIndirectBranch cx minst = true)
    {fr : Frame w} (at_ : fr.At cx mfs addrs f b i) : ∃ before code, Plain before ∧
      fr.code = before ++ .callPtr (.callee b i) :: code ∧
      Frame.WaitsIndirect cx mfs addrs { fr with code := code } f b i := by
  obtain ⟨rfl, mf', found', pc⟩ := at_
  obtain rfl := Option.some.inj (found.symm.trans found')
  obtain ⟨fin, whole, -⟩ := lifted.functions found
  obtain ⟨st, st', before, lifting, plain, cur⟩ :=
    indirectLifting whole block here noReturn indirect
  have split := codeAt_next cx lifting.appends lifting.rest cur (indirect_noRet plain _)
  rw [pcAt_ok whole lifting.builder] at pc
  obtain ⟨label, code⟩ := Prod.mk.inj (Except.ok.inj pc)
  refine ⟨before, cx.reload ++ codeAt cx fin st', plain, ?_, _, rfl, rfl, mf, found, ?_⟩
  · rw [← code, split, List.append_assoc, List.cons_append]
  · rw [pcAt_ok whole lifting.next, cur, label]

theorem reload_ne_nil (classes : cx.stats ≠ [])
    (populated : ∀ rclass ∈ cx.stats, rclass.regs.entries ≠ []) : cx.reload ≠ [] := by
  obtain ⟨rclass, others, stats⟩ := List.exists_cons_of_ne_nil classes
  have member : rclass ∈ cx.stats := by simp [stats]
  obtain ⟨⟨reg, subregs⟩, regs, entries⟩ := List.exists_cons_of_ne_nil (populated rclass member)
  have contained : rclass.regs.contains reg = true :=
    OrderedMap.contains_iff.mpr (by simp [OrderedMap.keys, entries])
  -- the register is bound, so the class has an entry in the register map
  obtain ⟨c, bound⟩ : ∃ c, cx.rmap.find reg = some c := by
    apply Option.isSome_iff_exists.mp
    rw [Context.rmap, registerMap_eq, OrderedMap.find_foldl_tryEmplace, OrderedMap.find_empty,
      Option.none_or, stats]
    simp [bindings, classBindings, entries]
  obtain ⟨e, inside, rfl⟩ := List.mem_map.mp (OrderedMap.mem_keys_iff.mpr ⟨c, bound⟩)
  have listed : e ∈ cx.rmap.entries.filter (fun e => rclass.regs.contains e.1) :=
    List.mem_filter.mpr ⟨inside, contained⟩
  obtain ⟨first, rest, found⟩ := List.exists_cons_of_ne_nil (List.ne_nil_of_mem listed)
  simp [Context.reload, loadRegisters, stats, classEntries, found]

/-- The saves in front of the first return leave the code behind a point as it is,
up to the saves themselves. -/
theorem saved_split (save first second : List Inst) : ∃ before,
    saveRegistersBeforeReturn save (first ++ second) = before ++ second ∨
    saveRegistersBeforeReturn save (first ++ second) =
      before ++ saveRegistersBeforeReturn save second := by
  by_cases ret : .retVoid ∈ first
  · obtain ⟨early, later, rfl, noRet⟩ := List.eq_append_cons_of_mem ret
    refine ⟨early ++ (save ++ .retVoid :: later), .inl ?_⟩
    rw [List.append_assoc, saveRegistersBeforeReturn_append save noRet, List.cons_append,
      saveRegistersBeforeReturn_ret]
    simp
  · exact ⟨first, .inr (saveRegistersBeforeReturn_append save ret second)⟩

/-- Where there is a register to load, a load follows the call of an indirect branch. -/
theorem Lifted.not_mustTailLegal (lifted : Lifted cx mfs addrs adds M) (loads : cx.reload ≠ [])
    (found : mfs[f]? = some mf) (block : mf.blocks[b]? = some mbb) (here : mbb[i]? = some minst)
    (noReturn : isReturn cx minst = false) (indirect : isIndirectBranch cx minst = true) :
    ∃ blocks, M.body f = some blocks ∧ ¬MustTailLegal blocks := by
  obtain ⟨fin, whole, body⟩ := lifted.functions found
  have nonempty : mf.blocks ≠ [] := by
    rintro empty
    simp [empty] at block
  rw [if_neg (by simpa using nonempty)] at body
  obtain ⟨st, st', before, lifting, plain, cur⟩ :=
    indirectLifting whole block here noReturn indirect
  obtain ⟨load, rest, reload⟩ := List.exists_cons_of_ne_nil loads
  have straight : load.isPlain = true := plain_reload cx load (by simp [reload])
  obtain ⟨more, filled⟩ := lifting.rest st.cur
  rw [lifting.appends.here] at filled
  have calls : fin.blocks st.cur =
      (st.blocks st.cur ++ before) ++ .callPtr (.callee b i) :: load :: (rest ++ more) := by
    rw [← filled, reload]
    simp
  have noRet : .retVoid ∉ [.callPtr (.callee b i), load] := by
    simp only [List.mem_cons, List.not_mem_nil, or_false, not_or]
    refine ⟨nofun, ?_⟩
    rintro rfl
    cases straight
  have behind : ∃ early late, saveRegistersBeforeReturn cx.save (fin.blocks st.cur) =
      early ++ .callPtr (.callee b i) :: load :: late := by
    obtain ⟨early, split | split⟩ := saved_split cx.save (st.blocks st.cur ++ before)
      (.callPtr (.callee b i) :: load :: (rest ++ more))
    · exact ⟨early, _, calls ▸ split⟩
    · have inside := saveRegistersBeforeReturn_append cx.save noRet (rest ++ more)
      refine ⟨early, saveRegistersBeforeReturn cx.save (rest ++ more), ?_⟩
      rw [calls, split]
      exact congrArg _ inside
  obtain ⟨early, late, behind⟩ := behind
  refine ⟨_, body, fun legal => ?_⟩
  have followed : ∃ early, liftedBody cx adds fin st.cur =
      early ++ .callPtr (.callee b i) :: load :: late := by
    by_cases entry : st.cur = entryLabel
    · refine ⟨adds ++ early, ?_⟩
      rw [entry, liftedBody_entry, ← entry, behind, List.append_assoc]
    · exact ⟨early, (liftedBody_other entry).trans behind⟩
  obtain ⟨early, followed⟩ := followed
  have returns := legal _ _ _ _ followed
  obtain rfl : load = .retVoid := Option.some.inj returns
  cases straight

theorem Lifted.reloads (lifted : Lifted cx mfs addrs adds M) (disjoint : cx.stats.Disjoint)
    {waiting : Frame M.widths} {code : List Inst} (split : waiting.code = cx.reload ++ code)
    (rest : List (Frame M.widths)) (shared : Shared M.widths W) : ∃ env locals,
      Within M.step (Config.On rest) ⟨waiting :: rest, shared⟩
        ⟨⟨waiting.func, waiting.label, code, env, locals⟩ :: rest, shared⟩ ∧
      Agrees cx.stats locals shared.slots := by
  obtain ⟨d, loaded, reloaded⟩ := lifted.run_reload disjoint (waiting.data shared)
  have path := within_code rest split loaded
  have agrees := reloaded.agrees
  rw [reloaded.shared] at path agrees
  exact ⟨d.env, d.locals, path, agrees⟩

theorem Saved.shared_eq {d d' : Data w W} (saved : Saved (transfers cx.stats) d d')
    (agrees : Agrees cx.stats d.locals d.shared.slots) : d'.shared = d.shared := by
  have slots : d'.shared.slots = d.shared.slots := by
    funext s
    by_cases copied : ∃ t ∈ transfers cx.stats, t.slot = s
    · obtain ⟨t, member, rfl⟩ := copied
      exact (saved.copied t member).trans (agrees t member).symm
    · exact saved.others s fun t member same => copied ⟨t, member, same⟩
  rw [saved.shared, slots]

theorem same_control {first second tail tail' : List Inst} {a a' : Inst} (plain : Plain first)
    (plain' : Plain second) (leaves : a.isPlain = false) (leaves' : a'.isPlain = false)
    (same : first ++ a :: tail = second ++ a' :: tail') : a = a' := by
  obtain ⟨between, rfl, split⟩ | ⟨between, rfl, split⟩ := List.append_eq_append_iff.mp same
  · cases between with
    | nil => exact (List.cons.inj split).1
    | cons j later =>
      obtain ⟨rfl, -⟩ := List.cons.inj split
      have straight := plain' a (by simp)
      simp [leaves] at straight
  · cases between with
    | nil => exact (List.cons.inj split).1.symm
    | cons j later =>
      obtain ⟨rfl, -⟩ := List.cons.inj split
      have straight := plain a' (by simp)
      simp [leaves'] at straight

/-- Behind an instruction that ends its block and is no call stands a jump to the
next block. -/
theorem block_end_jump (lifted : Lifted cx mfs addrs adds M) {fr : Frame w}
    (found : mfs[f]? = some mf) (block : mf.blocks[b]? = some mbb)
    (last : mbb.getLast? = some minst) (noCall : isCall minst = false)
    (noReturn : isReturn cx minst = false) (noBranch : isBranch minst = false)
    (at_ : fr.At cx mfs addrs f b mbb.length) :
    b + 1 < mf.blocks.length ∧ ∃ tail, fr.code = .br (.mbb (b + 1)) :: tail := by
  obtain ⟨rfl, mf', found', pc⟩ := at_
  obtain rfl := Option.some.inj (found.symm.trans found')
  obtain ⟨fin, whole, -⟩ := lifted.functions found
  obtain ⟨st, -, builder, -⟩ := builderAt_end whole block
  rw [pcAt_ok whole builder] at pc
  obtain ⟨-, code⟩ := Prod.mk.inj (Except.ok.inj pc)
  obtain ⟨call, -⟩ | ⟨-, bound, rest, jump⟩ := codeAt_end whole block last builder noBranch noReturn
  · simp [noCall] at call
  · exact ⟨bound, rest, code.symm.trans jump⟩

namespace Lifted
variable (lifted : Lifted cx mfs addrs adds M)
include lifted

/-- Inside its block the branch is followed by the next instruction, whether it
links or not. -/
theorem resumes_inside (disjoint : cx.stats.Disjoint) :
    ResumesBehind cx mfs addrs M f b i (b, i + 1) := by
  rintro waiting rest shared ⟨code, split, at_⟩
  obtain ⟨env, locals, path, agrees⟩ := lifted.reloads disjoint split rest shared
  exact ⟨_, path, at_, agrees⟩

theorem returns_behind (disjoint : cx.stats.Disjoint) (found : mfs[f]? = some mf)
    (block : mf.blocks[b]? = some mbb) (last : mbb.getLast? = some minst)
    (position : i + 1 = mbb.length) (call : isCall minst = true)
    (noReturn : isReturn cx minst = false) (noBranch : isBranch minst = false) :
    ReturnsBehind cx mfs addrs M f b i := by
  rintro waiting ⟨code, split, at_⟩
  rw [position] at at_
  obtain ⟨tail, rfl, -⟩ := block_end_code lifted found block last call noReturn noBranch at_
  refine ⟨⟨cx.reload ++ cx.save, tail, by rw [split, List.append_assoc], ?_⟩, ?_⟩
  · intro j member
    exact List.mem_append.mp member
  · intro rest shared
    obtain ⟨env, locals, path, agrees⟩ := lifted.reloads disjoint split rest shared
    let loaded : Frame M.widths :=
      ⟨waiting.func, waiting.label, cx.save ++ .retVoid :: tail, env, locals⟩
    obtain ⟨d, saved, effect⟩ := lifted.run_save disjoint (loaded.data shared)
    have run := run_code rest (show loaded.code = cx.save ++ .retVoid :: tail from rfl) saved
    rw [effect.shared_eq agrees] at run
    exact (path.reaches.trans run).trans (.single (IRModule.step_ret rfl))

theorem not_returns_behind (found : mfs[f]? = some mf) (block : mf.blocks[b]? = some mbb)
    (last : mbb.getLast? = some minst) (position : i + 1 = mbb.length)
    (noCall : isCall minst = false) (noReturn : isReturn cx minst = false)
    (noBranch : isBranch minst = false) : ¬ReturnsBehind cx mfs addrs M f b i := by
  intro returns
  obtain ⟨fin, whole, -⟩ := lifted.functions found
  obtain ⟨st, -, builder, -⟩ := builderAt_end whole block
  let waiting : Frame M.widths :=
    ⟨f, st.cur, cx.reload ++ codeAt cx fin st, fun _ => none, fun _ => 0⟩
  have at_ : Frame.At cx mfs addrs { waiting with code := codeAt cx fin st } f b mbb.length :=
    ⟨rfl, mf, found, pcAt_ok whole builder⟩
  obtain ⟨-, tail, jump⟩ := block_end_jump lifted found block last noCall noReturn noBranch at_
  obtain ⟨⟨copies, tail', code, only⟩, -⟩ := returns waiting ⟨_, rfl, position ▸ at_⟩
  have straight : Plain copies := by
    intro j member
    rcases only j member with load | save
    · exact plain_reload cx j load
    · exact plain_save cx j save
  have split : waiting.code = cx.reload ++ .br (.mbb (b + 1)) :: tail := congrArg _ jump
  cases same_control (plain_reload cx) straight rfl rfl (split.symm.trans code)

theorem resumes_next (disjoint : cx.stats.Disjoint) (shape : WellShaped cx mf)
    (found : mfs[f]? = some mf) (block : mf.blocks[b]? = some mbb)
    (last : mbb.getLast? = some minst) (position : i + 1 = mbb.length)
    (noCall : isCall minst = false) (noReturn : isReturn cx minst = false)
    (noBranch : isBranch minst = false) : ResumesBehind cx mfs addrs M f b i (b + 1, 0) := by
  rintro waiting rest shared ⟨code, split, at_⟩
  rw [position] at at_
  obtain ⟨bound, tail, rfl⟩ :=
    block_end_jump lifted found block last noCall noReturn noBranch at_
  obtain ⟨env, locals, path, agrees⟩ := lifted.reloads disjoint split rest shared
  obtain ⟨fin, whole, body⟩ := lifted.functions found
  have nonempty : mf.blocks ≠ [] := List.ne_nil_of_length_pos (by omega)
  rw [if_neg (by simpa using nonempty)] at body
  obtain ⟨st, builder, cur, start⟩ :=
    later_start shape whole adds (List.getElem?_eq_getElem bound) (Nat.succ_pos b)
  obtain rfl : waiting.func = f := at_.1
  refine ⟨⟨waiting.func, .mbb (b + 1), liftedBody cx adds fin (.mbb (b + 1)), env, locals⟩,
    path.snoc (IRModule.step_br rfl body) (Nat.lt_succ_self _), ⟨rfl, mf, found, ?_⟩, agrees⟩
  rw [pcAt_ok whole builder, cur, start]

end Lifted

/-- Control behind an indirect branch. The frame that called the looked-up function
always waits in front of the copies, so no `musttail` call is ever followed by a
return. Inside its block the branch goes on, at the end of its block it returns if
and only if the opcode counts as a call, and neither depends on whether it links. -/
theorem indirect_control {finfo : Option FileInfo} {stackSize : Nat} {liftedPrefix : String}
    (module : bleachModule cx mfs addrs finfo stackSize liftedPrefix = .ok M)
    (populated : ∀ rclass ∈ cx.stats, rclass.regs.entries ≠ []) (found : mfs[f]? = some mf)
    (block : mf.blocks[b]? = some mbb) (here : mbb[i]? = some minst)
    (noReturn : isReturn cx minst = false) (indirect : isIndirectBranch cx minst = true) :
    (∀ fr : Frame M.widths, fr.At cx mfs addrs f b i → ∃ before code, Plain before ∧
      fr.code = before ++ .callPtr (.callee b i) :: code ∧
      Frame.WaitsIndirect cx mfs addrs { fr with code := code } f b i) ∧
    ¬IndirectSound cx mfs addrs M f mf b mbb i minst ∧
    (cx.stats.Disjoint → i + 1 < mbb.length → ResumesBehind cx mfs addrs M f b i (b, i + 1)) ∧
    (cx.stats.Disjoint → i + 1 = mbb.length → isBranch minst = false →
      (ReturnsBehind cx mfs addrs M f b i ↔ isCall minst = true) ∧
      (isCall minst = true → b + 1 < mf.blocks.length → ∀ (waiting : Frame M.widths) rest shared,
        waiting.WaitsIndirect cx mfs addrs f b i →
        ¬Continues cx mfs addrs M f (b + 1) rest ⟨waiting :: rest, shared⟩) ∧
      (isCall minst = false → WellShaped cx mf →
        ResumesBehind cx mfs addrs M f b i (b + 1, 0))) := by
  have classes : cx.stats ≠ [] := by
    rintro empty
    simp [bleachModule, empty] at module
  obtain ⟨funcs, adds, -, lifted, -, -, -⟩ := lifted_of_bleachModule module
  refine ⟨fun fr at_ => lifted.indirect_code found block here noReturn indirect at_, ?_,
    fun disjoint _ => lifted.resumes_inside disjoint, ?_⟩
  · intro sound
    obtain ⟨blocks, body, illegal⟩ := lifted.not_mustTailLegal (reload_ne_nil classes populated)
      found block here noReturn indirect
    exact illegal (sound.legal blocks body)
  · intro disjoint position noBranch
    have last := getLast?_of_end here position
    refine ⟨⟨fun returns => ?_, fun call => lifted.returns_behind disjoint found block last position
      call noReturn noBranch⟩, ?_, fun noCall shape => lifted.resumes_next disjoint shape found
      block last position noCall noReturn noBranch⟩
    · cases noCall : isCall minst with
      | true => rfl
      | false =>
        exact absurd returns
          (lifted.not_returns_behind found block last position noCall noReturn noBranch)
    · rintro call successor waiting rest shared ⟨code, split, at_⟩
      rw [position] at at_
      obtain ⟨tail, returns, next⟩ :=
        block_end_code lifted found block last call noReturn noBranch at_
      exact never_continues (plain_reload cx) split returns fun fr' => next fr' successor

namespace RiscV

def C_JR : InstrDesc :=
  { name := "C_JR", numDefs := 0, isBranch := true, isBarrier := true, isIndirectBranch := true }

def c_jr (base : Register) : MachineInstr := ⟨C_JR, [use base]⟩

/-- A jump through a register at the end of its block. -/
def jumpsThrough : MachineFunction := ⟨"jumps", [[c_jr X10], [ret]]⟩

/-- A call through a register at the end of its block. -/
def callsThrough : MachineFunction := ⟨"calls", [[jalr X1 X10 0], [addi X10 X10 1, ret]]⟩

def throughRegisters : List MachineFunction := [jumpsThrough, callsThrough]

theorem throughRegisters_lifted : ∃ adds, Lifted context throughRegisters (fun _ => none) adds
    (module throughRegisters none) := by
  obtain ⟨funcs, adds, -, lifted, -, -, -⟩ :=
    @lifted_of_bleachModule World context throughRegisters (fun _ => none)
      (module throughRegisters none) none 64 "" rfl
  exact ⟨adds, lifted⟩

/-- The jump does not return, the call does. -/
theorem throughRegisters_control :
    ¬ReturnsBehind context throughRegisters (fun _ => none) (module throughRegisters none) 0 0 0 ∧
    ReturnsBehind context throughRegisters (fun _ => none) (module throughRegisters none) 1 0 0 := by
  obtain ⟨-, -, -, jumps⟩ := @indirect_control World context throughRegisters (fun _ => none)
    (module throughRegisters none) _ _ (c_jr X10) 0 0 0 none 64 "" rfl (by decide) rfl rfl rfl rfl rfl
  obtain ⟨-, -, -, calls⟩ := @indirect_control World context throughRegisters (fun _ => none)
    (module throughRegisters none) _ _ (jalr X1 X10 0) 1 0 0 none 64 "" rfl (by decide) rfl rfl rfl rfl
    rfl
  constructor
  · rw [(jumps (by decide) rfl rfl).1]
    decide
  · exact (calls (by decide) rfl rfl).1.mpr rfl

/-- The frame of `calls` when the function it looked up has returned. -/
def lookedUpReturned : Frame (module throughRegisters none).widths :=
  let fr := frameAt _ throughRegisters 1 0 1
  { fr with code := context.reload ++ fr.code }

theorem throughRegisters_unsound :
    ¬IndirectSound context throughRegisters (fun _ => none) (module throughRegisters none) 0
      jumpsThrough 0 [c_jr X10] 0 (c_jr X10) ∧
    ¬IndirectSound context throughRegisters (fun _ => none) (module throughRegisters none) 1
      callsThrough 0 [jalr X1 X10 0] 0 (jalr X1 X10 0) := by
  obtain ⟨adds, lifted⟩ := throughRegisters_lifted
  constructor
  · intro sound
    exact lifted.not_returns_behind rfl rfl rfl rfl rfl rfl rfl (sound.jump rfl)
  · intro sound
    have behind : (frameAt (module throughRegisters none).widths throughRegisters 1 0 1).At context
        throughRegisters (fun _ => none) 1 0 1 := ⟨rfl, _, rfl, rfl⟩
    obtain ⟨fr, path, at_, -⟩ :=
      sound.link rfl (1, 0) rfl lookedUpReturned [] (zeroed _) ⟨_, rfl, behind⟩
    have block : callsThrough.blocks[0]? = some [jalr X1 X10 0] := rfl
    obtain ⟨tail, returns, next⟩ := block_end_code lifted rfl block rfl rfl rfl rfl behind
    have split : lookedUpReturned.code = context.reload ++
        (frameAt (module throughRegisters none).widths throughRegisters 1 0 1).code := rfl
    exact never_continues (plain_reload context) split returns (fun fr' => next fr' (by decide))
      ⟨⟨[fr], zeroed _⟩, fr, path, rfl, at_⟩

end RiscV
end Bleach
