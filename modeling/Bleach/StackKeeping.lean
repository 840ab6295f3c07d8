import Bleach.StackGuest

/-! Lifted code that keeps to the slot of the stack pointer, as the adjustments executed
so far add up. The condition in front of some code is taken back through it instruction
by instruction, so that the code of a machine instruction is judged for whatever follows
it. -/
namespace Bleach

/-- Direct and indirect calls. -/
def Inst.isCall : Inst → Bool
  | .call _ | .callPtr _ => true
  | _ => false

/-- The variable an instruction reads, the copies for `register_state` apart. -/
def Inst.reads? : Inst → Option Cell
  | .load (.copy _) _ (.cell _) => none
  | .load _ _ (.cell c) => some c
  | _ => none

theorem Inst.plain_stays {i : Inst} (plain : i.isPlain = true) : i.targets = [] ∧ i.isCall = false := by
  cases i <;> first | exact ⟨rfl, rfl⟩ | cases plain

theorem Inst.call_enters {i : Inst} (call : i.isCall = true) : i.isPlain = false ∧ i.targets = [] := by
  cases i <;> first | exact ⟨rfl, rfl⟩ | cases call

theorem Inst.terminator_leaves {i : Inst} (ends : i.isTerminator = true) :
    i.isPlain = false ∧ i.isCall = false := by
  cases i <;> first | exact ⟨rfl, rfl⟩ | cases ends

/-- What transfers control does nothing else. -/
theorem Inst.control_only {W : Type} {M : IRModule W} {i : Inst} (control : i.isPlain = false)
    (d : Data M.widths W) : i.reads? = none ∧ i.stackIndex? = none ∧ execInst M d i = none := by
  cases i <;> first | exact ⟨rfl, rfl, rfl⟩ | cases control

namespace RiscV
variable {W : Type} {w : Nat → Nat} {cx : Context W} {mf : MachineFunction} {M : IRModule W}
  {minst : MachineInstr} {spReg : Register} {sp : Cell} {slot : BitVec 64} {code : List Inst}

/-- The variable of the stack pointer has a slot. -/
def LocalAt (sp : Cell) (locals : Locals w) (slot : BitVec 64) : Prop := pointerSlot sp locals = slot

/-- The stack pointer of `register_state` has a slot. -/
def StateAt (stats : RegisterStats) (sp : Cell) (slots : Slots w) (slot : BitVec 64) : Prop :=
  ∀ t ∈ transfers stats, t.cell = sp → (slots t.slot).setWidth 64 = slot

/-- The operands of instructions behind a conditional branch have no values. -/
def Unloaded (cx : Context W) (mf : MachineFunction) (env : Env) : Prop :=
  ∀ {b i : Nat} {mbb : MachineBasicBlock} (k : Nat), mf.blocks[b]? = some mbb → ¬Unbranched cx mbb i →
    env (.operand b i k) = none

/-- The slot at an offset from a slot. -/
def slotBehind (slot : BitVec 64) (off : Int) : BitVec 64 := slot - BitVec.ofInt 64 (off / 8)

/-- An access to the slot of its offset; a store stores the register's value. -/
inductive AccessesSlot (cx : Context W) (mf : MachineFunction) (spReg : Register) (d : Data w W)
    (slot : BitVec 64) : Inst → Prop where
  | load {b k rd off} (here : mf.instr? b k = some (ld rd spReg off)) (aligned : 8 ∣ off)
      (index : d.env (.index b k) = some (.int ⟨64, slotBehind slot off⟩)) :
      AccessesSlot cx mf spReg d slot (.load (.result b k) 64 (.stack (.ssa (.index b k))))
  | store {b k rs off value} (here : mf.instr? b k = some (sd rs spReg off)) (aligned : 8 ∣ off)
      (index : d.env (.index b k) = some (.int ⟨64, slotBehind slot off⟩))
      (stored : ∀ v, evalInt d.env value = some v → v = ⟨64, operandValue cx d.locals rs⟩) :
      AccessesSlot cx mf spReg d slot (.store value (.stack (.ssa (.index b k))))

/-- The condition in front of an instruction, `next` being the one behind it. -/
structure Ready (cx : Context W) (mf : MachineFunction) (spReg : Register) (sp : Cell)
    (next : Data M.widths W → BitVec 64 → Prop) (i : Inst) (d : Data M.widths W) (slot : BitVec 64) :
    Prop where
  returns : i = .retVoid → StateAt cx.stats sp d.shared.slots slot
  jumps : ∀ l ∈ i.targets, l ≠ entryLabel ∧ LocalAt sp d.locals slot
  calls : i.isCall = true → StateAt cx.stats sp d.shared.slots slot ∧
    ∀ (shared : Shared M.widths W) slot', StateAt cx.stats sp shared.slots slot' →
      next ⟨d.env, d.locals, shared⟩ slot'
  reads : i.reads? = some sp → LocalAt sp d.locals slot
  accesses : (i.stackIndex?).isSome = true → AccessesSlot cx mf spReg d slot i
  onward : ∀ d', execInst M d i = some d' → next d' (slotStep mf spReg i slot)

/-- Code that keeps to the stack pointer from a state on that has it at `slot`. -/
def Keeps (cx : Context W) (mf : MachineFunction) (spReg : Register) (sp : Cell) :
    List Inst → Data M.widths W → BitVec 64 → Prop
  | [], _, _ => True
  | i :: code, d, slot => Unloaded cx mf d.env →
      Ready cx mf spReg sp (Keeps cx mf spReg sp code) i d slot

/-- Code without calls, stack accesses and instructions of the guest. -/
def Quiet (mf : MachineFunction) (spReg : Register) (code : List Inst) : Prop :=
  ∀ i ∈ code, i.isPlain = true ∧ i.stackIndex? = none ∧ adjusted? mf spReg i = none

/-- Quiet code passes the condition on if what it needs to read the stack pointer is
kept by it. -/
theorem keeps_quiet {P : Data M.widths W → Prop} {first : List Inst} (quiet : Quiet mf spReg first)
    (reads : ∀ i ∈ first, i.reads? = some sp → ∀ d, P d → LocalAt sp d.locals slot)
    (stable : ∀ i ∈ first, ∀ d d', P d → execInst M d i = some d' → P d') {d : Data M.widths W}
    (here : P d) (after : ∀ d', P d' → execCode M first d = some d' →
      Keeps cx mf spReg sp code d' slot) : Keeps cx mf spReg sp (first ++ code) d slot := by
  induction first generalizing d with
  | nil => exact after d here rfl
  | cons i rest ih =>
    obtain ⟨⟨plain, off, still⟩, quietRest⟩ := List.forall_mem_cons.mp quiet
    obtain ⟨readsHere, readsRest⟩ := List.forall_mem_cons.mp reads
    obtain ⟨stableHere, stableRest⟩ := List.forall_mem_cons.mp stable
    intro _
    obtain ⟨noTarget, noCall⟩ := Inst.plain_stays plain
    refine ⟨?_, by simp [noTarget], by simp [noCall], fun read => readsHere read d here, by simp [off],
      fun d' done => ?_⟩
    · rintro rfl
      cases plain
    · rw [slotStep, still]
      apply ih quietRest readsRest stableRest (stableHere d d' here done)
      intro d'' kept run
      exact after d'' kept (by rw [execCode, done]; exact run)

/-- Quiet code that leaves the variable of the stack pointer alone. -/
structure Spares (mf : MachineFunction) (spReg : Register) (sp : Cell) (code : List Inst) : Prop where
  quiet : Quiet mf spReg code
  writes : ∀ i ∈ code, i.writes? ≠ some sp

theorem keeps_spares {first : List Inst} (spares : Spares mf spReg sp first) {d : Data M.widths W}
    (at_ : LocalAt sp d.locals slot) (after : ∀ d', LocalAt sp d'.locals slot →
      execCode M first d = some d' → Keeps cx mf spReg sp code d' slot) :
    Keeps cx mf spReg sp (first ++ code) d slot := by
  refine keeps_quiet (P := fun d => LocalAt sp d.locals slot) spares.quiet (fun _ _ _ _ here => here)
    (fun i member d d' here done => ?_) at_ after
  rw [LocalAt, pointerSlot, (exec_framed done).locals (spares.writes i member)]
  exact here

/-- Code that may follow whatever knows the slot of the stack pointer. -/
def Fine (cx : Context W) (mf : MachineFunction) (M : IRModule W) (spReg : Register)
    (sp : Cell) (code : List Inst) : Prop :=
  ∀ (d : Data M.widths W) slot, LocalAt sp d.locals slot → Keeps cx mf spReg sp code d slot

/-- Emitted code that may stand in front of whatever code may follow it. -/
def Sound (cx : Context W) (mf : MachineFunction) (M : IRModule W) (spReg : Register)
    (sp : Cell) (code : List Inst) : Prop :=
  ∀ tail, Fine cx mf M spReg sp (saveRegistersBeforeReturn cx.save tail) →
    Fine cx mf M spReg sp (saveRegistersBeforeReturn cx.save (code ++ tail))

namespace Sound

theorem nil : Sound cx mf M spReg sp [] := fun _ fine => fine

theorem append {first second : List Inst} (h : Sound cx mf M spReg sp first)
    (h' : Sound cx mf M spReg sp second) : Sound cx mf M spReg sp (first ++ second) := by
  intro tail fine
  rw [List.append_assoc]
  exact h _ (h' tail fine)

theorem fine (sound : Sound cx mf M spReg sp code) :
    Fine cx mf M spReg sp (saveRegistersBeforeReturn cx.save code) := by
  have whole := sound [] fun _ _ _ => trivial
  rwa [List.append_nil] at whole

/-- Code that does not return is judged as it stands. -/
theorem of_noRet (noRet : .retVoid ∉ code)
    (keeps : ∀ tail, Fine cx mf M spReg sp tail → Fine cx mf M spReg sp (code ++ tail)) :
    Sound cx mf M spReg sp code := by
  intro tail fine
  rw [saveRegistersBeforeReturn_append _ noRet]
  exact keeps _ fine

theorem of_spares (spares : Spares mf spReg sp code) : Sound cx mf M spReg sp code := by
  have plain : Plain code := fun i member => (spares.quiet i member).1
  apply of_noRet plain.noRet
  intro tail fine d slot at_
  exact keeps_spares spares at_ fun d' kept _ => fine d' slot kept

end Sound

/-- A module for the guest: RV64, and a stack pointer that is no constant register. -/
structure StackHost (cx : Context W) (M : IRModule W) (spReg : Register) (sp : Cell) : Prop where
  widths : M.widths = cx.stats.widths
  slots : M.stackElemBits = 64
  getFunction : M.getFunction = cx.instrs.getFunction
  rv : RV64 cx spReg sp
  varying : cx.instrs.constReg? cx.tm spReg = none
  disjoint : cx.stats.Disjoint
  real : cx.functionsNop = false

theorem spares_save (cx : Context W) (mf : MachineFunction) (spReg : Register) (sp : Cell) :
    Spares mf spReg sp cx.save := by
  have each : ∀ i ∈ cx.save, (∃ c width, i = .load (.copy c) width (.cell c)) ∨
      ∃ c s, i = .store (.ssa (.copy c)) (.slot s) := by
    intro i member
    obtain ⟨⟨rclass, cls⟩, -, inner⟩ := List.mem_flatMap.mp member
    obtain ⟨⟨⟨r, addr⟩, idx⟩, -, inner⟩ := List.mem_flatMap.mp inner
    simp only [List.mem_cons, List.not_mem_nil, or_false] at inner
    obtain rfl | rfl := inner
    · exact .inl ⟨addr, rclass.bitsize, rfl⟩
    · exact .inr ⟨addr, ⟨cls, idx⟩, rfl⟩
  constructor
  · intro i member
    obtain ⟨c, width, rfl⟩ | ⟨c, s, rfl⟩ := each i member <;> exact ⟨rfl, rfl, rfl⟩
  · intro i member
    obtain ⟨c, width, rfl⟩ | ⟨c, s, rfl⟩ := each i member <;> simp [Inst.writes?]

/-- The code that loads registers from `register_state`. -/
inductive RegisterLoad : Inst → Prop where
  | alloca {c} : RegisterLoad (.alloca c)
  | load {c width s} : RegisterLoad (.load (.copy c) width (.slot s))
  | store {c} : RegisterLoad (.store (.ssa (.copy c)) (.cell c))

theorem registerLoad_reload (cx : Context W) : ∀ i ∈ cx.reload, RegisterLoad i := by
  intro i member
  obtain ⟨⟨rclass, cls⟩, -, inner⟩ := List.mem_flatMap.mp member
  obtain ⟨⟨⟨r, addr⟩, idx⟩, -, inner⟩ := List.mem_flatMap.mp inner
  simp only [List.mem_cons, List.not_mem_nil, or_false] at inner
  obtain rfl | rfl := inner
  · exact .load
  · exact .store

theorem registerLoad_materialize (stats : RegisterStats) :
    ∀ i ∈ materializeRegisters stats, RegisterLoad i := by
  intro i member
  obtain ⟨⟨rclass, cls⟩, -, inner⟩ := List.mem_flatMap.mp member
  obtain ⟨⟨reg, idx⟩, -, inner⟩ := List.mem_flatMap.mp inner
  simp only [materializeRegister, List.mem_cons, List.not_mem_nil, or_false] at inner
  obtain rfl | rfl | rfl := inner
  · exact .alloca
  · exact .load
  · exact .store

theorem RegisterLoad.quiet (mf : MachineFunction) (spReg : Register) {i : Inst} (load : RegisterLoad i) :
    i.isPlain = true ∧ i.stackIndex? = none ∧ adjusted? mf spReg i = none ∧
      i.reads? = none := by
  cases load <;> exact ⟨rfl, rfl, rfl, rfl⟩

/-- Behind the register loads the stack pointer is where `register_state` has it. -/
theorem keeps_loads (cell : cx.rmap.find spReg = some sp) {loads : List Inst}
    (registers : ∀ i ∈ loads, RegisterLoad i) {d : Data M.widths W}
    (at_ : StateAt cx.stats sp d.shared.slots slot)
    (effect : ∀ d', execCode M loads d = some d' → Reloaded (transfers cx.stats) d d')
    (fine : Fine cx mf M spReg sp code) : Keeps cx mf spReg sp (loads ++ code) d slot := by
  refine keeps_quiet (P := fun _ => True) (fun i member => ?_) (fun i member read => ?_)
    (fun _ _ _ _ _ _ => trivial) trivial fun d' _ run => fine d' slot ?_
  · obtain ⟨plain, off, still, -⟩ := (registers i member).quiet mf spReg
    exact ⟨plain, off, still⟩
  · obtain ⟨-, -, -, none⟩ := (registers i member).quiet mf spReg
    simp [none] at read
  · obtain ⟨t, member, rfl⟩ := transfer_of_find cell
    rw [LocalAt, pointerSlot, (effect d' run).copied t member]
    exact at_ t member rfl

namespace StackHost

theorem reloaded (host : StackHost cx M spReg sp) {d d' : Data M.widths W}
    (run : execCode M cx.reload d = some d') : Reloaded (transfers cx.stats) d d' := by
  obtain ⟨d'', run', reloaded⟩ := run_loadRegisters host.disjoint host.widths d
  obtain rfl := Option.some.inj (run.symm.trans run')
  exact reloaded

/-- Behind the saves `register_state` has the stack pointer where the guest has it. -/
theorem keeps_save (host : StackHost cx M spReg sp) {d : Data M.widths W}
    (at_ : LocalAt sp d.locals slot) (after : ∀ d' : Data M.widths W,
      StateAt cx.stats sp d'.shared.slots slot → Keeps cx mf spReg sp code d' slot) :
    Keeps cx mf spReg sp (cx.save ++ code) d slot := by
  refine keeps_spares (spares_save cx mf spReg sp) at_ fun d' _ run => after d' fun t member cell => ?_
  obtain ⟨d'', run', saved⟩ := run_saveRegisters host.disjoint host.widths d
  obtain rfl := Option.some.inj (run.symm.trans run')
  subst cell
  rw [saved.copied t member]
  exact at_

theorem sound_ret (host : StackHost cx M spReg sp) : Sound cx mf M spReg sp [.retVoid] := by
  intro tail _ d slot at_
  apply host.keeps_save at_
  intro d' saved _
  exact ⟨fun _ => saved, by simp [Inst.targets], by simp [Inst.isCall], by simp [Inst.reads?],
    by simp [Inst.stackIndex?], by simp [execInst]⟩

/-- A call leaves the stack pointer to the callee and takes it over from it. -/
theorem sound_call (host : StackHost cx M spReg sp) {before : List Inst}
    (spares : Spares mf spReg sp before) {i : Inst} (call : i.isCall = true) :
    Sound cx mf M spReg sp (before ++ (cx.save ++ i :: cx.reload)) := by
  have other : Inst.retVoid ≠ i := by
    rintro rfl
    cases call
  have noRet : .retVoid ∉ before ++ (cx.save ++ i :: cx.reload) := by
    have plain : Plain before := fun i member => (spares.quiet i member).1
    simp [plain.noRet, (plain_save cx).noRet, (plain_reload cx).noRet, other]
  apply Sound.of_noRet noRet
  intro tail fine d slot at_
  rw [List.append_assoc, List.append_assoc]
  refine keeps_spares spares at_ fun d₁ at₁ _ => host.keeps_save at₁ fun d₂ saved _ => ?_
  obtain ⟨control, noTarget⟩ := Inst.call_enters call
  obtain ⟨noRead, noAccess, stuck⟩ := Inst.control_only control d₂
  refine ⟨fun ret => absurd ret.symm other, by simp [noTarget], fun _ => ⟨saved, fun _ _ resumed => ?_⟩,
    by simp [noRead], by simp [noAccess], by simp [stuck]⟩
  exact keeps_loads host.rv.cell (registerLoad_reload cx) resumed (fun _ run => host.reloaded run) fine

end StackHost

/-- A jump to another block than the first. -/
theorem sound_jump {i : Inst} (ends : i.isTerminator = true) (stays : i ≠ .retVoid)
    (targets : entryLabel ∉ i.targets) : Sound cx mf M spReg sp [i] := by
  apply Sound.of_noRet (by simpa using stays.symm)
  intro tail _ d slot at_ _
  obtain ⟨control, noCall⟩ := Inst.terminator_leaves ends
  obtain ⟨noRead, noAccess, stuck⟩ := Inst.control_only control d
  refine ⟨fun ret => absurd ret stays, fun l member => ⟨?_, at_⟩, by simp [noCall], by simp [noRead],
    by simp [noAccess], by simp [stuck]⟩
  rintro rfl
  exact targets member

namespace Spares

theorem nil : Spares mf spReg sp [] := ⟨by simp [Quiet], by simp⟩

theorem append {first second : List Inst} (h : Spares mf spReg sp first)
    (h' : Spares mf spReg sp second) : Spares mf spReg sp (first ++ second) :=
  ⟨List.forall_mem_append.mpr ⟨h.quiet, h'.quiet⟩, List.forall_mem_append.mpr ⟨h.writes, h'.writes⟩⟩

theorem operands {s : Site} {ops : List MachineOperand} {k : Nat} {loads : List Inst}
    {vals : List (Option Value)} (done : operandsToValues cx s ops k = .ok (loads, vals)) :
    Spares mf spReg sp loads := by
  constructor
  · intro i member
    obtain ⟨_, -, _, _, _, _, -, -, -, rfl⟩ := operandsToValues_loads done i member
    exact ⟨rfl, rfl, rfl⟩
  · intro i member
    obtain ⟨_, -, _, _, _, _, -, -, -, rfl⟩ := operandsToValues_loads done i member
    simp [Inst.writes?]

theorem operand {id : ValueId} {op : MachineOperand} {load : List Inst} {val : Option Value}
    (done : operandToValue cx id op = .ok (load, val)) : Spares mf spReg sp load := by
  constructor
  · intro i member
    obtain ⟨_, _, _, -, -, -, rfl⟩ := operandToValue_loads done i member
    exact ⟨rfl, rfl, rfl⟩
  · intro i member
    obtain ⟨_, _, _, -, -, -, rfl⟩ := operandToValue_loads done i member
    simp [Inst.writes?]

theorem casts (s : Site) (args : List Value) (tys : List Nat) (k : Nat) :
    Spares mf spReg sp (castArgs s args tys k).1 := by
  constructor
  · intro i member
    obtain ⟨_, _, _, rfl⟩ := castArgs_casts s args tys k i member
    exact ⟨rfl, rfl, rfl⟩
  · intro i member
    obtain ⟨_, _, _, rfl⟩ := castArgs_casts s args tys k i member
    simp [Inst.writes?]

theorem writes_defs {val : Value} {defs : List MachineOperand}
    (done : writeDefs cx val defs = .ok code)
    (apart : ∀ op ∈ defs, ∀ r, op.reg? = some r → cx.rmap.find r ≠ some sp) :
    Spares mf spReg sp code := by
  constructor
  · intro i member
    obtain ⟨_, -, _, _, _, -, -, -, rfl⟩ := writeDefs_stores done i member
    exact ⟨rfl, rfl, rfl⟩
  · intro i member
    obtain ⟨op, inside, r, _, c, reg, found, -, rfl⟩ := writeDefs_stores done i member
    intro same
    obtain rfl := Option.some.inj same
    exact apart op inside r reg found

/-- The instruction function of anything but an adjustment of the stack pointer. -/
theorem function {b k : Nat} (here : mf.instr? b k = some minst)
    (other : ∀ k, minst ≠ addi spReg spReg k) (name : String) (args : List Value) :
    Spares mf spReg sp [.callInstr (.result b k) name args] := by
  constructor
  · intro i member
    obtain rfl := List.mem_singleton.mp member
    refine ⟨rfl, rfl, ?_⟩
    rw [adjusted?, here, Option.bind_some]
    cases adjusts : adjustment? spReg minst with
    | none => rfl
    | some k => exact absurd (addi_of_adjustment adjusts) (other k)
  · simp [Inst.writes?]

end Spares

/-- The slot a stack access computes. -/
theorem slotIndex_behind {off : Int} {d : Data M.widths W} (aligned : 8 ∣ off)
    (at_ : LocalAt sp d.locals slot) : slotIndex sp off d = slotBehind slot off := by
  rw [slotIndex_aligned aligned, at_, slotBehind]

theorem spares_index (s : Site) (off : Int) : Spares mf spReg sp (indexCode s sp off) := by
  constructor
  · intro i member
    obtain rfl | rfl : i = _ ∨ i = _ := by simpa [indexCode] using member
    all_goals exact ⟨rfl, rfl, rfl⟩
  · intro i member
    obtain rfl | rfl : i = _ ∨ i = _ := by simpa [indexCode] using member
    all_goals simp [Inst.writes?]

theorem spares_store {value : Value} {c : Cell} (other : c ≠ sp) :
    Spares mf spReg sp [.store value (.cell c)] := by
  constructor
  · intro i member
    obtain rfl := List.mem_singleton.mp member
    exact ⟨rfl, rfl, rfl⟩
  · simpa [Inst.writes?] using other

namespace StackHost

/-- Behind the code in front of an access the index is the slot of its offset. -/
theorem keeps_index (host : StackHost cx M spReg sp) {s : Site} {off : Int} (aligned : 8 ∣ off)
    {d : Data M.widths W} (at_ : LocalAt sp d.locals slot)
    (after : ∀ d' : Data M.widths W, LocalAt sp d'.locals slot →
      d'.env (.index s.block s.idx) = some (.int ⟨64, slotBehind slot off⟩) →
      Keeps cx mf spReg sp code d' slot) :
    Keeps cx mf spReg sp (indexCode s sp off ++ code) d slot := by
  apply keeps_spares (spares_index s off) at_
  intro d' at' run
  rw [exec_indexCode (host.widths ▸ host.rv.width)] at run
  obtain rfl := Option.some.inj run
  refine after _ at' ?_
  simp [Data.bind, slotIndex_behind aligned at_]

theorem sound_load (host : StackHost cx M spReg sp) {s : Site} {rd : Register} {c : Cell} {off : Int}
    (here : mf.instr? s.block s.idx = some (ld rd spReg off)) (other : c ≠ sp) (aligned : 8 ∣ off) :
    Sound cx mf M spReg sp (loadCode s sp off c) := by
  have noRet : .retVoid ∉ loadCode s sp off c := by simp [loadCode, indexCode]
  apply Sound.of_noRet noRet
  intro tail fine d slot at_
  rw [loadCode, List.append_assoc]
  apply host.keeps_index aligned at_
  intro d₁ at₁ index _
  refine ⟨by simp, by simp [Inst.targets], by simp [Inst.isCall], by simp [Inst.reads?],
    fun _ => .load here aligned index, fun d₂ done => ?_⟩
  have at₂ : LocalAt sp d₂.locals slot := by
    rw [LocalAt, pointerSlot, (exec_framed done).locals (by simp [Inst.writes?])]
    exact at₁
  exact keeps_spares (spares_store other) at₂ fun d₃ at₃ _ => fine d₃ slot at₃

/-- A store whose value, if it has one, is that of the register. -/
theorem sound_store (host : StackHost cx M spReg sp) {s : Site} {rs : Register} {off : Int}
    {loads : List Inst} {value : Value}
    (here : mf.instr? s.block s.idx = some (sd rs spReg off)) (aligned : 8 ∣ off)
    (spares : Spares mf spReg sp loads)
    (loaded : ∀ d d' : Data M.widths W, execCode M loads d = some d' →
      d'.env (.index s.block s.idx) = d.env (.index s.block s.idx) ∧
      (Unloaded cx mf d'.env → ∀ v, evalInt d'.env value = some v →
        v = ⟨64, operandValue cx d'.locals rs⟩)) :
    Sound cx mf M spReg sp (storeCode s sp off loads value) := by
  have plain : Plain loads := fun i member => (spares.quiet i member).1
  have noRet : .retVoid ∉ storeCode s sp off loads value := by
    simp [storeCode, indexCode, plain.noRet]
  apply Sound.of_noRet noRet
  intro tail fine d slot at_
  rw [storeCode, List.append_assoc, List.append_assoc]
  apply host.keeps_index aligned at_
  intro d₁ at₁ index
  apply keeps_spares spares at₁
  intro d₂ at₂ run unloaded
  obtain ⟨kept, stored⟩ := loaded d₁ d₂ run
  refine ⟨by simp, by simp [Inst.targets], by simp [Inst.isCall], by simp [Inst.reads?],
    fun _ => .store here aligned (kept.trans index) (stored unloaded), fun d₃ done => fine d₃ slot ?_⟩
  rw [LocalAt, pointerSlot, (exec_framed done).locals (by simp [Inst.writes?])]
  exact at₂

end StackHost

end RiscV
end Bleach
