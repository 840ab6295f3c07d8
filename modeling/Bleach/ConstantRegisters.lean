import Bleach.CallProtocol
import Bleach.Lifter.Operands
import Bleach.Lifter.Emitted

/-! Constant registers. Reads of a constant register never look at its variable, and
every result that `write_value_to_register` writes is replaced by the constant. A
value loaded from the stack is stored past that check. -/
namespace Bleach
open Transition
variable {W : Type} {w : Nat → Nat} {cx : Context W} {mfs : List MachineFunction}
  {addrs : FuncId → FunctionAddresses} {adds : List Inst} {M : IRModule W} {mf : MachineFunction}
  {mbb : MachineBasicBlock} {minst : MachineInstr} {t : Transfer} {value : Nat}

/-- The instruction's result goes to variable `c` without passing the check: it is
loaded from the stack, or goes to a register that is no constant but lives there too. -/
def BypassesCheck (cx : Context W) (c : Cell) (minst : MachineInstr) (sptrack : StackPointerTracker) :
    Prop :=
  match dispatch cx minst sptrack with
  | .stackAccess => ∃ op, minst.defs.head? = some op ∧ operandCell cx op = some c
  | .stackPointerModification | .generic => ∃ r isDef isImplicit, .reg r isDef isImplicit ∈ minst.defs ∧
      cx.rmap.find r = some c ∧ cx.instrs.constReg? cx.tm r = none
  | _ => False

/-- The same of instruction `i` of block `b`, with what the tracker holds there. -/
def BypassesAt (cx : Context W) (mf : MachineFunction) (addrs : FunctionAddresses) (c : Cell)
    (b i : Nat) : Prop :=
  ∃ mbb minst st, mf.blocks[b]? = some mbb ∧ mbb[i]? = some minst ∧
    builderAt cx mf addrs b i = .ok st ∧ BypassesCheck cx c minst st.sptrack

/-- The frame on top is not about to write back the result of such an instruction. -/
def ChecksWrites (cx : Context W) (mfs : List MachineFunction) (addrs : FuncId → FunctionAddresses)
    (c : Cell) (conf : Config w W) : Prop :=
  ∀ fr rest b i code mf, conf.frames = fr :: rest →
    fr.code = .store (.ssa (.result b i)) (.cell c) :: code → mfs[fr.func]? = some mf →
    ¬BypassesAt cx mf (addrs fr.func) c b i

/-- What the code of a function does to the variable of a constant register, to its
slot and to the copies between them. -/
structure Guarded (cx : Context W) (t : Transfer) (value : Nat) (Bypasses : Nat → Nat → Prop)
    (x : Inst) : Prop where
  keeps : x ≠ .alloca t.cell
  writes : ∀ v, x = .store v (.cell t.cell) →
    v = .const (.ofInt (cx.stats.widths t.cls) value) ∨ v = .ssa (.copy t.cell) ∨
    ∃ b i, v = .ssa (.result b i) ∧ Bypasses b i
  saves : ∀ v, x = .store v (.slot t.slot) → v = .ssa (.copy t.cell)
  copies : x.dst? = some (.copy t.cell) →
    x = .load (.copy t.cell) (cx.stats.widths t.cls) (.cell t.cell) ∨
    x = .load (.copy t.cell) (cx.stats.widths t.cls) (.slot t.slot)

variable {Bypasses : Nat → Nat → Prop} {x : Inst}

theorem Guarded.mono {Bypasses' : Nat → Nat → Prop} (guarded : Guarded cx t value Bypasses x)
    (weaker : ∀ b i, Bypasses b i → Bypasses' b i) : Guarded cx t value Bypasses' x := by
  refine ⟨guarded.keeps, fun v same => ?_, guarded.saves, guarded.copies⟩
  rcases guarded.writes v same with constant | copy | ⟨b, i, rfl, bypasses⟩
  · exact .inl constant
  · exact .inr (.inl copy)
  · exact .inr (.inr ⟨b, i, rfl, weaker b i bypasses⟩)

/-- Code that neither writes the variable nor copies anything. -/
theorem guarded_apart (writes : x.writes? ≠ some t.cell) (saves : ∀ v s, x ≠ .store v (.slot s))
    (copies : ∀ c, x.dst? ≠ some (.copy c)) : Guarded cx t value Bypasses x := by
  refine ⟨?_, ?_, fun v same => absurd same (saves v _), fun same => absurd same (copies _)⟩
  · rintro rfl
    exact writes rfl
  · rintro v rfl
    exact absurd rfl writes

theorem guarded_control (transfers : x.isPlain = false) : Guarded cx t value Bypasses x := by
  cases x with
  | call | callPtr | br | condBr | retVoid => exact guarded_apart nofun nofun nofun
  | _ => cases transfers

/-- A copy between a variable and its slot, in either direction. -/
theorem guarded_copy {u : Transfer} (member : t ∈ transfers cx.stats) (other : u ∈ transfers cx.stats)
    {src dst : Ptr} (ends : src = .cell u.cell ∧ dst = .slot u.slot ∨ src = .slot u.slot ∧ dst = .cell u.cell)
    (inside : x ∈ [.load (.copy u.cell) (cx.stats.widths u.cls) src, .store (.ssa (.copy u.cell)) dst]) :
    Guarded cx t value Bypasses x := by
  simp only [List.mem_cons, List.not_mem_nil, or_false] at inside
  rcases inside with rfl | rfl
  · refine ⟨nofun, nofun, nofun, fun same => ?_⟩
    obtain rfl := cell_determines other member (by simpa [Inst.dst?] using same)
    rcases ends with ⟨rfl, -⟩ | ⟨rfl, -⟩
    · exact .inl rfl
    · exact .inr rfl
  · refine ⟨nofun, fun v same => .inr (.inl ?_), fun v same => ?_, nofun⟩
    · obtain ⟨rfl, rfl⟩ := Inst.store.inj same
      obtain ⟨-, cell⟩ | ⟨-, cell⟩ := ends
      · cases cell
      · rw [cell_determines other member (Ptr.cell.inj cell).symm]
    · obtain ⟨rfl, rfl⟩ := Inst.store.inj same
      obtain ⟨-, slot⟩ | ⟨-, slot⟩ := ends
      · rw [slot_determines other member (Ptr.slot.inj slot).symm]
      · cases slot

theorem guarded_save (disjoint : cx.stats.Disjoint) (member : t ∈ transfers cx.stats)
    (inside : x ∈ cx.save) : Guarded cx t value Bypasses x := by
  rw [Context.save, Context.rmap, saveRegisters_eq disjoint] at inside
  obtain ⟨u, other, inside⟩ := List.mem_flatMap.mp inside
  exact guarded_copy member other (.inl ⟨rfl, rfl⟩) inside

/-- Two constants in one variable are equal as far as it can hold them. -/
def ConstantsAgree (cx : Context W) (c : Cell) (value : Nat) : Prop :=
  ∀ r k, cx.instrs.constReg? cx.tm r = some k → cx.rmap.find r = some c →
    APInt.ofInt (cx.stats.widths c.cls) k.value = APInt.ofInt (cx.stats.widths c.cls) value

theorem Emitted.guarded {s : Site} {sptrack : StackPointerTracker} {l : Label}
    (disjoint : cx.stats.Disjoint) (member : t ∈ transfers cx.stats)
    (agree : ConstantsAgree cx t.cell value)
    (emitted : Emitted cx s minst (dispatch cx minst sptrack) l x) :
    Guarded cx t value
      (fun b i => b = s.block ∧ i = s.idx ∧ BypassesCheck cx t.cell minst sptrack) x := by
  cases emitted with
  | saved inside => exact guarded_save disjoint member inside
  | reloaded inside =>
    rw [Context.reload, Context.rmap, loadRegisters_eq disjoint] at inside
    obtain ⟨u, other, inside⟩ := List.mem_flatMap.mp inside
    exact guarded_copy member other (.inr ⟨rfl, rfl⟩) inside
  | control transfers => exact guarded_control transfers
  | operand | lookup | cast | function | pointer | index | stackLoad | stackStore =>
    exact guarded_apart nofun nofun nofun
  | @loaded here op c first found =>
    refine ⟨nofun, fun v same => .inr (.inr ?_), nofun, nofun⟩
    obtain ⟨rfl, cell⟩ := Inst.store.inj same
    obtain rfl := Ptr.cell.inj cell
    refine ⟨_, _, rfl, rfl, rfl, ?_⟩
    rw [BypassesCheck, here]
    exact ⟨op, first, found⟩
  | @result here r isDef isImplicit c defined found varying =>
    refine ⟨nofun, fun v same => .inr (.inr ?_), nofun, nofun⟩
    obtain ⟨rfl, cell⟩ := Inst.store.inj same
    obtain rfl := Ptr.cell.inj cell
    refine ⟨_, _, rfl, rfl, rfl, ?_⟩
    rw [BypassesCheck]
    rcases here with here | here <;> rw [here] <;> exact ⟨r, isDef, isImplicit, defined, found, varying⟩
  | @constant r c k rclass found constant classed =>
    refine ⟨nofun, fun v same => .inl ?_, nofun, nofun⟩
    obtain ⟨rfl, cell⟩ := Inst.store.inj same
    obtain rfl := Ptr.cell.inj cell
    rw [bitsize_of_find found classed]
    exact congrArg Value.const (agree r k constant found)

/-- Code at the entry of a function, up to the copy of the register. -/
inductive Opening (stats : RegisterStats) : Inst → Prop where
  | registration {addr g} : Opening stats (.symtabAdd addr g)
  | alloca {c} : Opening stats (.alloca c)
  | load {u} (member : u ∈ transfers stats) :
      Opening stats (.load (.copy u.cell) (stats.widths u.cls) (.slot u.slot))
  | store {c} : Opening stats (.store (.ssa (.copy c)) (.cell c))

theorem mem_saveRegistersBeforeReturn {save code : List Inst}
    (member : x ∈ saveRegistersBeforeReturn save code) : x ∈ save ∨ x ∈ code := by
  induction code with
  | nil => cases member
  | cons i rest ih =>
    by_cases ret : i = .retVoid
    · subst ret
      rw [saveRegistersBeforeReturn_ret] at member
      exact List.mem_append.mp member
    · rw [saveRegistersBeforeReturn_cons save ret] at member
      rcases List.mem_cons.mp member with rfl | later
      · exact .inr List.mem_cons_self
      · exact (ih later).imp_right (List.mem_cons_of_mem _)

theorem last_occurrence {α : Type} {a : α} {l : List α} (member : a ∈ l) :
    ∃ before after, l = before ++ a :: after ∧ a ∉ after := by
  obtain ⟨after, before, split, first⟩ := List.eq_append_cons_of_mem (List.mem_reverse.mpr member)
  refine ⟨before.reverse, after.reverse, ?_, by simpa using first⟩
  rw [← List.reverse_reverse l, split]
  simp

/-- The blocks of a function keep to the rule, and its entry copies the register first. -/
structure GuardedBody (cx : Context W) (t : Transfer) (value : Nat) (Bypasses : Nat → Nat → Prop)
    (blocks : Label → List Inst) : Prop where
  entry : ∃ opening rest, blocks entryLabel =
      opening ++ .store (.ssa (.copy t.cell)) (.cell t.cell) :: rest ∧
    (∀ x ∈ opening, Opening cx.stats x) ∧ ∀ x ∈ rest, Guarded cx t value Bypasses x
  others : ∀ l, l ≠ entryLabel → ∀ x ∈ blocks l, Guarded cx t value Bypasses x

theorem opening_materialize {ts : List Transfer} (members : ∀ u ∈ ts, u ∈ transfers cx.stats)
    (inside : x ∈ ts.flatMap (Transfer.materialize cx.stats.widths)) : Opening cx.stats x := by
  obtain ⟨u, listed, inside⟩ := List.mem_flatMap.mp inside
  simp only [Transfer.materialize, Transfer.reload, List.mem_cons, List.not_mem_nil, or_false] at inside
  rcases inside with rfl | rfl | rfl
  · exact .alloca
  · exact .load (members u listed)
  · exact .store

theorem guarded_materialize {u : Transfer} (member : t ∈ transfers cx.stats)
    (listed : u ∈ transfers cx.stats) (other : u ≠ t)
    (inside : x ∈ u.materialize cx.stats.widths) : Guarded cx t value Bypasses x := by
  have apart : u.cell ≠ t.cell := fun same => other (cell_determines listed member same)
  simp only [Transfer.materialize, Transfer.reload, List.mem_cons, List.not_mem_nil, or_false] at inside
  rcases inside with rfl | rfl | rfl
  · exact guarded_apart (by simpa [Inst.writes?] using apart) (by simp) (by simp [Inst.dst?])
  · exact ⟨by simp, by simp, by simp, fun same => absurd (ValueId.copy.inj (Option.some.inj same)) apart⟩
  · exact guarded_apart (by simpa [Inst.writes?] using apart) (by simp) (by simp [Inst.dst?])

theorem Lifted.guarded_body (lifted : Lifted cx mfs addrs adds M) (disjoint : cx.stats.Disjoint)
    (member : t ∈ transfers cx.stats) (agree : ConstantsAgree cx t.cell value) {f : FuncId}
    {blocks : Label → List Inst} (body : M.body f = some blocks) : ∃ mf, mfs[f]? = some mf ∧
      GuardedBody cx t value (BypassesAt cx mf (addrs f) t.cell) blocks := by
  obtain ⟨mf, fin, found, nonempty, whole, rfl⟩ := lifted.body body
  refine ⟨mf, found, ?_⟩
  have grows : ∃ spReg, (initialBuilder cx spReg).Grows
      (fun _ => Guarded cx t value (BypassesAt cx mf (addrs f) t.cell)) fin := by
    apply finalBuilder_grows whole nonempty
    · intro b i mbb minst st l x block here builder emitted
      refine (emitted.guarded disjoint member agree).mono ?_
      rintro b' i' ⟨rfl, rfl, bypasses⟩
      exact ⟨mbb, minst, st, block, here, builder, bypasses⟩
    · intro l x transfers
      exact guarded_control transfers
  obtain ⟨spReg, grows⟩ := grows
  have saved : ∀ {code : List Inst},
      (∀ x ∈ code, Guarded cx t value (BypassesAt cx mf (addrs f) t.cell) x) →
      ∀ x ∈ saveRegistersBeforeReturn cx.save code,
        Guarded cx t value (BypassesAt cx mf (addrs f) t.cell) x := by
    intro code guarded x inside
    rcases mem_saveRegistersBeforeReturn inside with save | here
    · exact guarded_save disjoint member save
    · exact guarded x here
  constructor
  · obtain ⟨new, code, guarded⟩ := grows entryLabel
    obtain ⟨before, after, split, last⟩ := last_occurrence member
    have copies : materializeRegisters cx.stats =
        (before.flatMap (Transfer.materialize cx.stats.widths) ++
          [.alloca t.cell, .load (.copy t.cell) (cx.stats.widths t.cls) (.slot t.slot)]) ++
        .store (.ssa (.copy t.cell)) (.cell t.cell) ::
          after.flatMap (Transfer.materialize cx.stats.widths) := by
      rw [materializeRegisters_eq, split]
      simp [Transfer.materialize, Transfer.reload]
    refine ⟨adds ++ (before.flatMap (Transfer.materialize cx.stats.widths) ++
        [.alloca t.cell, .load (.copy t.cell) (cx.stats.widths t.cls) (.slot t.slot)]),
      after.flatMap (Transfer.materialize cx.stats.widths) ++ saveRegistersBeforeReturn cx.save new,
      ?_, ?_, ?_⟩
    · rw [liftedBody_entry, code, initialBuilder_entry,
        saveRegistersBeforeReturn_append _ (plain_materialize _).noRet, copies]
      simp
    · simp only [List.forall_mem_append]
      refine ⟨fun x inside => ?_, fun x => opening_materialize fun u inside => ?_, ?_⟩
      · obtain ⟨addr, g, rfl⟩ := lifted.adds x inside
        exact .registration
      · rw [split]
        exact List.mem_append_left _ inside
      · simpa using ⟨.alloca, .load member⟩
    · refine List.forall_mem_append.mpr ⟨fun x inside => ?_, saved guarded⟩
      obtain ⟨u, listed, inside⟩ := List.mem_flatMap.mp inside
      refine guarded_materialize member ?_ ?_ inside
      · simp [split, listed]
      · rintro rfl
        exact last listed
  · intro l other
    obtain ⟨new, code, guarded⟩ := grows l
    rw [liftedBody_other other, code, initialBuilder_other other]
    exact saved guarded

/-- The slot holds the constant, and the copy too if it has a value. -/
structure Holds (t : Transfer) (value : Nat) (d : Data w W) : Prop where
  slot : d.shared.slots t.slot = BitVec.ofInt _ value
  copy : ∀ v, d.env (.copy t.cell) = some v → v = .int (.ofInt (w t.cls) value)

section
variable {d d' : Data M.widths W}

theorem exec_loadSlot {s : Slot} {width : Nat} (full : M.widths s.cls = width) (id : ValueId)
    (d : Data M.widths W) : execInst M d (.load id width (.slot s)) =
      some (d.bind id (.int ⟨_, d.shared.slots s⟩)) := by
  subst full
  simp [execInst, loadPtr]

theorem Holds.eval (holds : Holds t value d) {v : APInt}
    (known : evalInt d.env (.ssa (.copy t.cell)) = some v) : v = .ofInt (M.widths t.cls) value := by
  unfold evalInt at known
  split at known
  · next c bound =>
    obtain rfl := Option.some.inj known
    exact RuntimeValue.int.inj (holds.copy _ bound)
  · cases known

theorem Opening.holds (widths : M.widths = cx.stats.widths) (member : t ∈ transfers cx.stats)
    (opening : Opening cx.stats x) (holds : Holds t value d) (done : execInst M d x = some d') :
    Holds t value d' := by
  constructor
  · rw [exec_slot done (by cases opening <;> exact nofun), holds.slot]
  · by_cases copies : x.dst? = some (.copy t.cell)
    · cases opening with
      | @load u listed =>
        obtain rfl := cell_determines listed member (ValueId.copy.inj (Option.some.inj copies))
        rw [exec_loadSlot (congrFun widths u.cls)] at done
        obtain rfl := Option.some.inj done
        intro v bound
        obtain rfl : .int ⟨M.widths u.cls, d.shared.slots u.slot⟩ = v := by
          simpa [Data.bind] using bound
        rw [holds.slot]
        rfl
      | _ => cases copies
    · rw [(exec_framed done).env copies]
      exact holds.copy

/-- The rule keeps the constant where it is, as long as the check is not bypassed. -/
theorem Guarded.holds (widths : M.widths = cx.stats.widths) (guarded : Guarded cx t value Bypasses x)
    (checked : ∀ b i, x = .store (.ssa (.result b i)) (.cell t.cell) → ¬Bypasses b i)
    (holds : Holds t value d) (settled : d.locals t.cell = BitVec.ofInt _ value)
    (done : execInst M d x = some d') :
    Holds t value d' ∧ d'.locals t.cell = BitVec.ofInt _ value := by
  have width : M.widths t.cls = cx.stats.widths t.cls := congrFun widths t.cls
  refine ⟨⟨?_, ?_⟩, ?_⟩
  · by_cases saves : ∃ v, x = .store v (.slot t.slot)
    · obtain ⟨v, rfl⟩ := saves
      obtain rfl := guarded.saves v rfl
      obtain ⟨c, known, done⟩ := Option.bind_eq_some_iff.mp done
      obtain rfl := holds.eval known
      have written : overwrite (d.shared.slots t.slot) (.ofInt (M.widths t.cls) value) =
          some (BitVec.ofInt _ value) := overwrite_full ..
      obtain rfl : d.setSlot t.slot (BitVec.ofInt _ value) = d' := by
        simpa [storePtr, written, Data.setSlot] using done
      exact Function.update_self ..
    · rw [exec_slot done fun v same => saves ⟨v, same⟩, holds.slot]
  · by_cases copies : x.dst? = some (.copy t.cell)
    · intro v bound
      rcases guarded.copies copies with rfl | rfl
      · rw [exec_loadCell width] at done
        obtain rfl := Option.some.inj done
        obtain rfl : .int ⟨M.widths t.cls, d.locals t.cell⟩ = v := by simpa [Data.bind] using bound
        rw [settled]
        rfl
      · rw [exec_loadSlot width] at done
        obtain rfl := Option.some.inj done
        obtain rfl : .int ⟨M.widths t.cls, d.shared.slots t.slot⟩ = v := by
          simpa [Data.bind] using bound
        rw [holds.slot]
        rfl
    · rw [(exec_framed done).env copies]
      exact holds.copy
  · by_cases writes : x.writes? = some t.cell
    · obtain ⟨v, rfl⟩ : ∃ v, x = .store v (.cell t.cell) := by
        cases x with
        | store v dst =>
          cases dst with
          | cell c =>
            obtain rfl := Option.some.inj writes
            exact ⟨v, rfl⟩
          | _ => cases writes
        | alloca c =>
          obtain rfl := Option.some.inj writes
          exact absurd rfl guarded.keeps
        | _ => cases writes
      obtain ⟨c, known, done⟩ := Option.bind_eq_some_iff.mp done
      have constant : c = .ofInt (M.widths t.cls) value := by
        rcases guarded.writes v rfl with rfl | rfl | ⟨b, i, rfl, bypasses⟩
        · rw [width]
          exact (Option.some.inj known).symm
        · exact holds.eval known
        · exact absurd bypasses (checked b i rfl)
      subst constant
      have written : overwrite (d.locals t.cell) (.ofInt (M.widths t.cls) value) =
          some (BitVec.ofInt _ value) := overwrite_full ..
      obtain rfl : d.setCell t.cell (BitVec.ofInt _ value) = d' := by
        simpa [storePtr, written, Data.setCell] using done
      exact Function.update_self ..
    · rw [(exec_framed done).locals writes, settled]

end

/-- A frame holds the constant, or has yet to load it at its entry. -/
structure KeepsConstant (cx : Context W) (t : Transfer) (value : Nat) (Bypasses : Nat → Nat → Prop)
    (fr : Frame w) : Prop where
  copy : ∀ v, fr.env (.copy t.cell) = some v → v = .int (.ofInt (w t.cls) value)
  code : (fr.locals t.cell = BitVec.ofInt _ value ∧ ∀ x ∈ fr.code, Guarded cx t value Bypasses x) ∨
    ∃ opening rest, fr.code = opening ++ .store (.ssa (.copy t.cell)) (.cell t.cell) :: rest ∧
      (∀ x ∈ opening, Opening cx.stats x) ∧ ∀ x ∈ rest, Guarded cx t value Bypasses x

/-- The slot and every frame hold the constant. -/
structure KeepsConstants (cx : Context W) (mfs : List MachineFunction)
    (addrs : FuncId → FunctionAddresses) (t : Transfer) (value : Nat) (c : Config w W) : Prop where
  slot : c.shared.slots t.slot = BitVec.ofInt _ value
  frames : ∀ fr ∈ c.frames, ∃ mf, mfs[fr.func]? = some mf ∧
    KeepsConstant cx t value (BypassesAt cx mf (addrs fr.func) t.cell) fr

/-- At the start of a block. -/
theorem GuardedBody.keeps {blocks : Label → List Inst} (body : GuardedBody cx t value Bypasses blocks)
    {fr : Frame w} (copy : ∀ v, fr.env (.copy t.cell) = some v → v = .int (.ofInt (w t.cls) value))
    (code : fr.code = blocks fr.label)
    (settled : fr.label ≠ entryLabel → fr.locals t.cell = BitVec.ofInt _ value) :
    KeepsConstant cx t value Bypasses fr := by
  refine ⟨copy, ?_⟩
  by_cases entry : fr.label = entryLabel
  · rw [code, entry]
    exact .inr body.entry
  · exact .inl ⟨settled entry, code ▸ body.others _ entry⟩

/-- Only code behind the entry transfers control. -/
theorem KeepsConstant.control {fr : Frame w} {code : List Inst}
    (keeps : KeepsConstant cx t value Bypasses fr) (at_ : fr.code = x :: code)
    (transfers : x.isPlain = false) : fr.locals t.cell = BitVec.ofInt _ value ∧
      ∀ x ∈ code, Guarded cx t value Bypasses x := by
  rcases keeps.code with ⟨settled, guarded⟩ | ⟨opening, rest, split, opens, -⟩
  · exact ⟨settled, fun y member => guarded y (at_ ▸ List.mem_cons_of_mem _ member)⟩
  · cases opening with
    | nil =>
      obtain ⟨rfl, -⟩ := List.cons.inj (at_.symm.trans split)
      cases transfers
    | cons y later =>
      obtain ⟨rfl, -⟩ := List.cons.inj (at_.symm.trans split)
      cases opens x List.mem_cons_self <;> cases transfers

theorem KeepsConstant.plain (widths : M.widths = cx.stats.widths) (member : t ∈ transfers cx.stats)
    {fr : Frame M.widths} {shared : Shared M.widths W} {code : List Inst} {d : Data M.widths W}
    (keeps : KeepsConstant cx t value Bypasses fr)
    (slot : shared.slots t.slot = BitVec.ofInt _ value) (at_ : fr.code = x :: code)
    (checked : ∀ b i, x = .store (.ssa (.result b i)) (.cell t.cell) → ¬Bypasses b i)
    (done : execInst M (fr.data shared) x = some d) :
    KeepsConstant cx t value Bypasses ({ fr with code := code }.withData d) ∧
      d.shared.slots t.slot = BitVec.ofInt _ value := by
  have holds : Holds t value (fr.data shared) := ⟨slot, keeps.copy⟩
  rcases keeps.code with ⟨settled, guarded⟩ | ⟨opening, rest, split, opens, guarded⟩
  · obtain ⟨here, later⟩ := List.forall_mem_cons.mp (at_ ▸ guarded)
    obtain ⟨held, still⟩ := here.holds widths checked holds settled done
    exact ⟨⟨held.copy, .inl ⟨still, later⟩⟩, held.slot⟩
  · cases opening with
    | nil =>
      obtain ⟨rfl, rfl⟩ := List.cons.inj (at_.symm.trans split)
      obtain ⟨c, known, stored⟩ := Option.bind_eq_some_iff.mp done
      obtain rfl := holds.eval known
      have written : overwrite (fr.locals t.cell) (.ofInt (M.widths t.cls) value) =
          some (BitVec.ofInt _ value) := overwrite_full ..
      obtain rfl : (fr.data shared).setCell t.cell (BitVec.ofInt _ value) = d := by
        simpa [storePtr, written, Data.setCell, Frame.data] using stored
      exact ⟨⟨holds.copy, .inl ⟨Function.update_self .., guarded⟩⟩, slot⟩
    | cons y later =>
      obtain ⟨rfl, rfl⟩ := List.cons.inj (at_.symm.trans split)
      obtain ⟨here, behind⟩ := List.forall_mem_cons.mp opens
      have held := here.holds widths member holds done
      exact ⟨⟨held.copy, .inr ⟨later, rest, rfl, behind, guarded⟩⟩, held.slot⟩

/-- A new activation has yet to load the constant. -/
theorem Lifted.keeps_entry (lifted : Lifted cx mfs addrs adds M) (disjoint : cx.stats.Disjoint)
    (member : t ∈ transfers cx.stats) (agree : ConstantsAgree cx t.cell value) {g : FuncId}
    {blocks : Label → List Inst} (body : M.body g = some blocks) : ∃ mf, mfs[g]? = some mf ∧
      KeepsConstant cx t value (BypassesAt cx mf (addrs g) t.cell) (M.entryFrame g blocks) := by
  obtain ⟨mf, found, guarded⟩ := lifted.guarded_body disjoint member agree body
  refine ⟨mf, found, guarded.keeps ?_ rfl ?_⟩
  · intro v bound
    cases bound
  · intro other
    exact absurd rfl other

/-- A step that writes no result past the check keeps the constant. -/
theorem Lifted.keeps_step (lifted : Lifted cx mfs addrs adds M) (disjoint : cx.stats.Disjoint)
    (member : t ∈ transfers cx.stats) (agree : ConstantsAgree cx t.cell value) {c c' : Config M.widths W}
    (keeps : KeepsConstants cx mfs addrs t value c) (checks : ChecksWrites cx mfs addrs t.cell c)
    (done : M.step c = some c') : KeepsConstants cx mfs addrs t value c' := by
  obtain ⟨slot, frames⟩ := keeps
  cases stepped done with
  | plain at_ one =>
    obtain ⟨⟨mf, found, top⟩, rest⟩ := List.forall_mem_cons.mp frames
    obtain ⟨kept, held⟩ := top.plain lifted.widths member slot at_
      (fun b i same => checks _ _ b i _ mf rfl (same ▸ at_) found) one
    exact ⟨held, List.forall_mem_cons.mpr ⟨⟨mf, found, kept⟩, rest⟩⟩
  | ret at_ => exact ⟨slot, (List.forall_mem_cons.mp frames).2⟩
  | @jump _ _ _ i _ _ _ at_ target body =>
    obtain ⟨⟨mf, found, top⟩, rest⟩ := List.forall_mem_cons.mp frames
    obtain ⟨mf', found', guarded⟩ := lifted.guarded_body disjoint member agree body
    have leaves : i.isPlain = false := by
      cases i <;> first | rfl | cases target
    obtain ⟨settled, -⟩ := top.control at_ leaves
    exact ⟨slot, List.forall_mem_cons.mpr ⟨⟨mf', found', guarded.keeps top.copy rfl fun _ => settled⟩,
      rest⟩⟩
  | @enter _ _ _ i _ g blocks at_ calls body =>
    obtain ⟨⟨mf, found, top⟩, rest⟩ := List.forall_mem_cons.mp frames
    obtain ⟨mf', found', entered⟩ := lifted.keeps_entry disjoint member agree body
    have leaves : i.isPlain = false := by
      obtain rfl | ⟨v, rfl, -⟩ := calls <;> rfl
    obtain ⟨settled, later⟩ := top.control at_ leaves
    exact ⟨slot, List.forall_mem_cons.mpr ⟨⟨mf', found', entered⟩, List.forall_mem_cons.mpr
      ⟨⟨mf, found, top.copy, .inl ⟨settled, later⟩⟩, rest⟩⟩⟩

theorem Lifted.keeps_run (lifted : Lifted cx mfs addrs adds M) (disjoint : cx.stats.Disjoint)
    (member : t ∈ transfers cx.stats) (agree : ConstantsAgree cx t.cell value) {n : Nat}
    {c c' : Config M.widths W} (keeps : KeepsConstants cx mfs addrs t value c)
    (run : iterate M.step n c = some c')
    (checks : ∀ m < n, ∀ c₁, iterate M.step m c = some c₁ → ChecksWrites cx mfs addrs t.cell c₁) :
    KeepsConstants cx mfs addrs t value c' := by
  induction n generalizing c with
  | zero => exact Option.some.inj run ▸ keeps
  | succ n ih =>
    obtain ⟨c₁, first, rest⟩ := Option.bind_eq_some_iff.mp run
    have here : ChecksWrites cx mfs addrs t.cell c := checks 0 (Nat.succ_pos n) c rfl
    refine ih (lifted.keeps_step disjoint member agree keeps here first) rest ?_
    intro m before c₂ reached
    apply checks (m + 1) (Nat.succ_lt_succ before)
    rw [iterate_succ, first]
    exact reached

/-- As long as no step writes back a result past the check, the constant stays: reads
of the register are the constant itself, its slot holds the constant in every state,
and so does its variable wherever it is loaded. -/
theorem constants_kept {finfo : Option FileInfo} {stackSize : Nat} {liftedPrefix : String}
    (module : bleachModule cx mfs addrs finfo stackSize liftedPrefix = .ok M)
    (disjoint : cx.stats.Disjoint) {r : Register} {k : ConstantReg}
    (constant : cx.instrs.constReg? cx.tm r = some k) {cell : Cell}
    (lives : cx.rmap.find r = some cell) (agree : ConstantsAgree cx cell k.value) {f : FuncId}
    {blocks : Label → List Inst} (body : M.body f = some blocks) {shared : Shared M.widths W}
    (entry : stateValue cx.stats shared.slots r = some (.ofInt (M.widths cell.cls) k.value))
    {n : Nat} {c : Config M.widths W}
    (run : iterate M.step n ⟨[M.entryFrame f blocks], shared⟩ = some c)
    (checks : ∀ m < n, ∀ c₁, iterate M.step m ⟨[M.entryFrame f blocks], shared⟩ = some c₁ →
      ChecksWrites cx mfs addrs cell c₁) :
    (∀ id isDef isImplicit, operandToValue cx id (.reg r isDef isImplicit) =
      .ok ([], some (.const (.ofInt 64 k.value)))) ∧
    stateValue cx.stats c.shared.slots r = some (.ofInt (M.widths cell.cls) k.value) ∧
    ∀ fr rest id width code, c.frames = fr :: rest → fr.code = .load id width (.cell cell) :: code →
      fr.locals cell = BitVec.ofInt _ k.value := by
  obtain ⟨funcs, adds, -, lifted, -, -, -⟩ := lifted_of_bleachModule module
  obtain ⟨t, member, rfl⟩ := transfer_of_find lives
  have state : ∀ slots : Slots M.widths, stateValue cx.stats slots r =
      some ⟨M.widths t.cls, slots t.slot⟩ := by
    intro slots
    have found : (registerMap cx.stats).find r = some t.cell := lives
    simp [stateValue, found, slotOf_cell member]
  rw [state] at entry
  obtain ⟨mf, found, first⟩ := lifted.keeps_entry disjoint member agree body
  have start : KeepsConstants cx mfs addrs t k.value ⟨[M.entryFrame f blocks], shared⟩ :=
    ⟨eq_of_heq (APInt.mk.inj (Option.some.inj entry)).2,
      List.forall_mem_singleton.mpr ⟨mf, found, first⟩⟩
  obtain ⟨slot, frames⟩ := lifted.keeps_run disjoint member agree start run checks
  refine ⟨fun id isDef isImplicit => operandToValue_ok.mpr (.constant constant), ?_, ?_⟩
  · rw [state, slot]
    rfl
  · intro fr rest id width code top at_
    obtain ⟨mf, -, keeps⟩ := frames fr (by simp [top])
    rcases keeps.code with ⟨settled, -⟩ | ⟨opening, rest, split, opens, -⟩
    · exact settled
    · cases opening with
      | nil => cases (List.cons.inj (at_.symm.trans split)).1
      | cons y later =>
        obtain ⟨rfl, -⟩ := List.cons.inj (at_.symm.trans split)
        cases opens _ List.mem_cons_self

namespace RiscV

/-- A function that adds into the zero register. -/
def addsToZero : List MachineFunction := [⟨"adds", [[addi X0 X10 1, ret]]⟩]

/-- A function that loads the top of the stack into the zero register. -/
def loadsToZero : List MachineFunction := [⟨"loads", [[ld X0 X2 0, ret]]⟩]

/-- Registers hold zero, bytes of the stack one. -/
def filledStack (w : Nat → Nat) : Shared w World := { zeroed w with stack := fun _ => 1 }

/-- `n` steps from the entry of the first function of a module, with a filled stack. -/
def runFirst (mfs : List MachineFunction) (n : Nat) :
    Option (Config (module mfs none).widths World) :=
  ((module mfs none).enter 0 [] (filledStack _)).bind (iterate (module mfs none).step n)

theorem add_checked (T : StackPointerTracker) : ¬BypassesCheck context ⟨0, X0⟩ (addi X0 X10 1) T := by
  have noAccess : dispatch context (addi X0 X10 1) T ≠ .stackAccess := by
    intro access
    unfold dispatch at access
    split_ifs at access with _ _ _ _ _ manipulates
    cases manipulates
  intro bypasses
  unfold BypassesCheck at bypasses
  split at bypasses
  · next access => exact noAccess access
  · obtain ⟨r, isDef, isImplicit, defined, -, varying⟩ := bypasses
    obtain ⟨rfl, -⟩ := MachineOperand.reg.inj (List.mem_singleton.mp defined)
    cases varying
  · obtain ⟨r, isDef, isImplicit, defined, -, varying⟩ := bypasses
    obtain ⟨rfl, -⟩ := MachineOperand.reg.inj (List.mem_singleton.mp defined)
    cases varying
  · exact bypasses

theorem addsToZero_kept : ∃ c, runFirst addsToZero 36 = some c ∧ c.frames = [] ∧
    stateValue [gpr] c.shared.slots X0 = some (.ofInt 64 0) := by
  have done : ((runFirst addsToZero 36).map fun c => c.frames.isEmpty) = some true := by
    decide +kernel
  obtain ⟨c, run, finished⟩ := Option.map_eq_some_iff.mp done
  obtain ⟨start, entered, steps⟩ := Option.bind_eq_some_iff.mp run
  obtain ⟨blocks, body, rfl⟩ := Option.map_eq_some_iff.mp entered
  refine ⟨c, run, by simpa using finished, ?_⟩
  refine (@constants_kept World context addsToZero (fun _ => none) (module addsToZero none) none 64 ""
    rfl (by decide) X0 ⟨"X0", 0⟩ rfl ⟨0, X0⟩ rfl ?_ 0 blocks body (filledStack _) rfl 36 c steps
    ?_).2.1
  · intro r k constant lives
    obtain rfl := List.mem_singleton.mp (List.mem_of_find?_eq_some constant)
    rfl
  · rintro m - c₁ - fr rest b i code mf - - found ⟨mbb, minst, st, block, here, -, bypasses⟩
    obtain rfl := List.mem_singleton.mp (List.mem_of_getElem? found)
    obtain rfl := List.mem_singleton.mp (List.mem_of_getElem? block)
    rcases List.mem_pair.mp (List.mem_of_getElem? here) with rfl | rfl
    · exact add_checked _ bypasses
    · exact bypasses

/-- The register reads as zero, but the caller finds the loaded value in it. -/
theorem loadsToZero_lost : ¬∀ n c, runFirst loadsToZero n = some c →
    stateValue [gpr] c.shared.slots X0 = some (.ofInt 64 0) := by
  intro kept
  have done : ((runFirst loadsToZero 35).map fun c => c.shared.slots ⟨0, 0⟩) =
      some 0x0101010101010101 := by
    decide +kernel
  obtain ⟨c, run, slot⟩ := Option.map_eq_some_iff.mp done
  have value : stateValue [gpr] c.shared.slots X0 = some ⟨64, c.shared.slots ⟨0, 0⟩⟩ := rfl
  rw [kept 35 c run, slot] at value
  exact absurd value (by decide)

end RiscV
end Bleach
