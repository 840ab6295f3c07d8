import Bleach.Lifter.Position

/-! Everything the lifting of one instruction can add to a block, and what it knows
of the machine instruction where it writes to a variable. -/
namespace Bleach
variable {W : Type} {cx : Context W} {s : Site} {minst : MachineInstr} {st st' : Builder}
  {addr : Option (BitVec 64)} {l : Label}

/-- The variable behind an operand. -/
def operandCell (cx : Context W) (op : MachineOperand) : Option Cell :=
  op.reg?.bind cx.rmap.find

/-- An instruction that may be added to block `l`. -/
inductive Emitted (cx : Context W) (s : Site) (minst : MachineInstr) (path : Path) (l : Label) :
    Inst → Prop where
  | operand (own : l = s.label) {k width c} :
      Emitted cx s minst path l (.load (.operand s.block s.idx k) width (.cell c))
  | saved {x} (inside : x ∈ cx.save) : Emitted cx s minst path l x
  | reloaded {x} (inside : x ∈ cx.reload) : Emitted cx s minst path l x
  | control {x} (transfers : x.isPlain = false) : Emitted cx s minst path l x
  | lookup {arg} : Emitted cx s minst path l (.symtabLookup (.callee s.block s.idx) arg)
  | cast {k arg width} : Emitted cx s minst path l (.sextOrTrunc (.cast s.block s.idx k) arg width)
  | function {name args} : Emitted cx s minst path l (.callInstr (.result s.block s.idx) name args)
  | pointer {width c} : Emitted cx s minst path l (.load (.sp s.block s.idx) width (.cell c))
  | index {lhs rhs} : Emitted cx s minst path l (.add (.index s.block s.idx) lhs rhs)
  | stackLoad {width idx} : Emitted cx s minst path l (.load (.result s.block s.idx) width (.stack idx))
  | stackStore {value idx} : Emitted cx s minst path l (.store value (.stack idx))
  /-- The loaded value goes to whatever register comes first. -/
  | loaded (here : path = .stackAccess) {op c} (first : minst.defs.head? = some op)
      (found : operandCell cx op = some c) :
      Emitted cx s minst path l (.store (.ssa (.result s.block s.idx)) (.cell c))
  | result (here : path = .stackPointerModification ∨ path = .generic) {r isDef isImplicit c}
      (defined : .reg r isDef isImplicit ∈ minst.defs) (found : cx.rmap.find r = some c)
      (varying : cx.instrs.constReg? cx.tm r = none) :
      Emitted cx s minst path l (.store (.ssa (.result s.block s.idx)) (.cell c))
  | constant {r c k rclass} (found : cx.rmap.find r = some c)
      (constant : cx.instrs.constReg? cx.tm r = some k)
      (classed : cx.stats.getRegisterClassFor r = some rclass) :
      Emitted cx s minst path l (.store (.const (.ofInt rclass.bitsize k.value)) (.cell c))

theorem findRegisterByName_name {tm : TargetMachine} {name : String} {reg : Register}
    (found : findRegisterByName tm name = some reg) : name = tm.getName reg := by
  obtain ⟨rclass, -, here⟩ := List.exists_of_findSome?_eq_some found
  simpa using List.find?_some here

theorem constRegsVals_mem {regs : List ConstantReg} {vals : List (Register × Nat)}
    (done : constRegsVals cx regs = .ok vals) {reg : Register} {c : Nat} (member : (reg, c) ∈ vals) :
    ∃ r ∈ regs, findRegisterByName cx.tm r.name = some reg := by
  induction regs generalizing vals with
  | nil =>
    cases done
    cases member
  | cons r rest ih =>
    unfold constRegsVals at done
    split at done
    · cases done
    · next reg' found =>
      obtain ⟨later, others, done⟩ := bind_ok.mp done
      cases done
      rcases List.mem_cons.mp member with same | inside
      · obtain ⟨rfl, rfl⟩ := Prod.mk.inj same
        exact ⟨r, List.mem_cons_self, found⟩
      · obtain ⟨r', member', found'⟩ := ih others inside
        exact ⟨r', List.mem_cons_of_mem _ member', found'⟩

/-- The constant written to a constant register is the one read from it. -/
theorem constRegsVals_lookup {regs : List ConstantReg} {vals : List (Register × Nat)}
    (done : constRegsVals cx regs = .ok vals) {r : Register} {k : ConstantReg}
    (first : regs.find? (fun k => k.name = cx.tm.getName r) = some k)
    (named : findRegisterByName cx.tm k.name = some r) : vals.lookup r = some k.value := by
  induction regs generalizing vals with
  | nil => cases first
  | cons e rest ih =>
    unfold constRegsVals at done
    split at done
    · cases done
    · next reg found =>
      obtain ⟨later, others, done⟩ := bind_ok.mp done
      cases done
      by_cases here : e.name = cx.tm.getName r
      · obtain rfl : e = k := by simpa [here] using first
        obtain rfl := Option.some.inj (found.symm.trans named)
        simp
      · have apart : r ≠ reg := by
          rintro rfl
          exact here (findRegisterByName_name found)
        rw [List.lookup_cons, beq_eq_false_iff_ne.mpr apart]
        exact ih others (by simpa [here] using first)

theorem writeValueToRegister_ok {val : Value} {r : Register} {code : List Inst}
    (done : writeValueToRegister cx val r = .ok code) : ∃ c, cx.rmap.find r = some c ∧
      ((cx.instrs.constReg? cx.tm r = none ∧ code = [.store val (.cell c)]) ∨
        ∃ k rclass, cx.instrs.constReg? cx.tm r = some k ∧
          cx.stats.getRegisterClassFor r = some rclass ∧
          code = [.store (.const (.ofInt rclass.bitsize k.value)) (.cell c)]) := by
  unfold writeValueToRegister at done
  obtain ⟨c, found, done⟩ := bind_ok.mp done
  obtain ⟨vals, table, done⟩ := bind_ok.mp done
  obtain ⟨rclass, classed, done⟩ := bind_ok.mp done
  refine ⟨c, regAddr_ok found, ?_⟩
  split at done
  · next k constant =>
    split at done
    · next value listed =>
      -- the register found under the constant's name can only be this one
      obtain ⟨before, after, split, -⟩ := List.lookup_eq_some_iff.mp listed
      obtain ⟨k', -, named⟩ := constRegsVals_mem table (show (r, value) ∈ vals by simp [split])
      have name : k.name = cx.tm.getName r := by simpa using List.find?_some constant
      rw [findRegisterByName_name named, ← name] at named
      obtain rfl := Option.some.inj (listed.symm.trans (constRegsVals_lookup table constant named))
      exact .inr ⟨k, rclass, constant, getRegisterClassFor_ok classed, (Except.ok.inj done).symm⟩
    · cases done
  · next varying => exact .inl ⟨varying, (Except.ok.inj done).symm⟩

theorem emitted_writeDefs {path : Path} (here : path = .stackPointerModification ∨ path = .generic)
    {defs : List MachineOperand} (defined : ∀ op ∈ defs, op ∈ minst.defs) {code : List Inst}
    (done : writeDefs cx (.ssa (.result s.block s.idx)) defs = .ok code) :
    ∀ x ∈ code, Emitted cx s minst path l x := by
  induction defs generalizing code with
  | nil =>
    cases done
    simp
  | cons op rest ih =>
    cases op with
    | reg r isDef isImplicit =>
      obtain ⟨first, write, done⟩ := bind_ok.mp done
      obtain ⟨later, others, done⟩ := bind_ok.mp done
      cases done
      obtain ⟨operand, more⟩ := List.forall_mem_cons.mp defined
      refine List.forall_mem_append.mpr ⟨?_, ih more others⟩
      obtain ⟨c, found, ⟨varying, rfl⟩ | ⟨k, rclass, constant, classed, rfl⟩⟩ :=
        writeValueToRegister_ok write
      · simpa using .result here operand found varying
      · simpa using .constant found constant classed
    | _ => cases done

theorem emitted_storeResult {code : List Inst}
    (done : storeResult cx minst (.ssa (.result s.block s.idx)) = .ok code) :
    ∀ x ∈ code, Emitted cx s minst .stackAccess l x := by
  unfold storeResult at done
  split at done
  · cases done
    simp
  · next r isDef isImplicit rest defs =>
    obtain ⟨c, addr, done⟩ := bind_ok.mp done
    cases done
    have first : minst.defs.head? = some (.reg r isDef isImplicit) := by simp [defs]
    have found : operandCell cx (.reg r isDef isImplicit) = some c := by
      simpa [operandCell, MachineOperand.reg?] using regAddr_ok addr
    simpa using .loaded rfl first found
  · cases done

theorem emitted_loads {path : Path} {ops : List MachineOperand} {k : Nat} {loads : List Inst}
    {vals : List (Option Value)} (done : operandsToValues cx s ops k = .ok (loads, vals)) :
    ∀ x ∈ loads, Emitted cx s minst path s.label x := by
  intro x member
  obtain ⟨_, -, _, n, rclass, c, -, -, -, rfl⟩ := operandsToValues_loads done x member
  exact .operand rfl

theorem emitted_casts {path : Path} (args : List Value) (tys : List Nat) (k : Nat) :
    ∀ x ∈ (castArgs s args tys k).1, Emitted cx s minst path l x := by
  intro x member
  obtain ⟨n, arg, width, rfl⟩ := castArgs_casts s args tys k x member
  exact .cast

/-- What is added to each block satisfies `P`. -/
def Builder.Grows (P : Label → Inst → Prop) (st st' : Builder) : Prop :=
  ∀ l, ∃ new, st'.blocks l = st.blocks l ++ new ∧ ∀ x ∈ new, P l x

namespace Builder.Grows
variable {P : Label → Inst → Prop} {code : List Inst}

theorem refl (st : Builder) : Grows P st st := fun _ => ⟨[], by simp, by simp⟩

theorem insert (grows : Grows P st st') {l : Label} (added : ∀ x ∈ code, P l x) :
    Grows P st (st'.insert l code) := by
  intro l'
  obtain ⟨new, blocks, before⟩ := grows l'
  refine ⟨new ++ if l' = l then code else [], by simp [blocks], List.forall_mem_append.mpr
    ⟨before, ?_⟩⟩
  split_ifs with same
  · exact same ▸ added
  · simp

theorem trans {st'' : Builder} (first : Grows P st st') (second : Grows P st' st'') :
    Grows P st st'' := by
  intro l
  obtain ⟨new, blocks, here⟩ := first l
  obtain ⟨later, blocks', there⟩ := second l
  exact ⟨new ++ later, by rw [blocks', blocks, List.append_assoc],
    List.forall_mem_append.mpr ⟨here, there⟩⟩

theorem emit (grows : Grows P st st') (added : ∀ l, ∀ x ∈ code, P l x) :
    Grows P st (st'.emit code) := grows.insert (added _)

end Builder.Grows

/-- Everything an instruction emits. -/
theorem generateInstruction_emits (done : generateInstruction cx s addr minst st = .ok st') :
    st.Grows (Emitted cx s minst (dispatch cx minst st.sptrack)) st' := by
  rw [generateInstruction_eq] at done
  have start := Builder.Grows.refl (P := Emitted cx s minst (dispatch cx minst st.sptrack)) st
  cases path : dispatch cx minst st.sptrack with
  | ret =>
    obtain rfl := Except.ok.inj (path ▸ done)
    exact (path ▸ start).emit fun l => by simpa using .control rfl
  | indirect =>
    obtain ⟨loads, arg, rest, values, rfl⟩ := generateIndirectBranch_ok (path ▸ done)
    refine ((path ▸ start).insert (emitted_loads values)).emit fun l x member => ?_
    rcases List.mem_cons.mp member with rfl | member
    · exact .lookup
    rcases List.mem_append.mp member with saved | member
    · exact .saved saved
    rcases List.mem_cons.mp member with rfl | loaded
    · exact .control rfl
    · exact .reloaded loaded
  | jump =>
    obtain ⟨-, rfl⟩ | ⟨-, b, -, -, rfl⟩ := generateJump_ok (path ▸ done)
    · exact path ▸ start
    · exact (path ▸ start).emit fun l => by simpa using .control rfl
  | branch =>
    obtain ⟨f, loads, args, b, ifFalse, -, ⟨vals, values, -⟩, -, -, -, rfl⟩ :=
      generateBranch_ok (path ▸ done)
    refine ((path ▸ start).insert (emitted_loads values)).emit fun l => ?_
    simpa using ⟨.function, .control rfl⟩
  | call =>
    obtain ⟨callee, -, rfl⟩ := generateCall_ok (path ▸ done)
    refine (path ▸ start).emit fun l x member => ?_
    rcases List.mem_append.mp member with saved | member
    · exact .saved saved
    rcases List.mem_cons.mp member with rfl | member
    · exact .control rfl
    · split_ifs at member
      · cases member
      · exact .reloaded member
  | stackAccess =>
    obtain ⟨spReg, sp, rclass, write, -, -, -, written, ⟨-, -, f, -, rfl⟩ |
      ⟨-, op, a, o, load, value, -, operand, rfl⟩⟩ := generateLoadStoreFromStack_ok (path ▸ done)
    all_goals
      have index : ∀ l, ∀ x ∈ stackIndexCode s sp rclass minst, Emitted cx s minst .stackAccess l x :=
        fun l => by simpa [stackIndexCode] using ⟨.pointer, .index⟩
    · exact ((path ▸ start).emit index).emit fun l =>
        List.forall_mem_cons.mpr ⟨.stackLoad, emitted_storeResult written⟩
    · have loads : ∀ x ∈ load, Emitted cx s minst .stackAccess s.label x := by
        intro x member
        obtain ⟨r, rclass, c, -, -, -, rfl⟩ := operandToValue_loads operand x member
        exact .operand rfl
      exact (((path ▸ start).emit index).insert loads).emit fun l =>
        List.forall_mem_cons.mpr ⟨.stackStore, emitted_storeResult written⟩
  | stackPointerModification =>
    obtain ⟨_, -, done⟩ := bind_ok.mp (path ▸ done)
    obtain ⟨_, -, done⟩ := bind_ok.mp done
    obtain ⟨imm, loads, args, writes, -, ⟨vals, values, -⟩, written, rfl⟩ :=
      generateStackPointerModification_ok done
    exact ((path ▸ start).insert (emitted_loads values)).emit fun l => List.forall_mem_cons.mpr
      ⟨.function, emitted_writeDefs (.inl rfl) (fun _ => id) written⟩
  | generic =>
    obtain ⟨_, -, done⟩ := bind_ok.mp (path ▸ done)
    obtain ⟨_, -, done⟩ := bind_ok.mp done
    obtain ⟨f, loads, args, pc, writes, -, ⟨vals, values, -⟩, -, written, rfl⟩ :=
      generateGeneric_ok done
    exact ((path ▸ start).insert (emitted_loads values)).emit fun l => List.forall_mem_append.mpr
      ⟨emitted_casts _ _ _, List.forall_mem_cons.mpr
        ⟨.function, emitted_writeDefs (.inr rfl) (fun _ => id) written⟩⟩

/-- What holds of all emitted code holds of all code of a function but the copies at
its entry. -/
theorem finalBuilder_grows {mf : MachineFunction} {addrs : FunctionAddresses} {fin : Builder}
    {P : Label → Inst → Prop} (whole : finalBuilder cx mf addrs = .ok fin) (blocks : mf.blocks ≠ [])
    (emitted : ∀ {b i : Nat} {mbb minst st l x}, mf.blocks[b]? = some mbb → mbb[i]? = some minst →
      builderAt cx mf addrs b i = .ok st →
      Emitted cx (mf.site b mbb i) minst (dispatch cx minst st.sptrack) l x → P l x)
    (control : ∀ {l x}, x.isPlain = false → P l x) :
    ∃ spReg, (initialBuilder cx spReg).Grows P fin := by
  obtain ⟨spReg, -, start⟩ := builderAt_zero whole blocks
  refine ⟨spReg, ?_⟩
  have closes : ∀ {s : Site} {st st' : Builder}, fillTerminator cx s st = .ok st' →
      (initialBuilder cx spReg).Grows P st → (initialBuilder cx spReg).Grows P st' := by
    intro s st st' done grows
    obtain ⟨last, -, ⟨-, rfl⟩ | ⟨-, -, ⟨-, rfl⟩ | ⟨-, -, rfl⟩⟩⟩ := fillTerminator_ok done
    · exact grows
    · exact grows.emit fun l => by simpa using control rfl
    · exact grows.emit fun l => by simpa using control rfl
  obtain ⟨b, mbb, st, block, builder, terminator⟩ := fin_last whole blocks
  refine closes terminator ?_
  refine builder_induction whole (P := fun _ _ st => (initialBuilder cx spReg).Grows P st)
    ?_ ?_ ?_ block (Nat.le_refl _) builder
  · intro st first
    obtain rfl := Except.ok.inj (start.symm.trans first)
    exact .refl _
  · intro b mbb i minst st st' code block here lifting grows
    obtain ⟨addr, generated⟩ := lifting.generated
    exact grows.trans fun l => by
      obtain ⟨new, added, emits⟩ := generateInstruction_emits generated l
      exact ⟨new, added, fun x member => emitted block here lifting.builder (emits x member)⟩
  · intro b mbb st st' block bound terminator grows
    have closed : (initialBuilder cx spReg).Grows P st' := closes terminator grows
    exact closed

end Bleach
