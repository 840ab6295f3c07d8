import Bleach.Lifter.Emission

/-! The shape of the code one instruction contributes: which control transfers it
contains, where the builder stands behind it, and what the tracker holds. -/
namespace Bleach
variable {W : Type} {cx : Context W} {s : Site} {minst : MachineInstr} {st st' : Builder}
  {addr : Option (BitVec 64)}

/-- Code without control transfers. -/
def Plain (code : List Inst) : Prop := ∀ i ∈ code, i.isPlain = true

namespace Plain

theorem nil : Plain [] := by simp [Plain]

theorem cons {i : Inst} {code : List Inst} (here : i.isPlain = true) (rest : Plain code) :
    Plain (i :: code) := List.forall_mem_cons.mpr ⟨here, rest⟩

theorem append {first second : List Inst} (h : Plain first) (h' : Plain second) :
    Plain (first ++ second) := List.forall_mem_append.mpr ⟨h, h'⟩

theorem flatMap {α : Type} {l : List α} {f : α → List Inst} (each : ∀ a ∈ l, Plain (f a)) :
    Plain (l.flatMap f) := by
  intro i member
  obtain ⟨a, inside, here⟩ := List.mem_flatMap.mp member
  exact each a inside i here

end Plain

theorem plain_save (cx : Context W) : Plain cx.save :=
  .flatMap fun _ _ => .flatMap fun _ _ => .cons rfl (.cons rfl .nil)

theorem plain_reload (cx : Context W) : Plain cx.reload :=
  .flatMap fun _ _ => .flatMap fun _ _ => .cons rfl (.cons rfl .nil)

theorem plain_materialize (stats : RegisterStats) : Plain (materializeRegisters stats) :=
  .flatMap fun _ _ => .flatMap fun _ _ => .cons rfl (.cons rfl (.cons rfl .nil))

/-- The operand of a register is loaded from its variable. -/
theorem operandToValue_loads {id : ValueId} {op : MachineOperand} {load : List Inst}
    {val : Option Value} (done : operandToValue cx id op = .ok (load, val)) :
    ∀ i ∈ load, ∃ r rclass c, op.reg? = some r ∧ cx.rmap.find r = some c ∧
      cx.stats.getRegisterClassFor r = some rclass ∧ i = .load id rclass.bitsize (.cell c) := by
  cases operandToValue_ok.mp done with
  | register varying found classed =>
    intro i member
    exact ⟨_, _, _, rfl, found, classed, List.mem_singleton.mp member⟩
  | constant | implicitDef | immediate => simp

theorem operandsToValues_loads {ops : List MachineOperand} {k : Nat} {loads : List Inst}
    {vals : List (Option Value)} (done : operandsToValues cx s ops k = .ok (loads, vals)) :
    ∀ i ∈ loads, ∃ op ∈ ops, ∃ r n rclass c, op.reg? = some r ∧ cx.rmap.find r = some c ∧
      cx.stats.getRegisterClassFor r = some rclass ∧
      i = .load (.operand s.block s.idx n) rclass.bitsize (.cell c) := by
  induction ops generalizing k loads vals with
  | nil => cases done; simp
  | cons op rest ih =>
    obtain ⟨⟨load, val⟩, first, done⟩ := bind_ok.mp done
    obtain ⟨⟨later, vals'⟩, others, done⟩ := bind_ok.mp done
    cases done
    intro i member
    obtain here | there := List.mem_append.mp member
    · obtain ⟨r, rclass, c, load⟩ := operandToValue_loads first i here
      exact ⟨op, List.mem_cons_self, r, k, rclass, c, load⟩
    · obtain ⟨op', inside, rest⟩ := ih others i there
      exact ⟨op', List.mem_cons_of_mem _ inside, rest⟩

/-- A result is stored to the variable of its register, unless a constant is. -/
theorem writeDefs_stores {val : Value} {defs : List MachineOperand} {code : List Inst}
    (done : writeDefs cx val defs = .ok code) :
    ∀ i ∈ code, ∃ op ∈ defs, ∃ r v c, op.reg? = some r ∧ cx.rmap.find r = some c ∧
      (v = val ∨ ∃ n, v = .const n) ∧ i = .store v (.cell c) := by
  induction defs generalizing code with
  | nil => cases done; simp
  | cons op rest ih =>
    cases op with
    | reg r isDef isImplicit =>
      obtain ⟨first, write, done⟩ := bind_ok.mp done
      obtain ⟨later, others, done⟩ := bind_ok.mp done
      cases done
      obtain ⟨c, addr, write⟩ := bind_ok.mp write
      obtain ⟨vals, -, write⟩ := bind_ok.mp write
      obtain ⟨rclass, -, write⟩ := bind_ok.mp write
      obtain ⟨v, value, rfl⟩ : ∃ v, (v = val ∨ ∃ n, v = .const n) ∧ first = [.store v (.cell c)] := by
        split at write
        · split at write
          · exact ⟨_, .inr ⟨_, rfl⟩, (Except.ok.inj write).symm⟩
          · cases write
        · exact ⟨_, .inl rfl, (Except.ok.inj write).symm⟩
      intro i member
      obtain rfl | there := List.mem_cons.mp member
      · exact ⟨_, List.mem_cons_self, r, v, c, rfl, regAddr_ok addr, value, rfl⟩
      · obtain ⟨op', inside, rest⟩ := ih others i there
        exact ⟨op', List.mem_cons_of_mem _ inside, rest⟩
    | imm v => cases done
    | mbb b => cases done
    | global f => cases done
    | other t => cases done

theorem storeResult_stores {val : Value} {code : List Inst}
    (done : storeResult cx minst val = .ok code) :
    ∀ i ∈ code, ∃ op ∈ minst.defs, ∃ r c, op.reg? = some r ∧ cx.rmap.find r = some c ∧
      i = .store val (.cell c) := by
  unfold storeResult at done
  split at done
  · cases done; simp
  · next r isDef isImplicit rest defs =>
    obtain ⟨c, addr, done⟩ := bind_ok.mp done
    cases done
    intro i member
    exact ⟨_, defs ▸ List.mem_cons_self, r, c, rfl, regAddr_ok addr, List.mem_singleton.mp member⟩
  · cases done

theorem castArgs_casts (s : Site) (args : List Value) (tys : List Nat) (k : Nat) :
    ∀ i ∈ (castArgs s args tys k).1, ∃ n v w, i = .sextOrTrunc (.cast s.block s.idx n) v w := by
  induction args generalizing tys k with
  | nil => simp [castArgs]
  | cons arg rest ih =>
    cases tys with
    | nil => simp [castArgs]
    | cons ty tys =>
      intro i member
      obtain rfl | there := List.mem_cons.mp member
      · exact ⟨k, arg, ty, rfl⟩
      · exact ih tys (k + 1) i there

theorem plain_operand {id : ValueId} {op : MachineOperand} {load : List Inst} {val : Option Value}
    (done : operandToValue cx id op = .ok (load, val)) : Plain load := by
  intro i member
  obtain ⟨_, _, _, -, -, -, rfl⟩ := operandToValue_loads done i member
  rfl

theorem plain_operands {ops : List MachineOperand} {k : Nat} {loads : List Inst}
    {vals : List (Option Value)} (done : operandsToValues cx s ops k = .ok (loads, vals)) :
    Plain loads := by
  intro i member
  obtain ⟨_, -, _, _, _, _, -, -, -, rfl⟩ := operandsToValues_loads done i member
  rfl

theorem plain_writeDefs {val : Value} {defs : List MachineOperand} {code : List Inst}
    (done : writeDefs cx val defs = .ok code) : Plain code := by
  intro i member
  obtain ⟨_, -, _, _, _, -, -, -, rfl⟩ := writeDefs_stores done i member
  rfl

theorem plain_storeResult {val : Value} {code : List Inst}
    (done : storeResult cx minst val = .ok code) : Plain code := by
  intro i member
  obtain ⟨_, -, _, _, -, -, rfl⟩ := storeResult_stores done i member
  rfl

theorem plain_castArgs (s : Site) (args : List Value) (tys : List Nat) (k : Nat) :
    Plain (castArgs s args tys k).1 := by
  intro i member
  obtain ⟨_, _, _, rfl⟩ := castArgs_casts s args tys k i member
  rfl

/-- What the tracker holds behind an instruction. -/
def nextTracker (cx : Context W) (minst : MachineInstr) (sptrack : StackPointerTracker) :
    StackPointerTracker :=
  match dispatch cx minst sptrack with
  | .stackPointerModification => addDef sptrack minst
  | .generic => eraseDefs sptrack minst
  | _ => sptrack

/-- The code an instruction appends at the builder's insertion point, and the
insertion point behind it. -/
inductive Chunk (cx : Context W) (s : Site) (minst : MachineInstr) (path : Path) (cur : Label) :
    List Inst → Label → Prop where
  | ret (here : path = .ret) : Chunk cx s minst path cur [.retVoid] cur
  | indirect (here : path = .indirect) (plain : Plain before) :
      Chunk cx s minst path cur (before ++ .callPtr (.callee s.block s.idx) :: cx.reload) cur
  | folded (here : path = .jump) (behind : s.prev.any MachineInstr.isConditionalBranch = true) :
      Chunk cx s minst path cur [] cur
  | jump (here : path = .jump) (behind : s.prev.any MachineInstr.isConditionalBranch = false)
      (operand : minst.mbbOperand = some b) (bound : b < s.numBlocks) :
      Chunk cx s minst path cur [.br (.mbb b)] cur
  | branch (here : path = .branch) (plain : Plain before)
      (operand : (minst.operands[2]?).bind MachineOperand.mbb? = some b) (bound : b < s.numBlocks)
      (untaken : IfFalse s ifFalse) :
      Chunk cx s minst path cur
        (before ++ [.condBr (.ssa (.result s.block s.idx)) (.mbb b) ifFalse]) ifFalse
  | call (here : path = .call) (operand : minst.globalOperand = some callee) :
      Chunk cx s minst path cur
        (cx.save ++ .call callee :: if cx.functionsNop then [] else cx.reload) cur
  | plain (here : path = .stackAccess ∨ path = .stackPointerModification ∨ path = .generic)
      (straight : Plain code) : Chunk cx s minst path cur code cur

namespace Chunk
variable {cur cur' : Label} {code : List Inst}

theorem of_ret (chunk : Chunk cx s minst .ret cur code cur') : cur' = cur ∧ code = [.retVoid] := by
  cases chunk with
  | ret _ => exact ⟨rfl, rfl⟩
  | indirect here | folded here | jump here | branch here | call here => cases here
  | plain here => simp at here

theorem of_indirect (chunk : Chunk cx s minst .indirect cur code cur') : cur' = cur ∧
    ∃ before, Plain before ∧ code = before ++ .callPtr (.callee s.block s.idx) :: cx.reload := by
  cases chunk with
  | indirect _ plain => exact ⟨rfl, _, plain, rfl⟩
  | ret here | folded here | jump here | branch here | call here => cases here
  | plain here => simp at here

theorem of_jump (chunk : Chunk cx s minst .jump cur code cur') : cur' = cur ∧
    (s.prev.any MachineInstr.isConditionalBranch = true ∧ code = [] ∨
      s.prev.any MachineInstr.isConditionalBranch = false ∧ ∃ b, minst.mbbOperand = some b ∧
        b < s.numBlocks ∧ code = [.br (.mbb b)]) := by
  cases chunk with
  | folded _ behind => exact ⟨rfl, .inl ⟨behind, rfl⟩⟩
  | jump _ behind operand bound => exact ⟨rfl, .inr ⟨behind, _, operand, bound, rfl⟩⟩
  | ret here | indirect here | branch here | call here => cases here
  | plain here => simp at here

theorem of_branch (chunk : Chunk cx s minst .branch cur code cur') : ∃ before b, Plain before ∧
    (minst.operands[2]?).bind MachineOperand.mbb? = some b ∧ b < s.numBlocks ∧ IfFalse s cur' ∧
    code = before ++ [.condBr (.ssa (.result s.block s.idx)) (.mbb b) cur'] := by
  cases chunk with
  | branch _ plain operand bound untaken => exact ⟨_, _, plain, operand, bound, untaken, rfl⟩
  | ret here | indirect here | folded here | jump here | call here => cases here
  | plain here => simp at here

theorem of_call (chunk : Chunk cx s minst .call cur code cur') : cur' = cur ∧ ∃ callee,
    minst.globalOperand = some callee ∧
    code = cx.save ++ .call callee :: if cx.functionsNop then [] else cx.reload := by
  cases chunk with
  | call _ operand => exact ⟨rfl, _, operand, rfl⟩
  | ret here | indirect here | folded here | jump here | branch here => cases here
  | plain here => simp at here

theorem of_plain {path : Path} (chunk : Chunk cx s minst path cur code cur')
    (other : path ∉ [.ret, .indirect, .jump, .branch, .call]) : cur' = cur ∧ Plain code := by
  cases chunk with
  | plain _ straight => exact ⟨rfl, straight⟩
  | ret here | indirect here | folded here | jump here | branch here | call here =>
    simp [here] at other

end Chunk

/-- Code appended to blocks: `code` where the builder stood, loads of operands in
the block of the machine block, nothing elsewhere. -/
structure Appends (s : Site) (st st' : Builder) (code : List Inst) : Prop where
  here : st'.blocks st.cur = st.blocks st.cur ++ code
  loads : ∀ l, l ≠ st.cur → ∃ loads, st'.blocks l = st.blocks l ++ loads ∧ Plain loads ∧
    (l ≠ s.label → loads = [])

theorem Appends.extends {code : List Inst} (appends : Appends s st st' code) : st.Extends st' := by
  intro l
  by_cases same : l = st.cur
  · exact ⟨code, same ▸ appends.here.symm⟩
  · obtain ⟨loads, more, -⟩ := appends.loads l same
    exact ⟨loads, more.symm⟩

theorem appends_refl : Appends s st st [] :=
  ⟨by simp, fun _ _ => ⟨[], by simp, .nil, fun _ => rfl⟩⟩

/-- All paths are of this form: operand loads, then code at the insertion point. -/
theorem appends_loads {loads code : List Inst} (plain : Plain loads)
    (blocks : ∀ l, st'.blocks l = ((st.insert s.label loads).emit code).blocks l) :
    Appends s st st' ((if st.cur = s.label then loads else []) ++ code) := by
  constructor
  · simp [blocks]
  · intro l other
    by_cases own : l = s.label
    · subst own
      exact ⟨loads, by simp [blocks, other], plain, fun h => absurd rfl h⟩
    · exact ⟨[], by simp [blocks, other, own], .nil, fun _ => rfl⟩

theorem appends_emit {code : List Inst} (blocks : ∀ l, st'.blocks l = (st.emit code).blocks l) :
    Appends s st st' code :=
  ⟨by simp [blocks], fun _ other => ⟨[], by simp [blocks, other], .nil, fun _ => rfl⟩⟩

/-- A list of plain code that is emitted only where the builder stands in its own block. -/
theorem plain_ite {p : Prop} [Decidable p] {code : List Inst} (plain : Plain code) :
    Plain (if p then code else []) := by
  split_ifs
  · exact plain
  · exact .nil

theorem generateInstruction_ok (done : generateInstruction cx s addr minst st = .ok st') :
    (∃ code, Appends s st st' code ∧
      Chunk cx s minst (dispatch cx minst st.sptrack) st.cur code st'.cur) ∧
    st'.sptrack = nextTracker cx minst st.sptrack := by
  rw [generateInstruction_eq] at done
  unfold nextTracker
  cases path : dispatch cx minst st.sptrack with
  | ret =>
    obtain rfl := Except.ok.inj (path ▸ done)
    exact ⟨⟨_, appends_emit fun _ => rfl, .ret rfl⟩, rfl⟩
  | indirect =>
    obtain ⟨loads, arg, rest, values, rfl⟩ := generateIndirectBranch_ok (path ▸ done)
    refine ⟨⟨_, appends_loads (plain_operands values) fun _ => rfl, ?_⟩, rfl⟩
    rw [← List.append_assoc]
    exact .indirect rfl ((plain_ite (plain_operands values)).append (.cons rfl (plain_save cx)))
  | jump =>
    obtain ⟨folded, rfl⟩ | ⟨unfolded, b, operand, bound, rfl⟩ := generateJump_ok (path ▸ done)
    · exact ⟨⟨[], appends_refl, .folded rfl folded⟩, rfl⟩
    · exact ⟨⟨_, appends_emit fun _ => rfl, .jump rfl unfolded operand bound⟩, rfl⟩
  | branch =>
    obtain ⟨f, loads, args, b, ifFalse, -, ⟨vals, values, -⟩, operand, bound, untaken, rfl⟩ :=
      generateBranch_ok (path ▸ done)
    refine ⟨⟨_, appends_loads (plain_operands values) fun _ => rfl, ?_⟩, rfl⟩
    rw [← List.singleton_append, ← List.append_assoc]
    exact .branch rfl ((plain_ite (plain_operands values)).append (.cons rfl .nil)) operand bound
      untaken
  | call =>
    obtain ⟨callee, operand, rfl⟩ := generateCall_ok (path ▸ done)
    exact ⟨⟨_, appends_emit fun _ => rfl, .call rfl operand⟩, rfl⟩
  | stackAccess =>
    obtain ⟨spReg, sp, rclass, write, -, -, -, written, ⟨-, -, f, -, rfl⟩ |
      ⟨-, op, a, o, load, value, -, operand, rfl⟩⟩ := generateLoadStoreFromStack_ok (path ▸ done)
    · refine ⟨⟨stackIndexCode s sp rclass minst ++
          .load (.result s.block s.idx) f.ret (.stack (.ssa (.index s.block s.idx))) :: write,
        appends_emit fun l => ?_, .plain (.inl rfl) ?_⟩, rfl⟩
      · by_cases here : l = st.cur <;> simp [here]
      · exact .append (.cons rfl (.cons rfl .nil)) (.cons rfl (plain_storeResult written))
    · refine ⟨⟨stackIndexCode s sp rclass minst ++ ((if st.cur = s.label then load else []) ++
          .store value (.stack (.ssa (.index s.block s.idx))) :: write), ⟨?_, ?_⟩,
        .plain (.inl rfl) ?_⟩, rfl⟩
      · simp
      · intro l other
        by_cases own : l = s.label
        · subst own
          exact ⟨load, by simp [other], plain_operand operand, fun h => absurd rfl h⟩
        · exact ⟨[], by simp [other, own], .nil, fun _ => rfl⟩
      · exact .append (.cons rfl (.cons rfl .nil)) ((plain_ite (plain_operand operand)).append
          (.cons rfl (plain_storeResult written)))
  | stackPointerModification =>
    obtain ⟨_, -, done⟩ := bind_ok.mp (path ▸ done)
    obtain ⟨_, -, done⟩ := bind_ok.mp done
    obtain ⟨imm, loads, args, writes, -, ⟨vals, values, -⟩, written, rfl⟩ :=
      generateStackPointerModification_ok done
    refine ⟨⟨_, appends_loads (plain_operands values) fun _ => rfl, .plain (.inr (.inl rfl)) ?_⟩, rfl⟩
    exact (plain_ite (plain_operands values)).append (.cons rfl (plain_writeDefs written))
  | generic =>
    obtain ⟨_, -, done⟩ := bind_ok.mp (path ▸ done)
    obtain ⟨_, -, done⟩ := bind_ok.mp done
    obtain ⟨f, loads, args, pc, writes, -, ⟨vals, values, -⟩, -, written, rfl⟩ :=
      generateGeneric_ok done
    refine ⟨⟨_, appends_loads (plain_operands values) fun _ => rfl, .plain (.inr (.inr rfl)) ?_⟩, rfl⟩
    exact (plain_ite (plain_operands values)).append
      ((plain_castArgs _ _ _ _).append (.cons rfl (plain_writeDefs written)))

end Bleach
