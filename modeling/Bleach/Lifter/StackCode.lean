import Bleach.Lifter.Lifted
import Bleach.Lifter.Operands

/-! The code that accesses the inline stack. The index is computed from the stack
pointer in front of every access; no other emitted code touches the stack. -/
namespace Bleach
variable {W : Type} {cx : Context W} {s : Site} {minst : MachineInstr} {st st' : Builder}
  {M : IRModule W} {addr : Option (BitVec 64)}

/-- Code that does not access the inline stack. -/
def OffStack (code : List Inst) : Prop := ∀ i ∈ code, i.stackIndex? = none

namespace OffStack

theorem cons {i : Inst} {code : List Inst} (here : i.stackIndex? = none) (rest : OffStack code) :
    OffStack (i :: code) := List.forall_mem_cons.mpr ⟨here, rest⟩

theorem append {first second : List Inst} (h : OffStack first) (h' : OffStack second) :
    OffStack (first ++ second) := List.forall_mem_append.mpr ⟨h, h'⟩

end OffStack

theorem offStack_operands {ops : List MachineOperand} {k : Nat} {loads : List Inst}
    {vals : List (Option Value)} (done : operandsToValues cx s ops k = .ok (loads, vals)) :
    OffStack loads := by
  intro i member
  obtain ⟨_, -, _, _, _, _, -, -, -, rfl⟩ := operandsToValues_loads done i member
  rfl

theorem offStack_writeDefs {val : Value} {defs : List MachineOperand} {code : List Inst}
    (done : writeDefs cx val defs = .ok code) : OffStack code := by
  intro i member
  obtain ⟨_, -, _, _, _, -, -, -, rfl⟩ := writeDefs_stores done i member
  rfl

theorem offStack_storeResult {val : Value} {code : List Inst}
    (done : storeResult cx minst val = .ok code) : OffStack code := by
  intro i member
  obtain ⟨_, -, _, _, -, -, rfl⟩ := storeResult_stores done i member
  rfl

theorem offStack_castArgs (s : Site) (args : List Value) (tys : List Nat) (k : Nat) :
    OffStack (castArgs s args tys k).1 := by
  intro i member
  obtain ⟨_, _, _, rfl⟩ := castArgs_casts s args tys k i member
  rfl

/-- Generic code leaves the stack alone. -/
theorem offStack_generic (done : generateGeneric cx s minst addr st = .ok st') :
    ∃ code, st'.blocks st.cur = st.blocks st.cur ++ code ∧ OffStack code := by
  obtain ⟨f, loads, args, pc, writes, -, ⟨vals, values, -⟩, -, written, rfl⟩ :=
    generateGeneric_ok done
  refine ⟨(if st.cur = s.label then loads else []) ++ ((castArgs s (args ++ pc) f.params 0).1 ++
    .callInstr (.result s.block s.idx) minst.desc.name (castArgs s (args ++ pc) f.params 0).2 ::
      writes), by simp, ?_⟩
  refine .append ?_ (.append (offStack_castArgs s _ _ 0) (.cons rfl (offStack_writeDefs written)))
  split_ifs
  · exact offStack_operands values
  · simp [OffStack]

/-- The index a stack access computes, if the stack pointer has 64 bits. -/
theorem exec_stackIndexCode {sp : Cell} {rclass : RegisterClass} (s : Site) (minst : MachineInstr)
    (full : M.widths sp.cls = rclass.bitsize) (d : Data M.widths W) :
    execCode M (stackIndexCode s sp rclass minst) d = if M.widths sp.cls = 64 then
      some ((d.bind (.sp s.block s.idx) (.int ⟨_, d.locals sp⟩)).bind (.index s.block s.idx)
        (.int ⟨_, d.locals sp +
          (BitVec.ofInt 64 (slotOffset minst (rclass.bitsize / 8))).setWidth _⟩)) else none := by
  rw [stackIndexCode, execCode, exec_loadCell full, Option.bind_some]
  simp only [execCode, execInst, evalInt, evalValue, Data.bind, Function.update_self,
    Option.bind_eq_bind, Option.bind_some, APInt.ofInt]
  split_ifs <;> rfl

/-- The indices at which code accesses the stack, up to the first instruction that
is undefined. -/
def accessedSlots (M : IRModule W) : List Inst → Data M.widths W → List APInt
  | [], _ => []
  | i :: rest, d =>
    ((i.stackIndex?).bind (evalInt d.env)).toList ++
      match execInst M d i with
      | some d' => accessedSlots M rest d'
      | none => []

theorem accessedSlots_offStack {code : List Inst} (off : OffStack code) (d : Data M.widths W) :
    accessedSlots M code d = [] := by
  induction code generalizing d with
  | nil => rfl
  | cons i rest ih =>
    obtain ⟨here, later⟩ := List.forall_mem_cons.mp off
    rw [accessedSlots, here]
    cases execInst M d i with
    | none => rfl
    | some d' => exact ih later d'

theorem accessedSlots_append {first : List Inst} (off : OffStack first) (later : List Inst)
    (d : Data M.widths W) : accessedSlots M (first ++ later) d =
      match execCode M first d with
      | some d' => accessedSlots M later d'
      | none => [] := by
  induction first generalizing d with
  | nil => rfl
  | cons i rest ih =>
    obtain ⟨here, others⟩ := List.forall_mem_cons.mp off
    rw [List.cons_append, accessedSlots, here, execCode]
    cases execInst M d i with
    | none => rfl
    | some d' => exact ih others d'

theorem accessedSlots_access {access : Inst} {write : List Inst} {idx : Value} {v : APInt}
    {d : Data M.widths W} (here : access.stackIndex? = some idx) (value : evalInt d.env idx = some v)
    (off : OffStack write) : accessedSlots M (access :: write) d = [v] := by
  rw [accessedSlots, here, Option.bind_some, value]
  cases execInst M d access with
  | none => rfl
  | some d' => simp [accessedSlots_offStack off d']

/-- What a stack access emits: it computes one index from the stack pointer and
accesses the stack there. -/
theorem stackAccess_slots (widths : M.widths = cx.stats.widths)
    (done : generateLoadStoreFromStack cx s minst st = .ok st') :
    ∃ spReg sp rclass code, cx.stackPointer? = some spReg ∧ cx.rmap.find spReg = some sp ∧
      cx.stats.getRegisterClassFor spReg = some rclass ∧
      st'.blocks st.cur = st.blocks st.cur ++ code ∧
      (∃ i ∈ code, (i.stackIndex?).isSome = true) ∧
      ∀ d : Data M.widths W, accessedSlots M code d = if M.widths sp.cls = 64 then
        [⟨_, d.locals sp + (BitVec.ofInt 64 (slotOffset minst (rclass.bitsize / 8))).setWidth _⟩]
        else [] := by
  obtain ⟨spReg, sp, rclass, write, named, found, classed, written, paths⟩ :=
    generateLoadStoreFromStack_ok done
  have full := width_of_find widths found classed
  obtain ⟨loads, access, code, index, off, reads⟩ : ∃ loads access,
      st'.blocks st.cur = st.blocks st.cur ++
        (stackIndexCode s sp rclass minst ++ (loads ++ access :: write)) ∧
      access.stackIndex? = some (.ssa (.index s.block s.idx)) ∧ OffStack loads ∧
      ∀ d : Data M.widths W, ∃ d', execCode M loads d = some d' ∧
        d'.env (.index s.block s.idx) = d.env (.index s.block s.idx) := by
    obtain ⟨-, -, f, -, rfl⟩ | ⟨-, op, a, o, load, value, -, operand, rfl⟩ := paths
    · exact ⟨[], .load (.result s.block s.idx) f.ret (.stack (.ssa (.index s.block s.idx))),
        by simp, rfl, by simp [OffStack], fun d => ⟨d, rfl, rfl⟩⟩
    · refine ⟨if st.cur = s.label then load else [],
        .store value (.stack (.ssa (.index s.block s.idx))), by simp, rfl, ?_, fun d => ?_⟩
      · split_ifs
        · intro i member
          obtain ⟨_, _, _, -, -, -, rfl⟩ := operandToValue_loads operand i member
          rfl
        · simp [OffStack]
      · split_ifs
        · obtain ⟨d', run, -, -, values, -⟩ := exec_operandLoad widths operand d
          exact ⟨d', run, values _ (by simp)⟩
        · exact ⟨d, rfl, rfl⟩
  refine ⟨spReg, sp, rclass, _, named, found, classed, code, ⟨access, by simp, by simp [index]⟩,
    fun d => ?_⟩
  have computed : OffStack (stackIndexCode s sp rclass minst) :=
    .cons rfl (.cons rfl (by simp [OffStack]))
  rw [accessedSlots_append computed, exec_stackIndexCode s minst full]
  split_ifs with wide
  · obtain ⟨d', run, same⟩ := reads ((d.bind (.sp s.block s.idx) (.int ⟨_, d.locals sp⟩)).bind
      (.index s.block s.idx) (.int ⟨_, d.locals sp +
        (BitVec.ofInt 64 (slotOffset minst (rclass.bitsize / 8))).setWidth _⟩))
    simp only [accessedSlots_append off, run]
    refine accessedSlots_access index ?_ (offStack_storeResult written)
    simp [evalInt, evalValue, same, Data.bind]
  · rfl

end Bleach
