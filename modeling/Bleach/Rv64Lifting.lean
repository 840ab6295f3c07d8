import Bleach.Mctomir.Aliases
import Bleach.Rv64Target

/-! A function of integer instructions on the architecture and lifted: both tools keep what it
does, except where it divides by zero or overflows in a division. Its memory are the sections. -/
namespace Rv64
open Bleach Mctomir Transition
open Templates (Mapped hostMemory inSection)
open ByteMemory (Memory)
variable {w : Nat → Nat} {table : List BleachSection} {others : List (Instruction World)}
  {classes : List RegisterClass} {mia : MCInstrAnalysis} {opcodes : Nat → InstrDesc} {code : Mnemonic → Nat}

/-- The local variables hold the registers; those of other classes are as at the start. -/
structure Mirrors (stats : RegisterStats) (regs₀ : Locals w) (x : Registers) (regs : Locals w) : Prop where
  held : ∀ r : Reg, registerValue stats regs r = some ⟨64, x.val r⟩
  kept : ∀ r, 32 ≤ r → registerValue stats regs r = registerValue stats regs₀ r

/-- Only the register itself lives in its variable. -/
theorem only_register {r : Register} {rd : Reg}
    (found : (registerMap (gpr :: classes)).find r = some ⟨0, rd⟩) : r = rd := by
  obtain ⟨⟨rclass, cls⟩, listed, bound⟩ := List.mem_flatMap.mp (binding_of_find found)
  obtain ⟨rfl, -⟩ := mem_classBindings bound
  obtain rfl : gpr = rclass := Option.some.inj (List.mem_zipIdx_iff_getElem?.mp listed)
  obtain ⟨e, inside, mapped⟩ := List.mem_flatMap.mp bound
  obtain ⟨r', member, same⟩ := List.mem_map.mp mapped
  obtain ⟨key, -, rfl⟩ := List.mem_map.mp inside
  obtain rfl := List.mem_singleton.mp member
  calc r = r' := (congrArg Prod.fst same).symm
    _ = rd := congrArg (fun bound => bound.2.reg) same

/-- What registers hold behind a write to a variable. -/
theorem registerValue_update {stats : RegisterStats} {regs : Locals w} {c : Cell} (v : BitVec (w c.cls))
    (r : Register) : registerValue stats (Function.update regs c v) r =
      if (registerMap stats).find r = some c then some ⟨w c.cls, v⟩ else registerValue stats regs r := by
  unfold registerValue
  split
  · next found => simp [found]
  · next other =>
    cases found : (registerMap stats).find r with
    | none => rfl
    | some c' =>
      have apart : c' ≠ c := fun same => other (same ▸ found)
      simp [Function.update_of_ne apart]

theorem writtenValue_eq (rd : Reg) (v : Word) :
    writtenValue (context table others classes) rd ⟨64, v⟩ 64 = if rd = 0 then 0 else v := by
  by_cases zero : rd = 0
  · subst zero
    rfl
  · have other : (rd : Register) ≠ 0 := fun same => zero (Fin.ext same)
    have varying : (context table others classes).instrs.constReg? target rd = none := constReg?_of_ne other
    have target : (context table others classes).tm = Rv64.target := rfl
    simp [writtenValue, target, varying, zero]

theorem Mirrors.write (disjoint : (context table others classes).stats.Disjoint)
    (widths : w = (context table others classes).stats.widths) {regs₀ regs : Locals w} {x : Registers}
    (same : Mirrors (gpr :: classes) regs₀ x regs) (rd : Reg) (v : Word) :
    Mirrors (gpr :: classes) regs₀ (x.set rd v)
      (writeRegister (context table others classes) regs rd ⟨64, v⟩) := by
  subst widths
  have found : ∀ r : Reg, (registerMap (gpr :: classes)).find r = some ⟨0, r⟩ := disjoint_head disjoint
  have here : (context table others classes).rmap.find rd = some ⟨0, rd⟩ := found rd
  have written : writtenValue (context table others classes) rd ⟨64, v⟩ 64 = if rd = 0 then 0 else v :=
    writtenValue_eq rd v
  rw [writeRegister, here]
  constructor
  · intro r
    rw [registerValue_update, found]
    by_cases at_rd : r = rd
    · subst at_rd
      rw [if_pos rfl, Registers.set_val]
      refine congrArg some (congrArg (APInt.mk 64) (written.trans ?_))
      by_cases zero : r = 0
      · simp [zero, x.zero]
      · simp [zero]
    · have other : (r : Register) ≠ rd := fun same => at_rd (Fin.ext same)
      rw [if_neg (by simp [other]), same.held, Registers.set_val]
      simp [at_rd]
  · intro r outside
    rw [registerValue_update, if_neg, same.kept r outside]
    intro inside
    rw [only_register inside] at outside
    exact absurd rd.isLt (Nat.not_lt.mpr outside)

theorem value_reg {regs₀ regs : Locals w}
    {x : Registers} (same : Mirrors (gpr :: classes) regs₀ x regs) (r : Reg) :
    (MCOperand.reg r).value (context table others classes) regs = some ⟨64, x.val r⟩ := by
  by_cases zero : r = 0
  · subst zero
    rw [x.zero]
    rfl
  · have other : (r : Register) ≠ 0 := fun same => zero (Fin.ext same)
    have varying : (context table others classes).instrs.constReg? target r = none := constReg?_of_ne other
    have machine : (context table others classes).tm = Rv64.target := rfl
    rw [MCOperand.value, MCOperand.toUse, argumentValue, machine, varying]
    exact same.held r

theorem value_imm {cx : Context World} {regs : Locals w} (v : Int) :
    (MCOperand.imm v).value cx regs = some ⟨64, .ofInt 64 v⟩ := rfl

/-- What a function of two values gives. -/
theorem result_binary {cx : Context World} {inst : MCInst} {inputs : List MCOperand} {regs : Locals w}
    {world : World} {ret : Nat} {template : Word → Word → Option (BitVec ret)} {a b : Word}
    (function : cx.instrs.getFunction (opcodes inst.opcode).name = some (binary template))
    (values : inputs.mapM (MCOperand.value cx regs) = some [⟨64, a⟩, ⟨64, b⟩]) :
    inst.result cx opcodes inputs regs world = (template a b).map fun v => (⟨ret, v⟩, world) := by
  rw [MCInst.result, function]
  simp only [Option.bind_eq_bind, Option.bind_some, values, binary, BitVec.setWidth_eq]
  cases template a b <;> rfl

/-- Inside a section the function of a load gives what the architecture loads. -/
theorem result_load {cx : Context World} {inst : MCInst} {inputs : List MCOperand} {regs : Locals w}
    {outside mem : World} {op : LoadOp} {a v : Word} (mapped : Mapped table)
    (inside : inSection table (a + v) op.size = true)
    (function : cx.instrs.getFunction (opcodes inst.opcode).name = some (op.function table))
    (values : inputs.mapM (MCOperand.value cx regs) = some [⟨64, a⟩, ⟨64, v⟩]) :
    inst.result cx opcodes inputs regs (hostMemory table outside mem) =
      some (⟨64, op.value mem (a + v)⟩, hostMemory table outside mem) := by
  have sizes : op.template.size = op.size := by cases op <;> rfl
  have loaded : op.template.loaded mem (a + v) = .int 64 (op.value mem (a + v)) := by cases op <;> rfl
  have hosted := @Templates.load_hosted table a v outside mem mapped op.template (by rw [sizes]; exact inside)
  rw [loaded] at hosted
  rw [MCInst.result, function]
  simp only [Option.bind_eq_bind, Option.bind_some, values, LoadOp.function, BitVec.setWidth_eq, hosted]

/-- Inside a section the function of a store writes what the architecture writes. -/
theorem result_store {cx : Context World} {inst : MCInst} {inputs : List MCOperand} {regs : Locals w}
    {outside mem : World} {op : StoreOp} {a v value : Word} (mapped : Mapped table)
    (inside : inSection table (a + v) op.size = true)
    (function : cx.instrs.getFunction (opcodes inst.opcode).name = some (op.function table))
    (values : inputs.mapM (MCOperand.value cx regs) = some [⟨64, value⟩, ⟨64, a⟩, ⟨64, v⟩]) :
    inst.result cx opcodes inputs regs (hostMemory table outside mem) =
      some (⟨0, 0⟩, hostMemory table outside (op.write mem (a + v) value)) := by
  have sizes : op.template.size = op.size := by cases op <;> rfl
  have after : op.template.after mem value (a + v) = op.write mem (a + v) value := by cases op <;> rfl
  have hosted := @Templates.store_hosted table a v value outside mem mapped op.template
    (by rw [sizes]; exact inside)
  rw [after] at hosted
  rw [MCInst.result, function]
  simp only [Option.bind_eq_bind, Option.bind_some, values, StoreOp.function, BitVec.setWidth_eq, hosted]

/-- Both machines are in front of one address or behind a return, with the same registers and the
memory of the one in the sections of the other. -/
inductive SameMachine (table : List BleachSection) (stats : RegisterStats) (regs₀ : Locals w)
    (outside : World) : State → CodeState w World → Prop where
  | running {pc x regs mem} (same : Mirrors stats regs₀ x regs) :
      SameMachine table stats regs₀ outside ⟨.running pc, x, mem⟩
        ⟨some pc, regs, hostMemory table outside mem⟩
  | returned {target x regs mem} (same : Mirrors stats regs₀ x regs) :
      SameMachine table stats regs₀ outside ⟨.returned target, x, mem⟩
        ⟨none, regs, hostMemory table outside mem⟩

section
variable {fetch : Fetch} {fetch' : Mctomir.Fetch} {regs₀ regs : Locals w} {outside mem world : World}
  {x : Registers} {i : Instr} {addr next : Address}

theorem guarded_step (fetched : fetch addr = some (i, next)) :
    guarded (Defined fetch) (step fetch) ⟨.running addr, x, mem⟩ =
      if i.Divisible x then some (i.exec addr next x mem) else none := by
  have defined : Defined fetch ⟨.running addr, x, mem⟩ ↔ i.Divisible x := by simp [Defined, fetched]
  rw [guarded]
  simp only [defined, step, fetched, Option.map_some]

/-- The machine of the decoded code in front of an instruction that is no transfer. -/
theorem codeStep_straight (describes : Describes mia opcodes code) (defs uses : List MCOperand)
    {o : Option (APInt × World)} (numDefs : i.mnemonic.desc.numDefs = defs.length)
    (operands : i.operands = defs ++ uses) (straight : i.disp? = none) (falls : i ≠ .ret)
    (fetched : fetch' addr = some (i.toMCInst code, next))
    (result : (i.toMCInst code).result (context table others classes) opcodes uses regs world = o) :
    codeStep (context table others classes) mia opcodes fetch' ⟨some addr, regs, world⟩ =
      o.map fun (v, world) => ⟨some next, (defs.filterMap MCOperand.reg?).foldl
        (fun regs r => writeRegister (context table others classes) regs r v) regs, world⟩ := by
  have defs' : (i.toMCInst code).defs mia = defs := by
    rw [MCInst.defs, Instr.toMCInst, describes.numDefs, numDefs, operands, List.take_left]
  have uses' : (i.toMCInst code).uses mia = uses := by
    rw [MCInst.uses, Instr.toMCInst, describes.numDefs, numDefs, operands, List.drop_left]
  have returns : mia.isReturn (i.toMCInst code) = false := by simp [describes.isReturn, falls]
  have branches : mia.isBranch (i.toMCInst code) = false := by simp [describes.isBranch, straight]
  rw [codeStep_generic (t := ⟨addr, i.toMCInst code⟩) fetched returns branches, uses', result]
  simp only [MCInst.write, defs']

/-- The machine of the decoded code in front of an instruction, its registers those of the
architecture. -/
structure FrontOf (mia : MCInstrAnalysis) (opcodes : Nat → InstrDesc) (code : Mnemonic → Nat)
    (others : List (Instruction World)) (table : List BleachSection) (classes : List RegisterClass)
    (fetch' : Mctomir.Fetch) (addr next : Address) (regs₀ regs : Locals w) (x : Registers) (i : Instr) :
    Prop where
  describes : Describes mia opcodes code
  disjoint : (context table others classes).stats.Disjoint
  widths : w = (context table others classes).stats.widths
  same : Mirrors (gpr :: classes) regs₀ x regs
  fetched : fetch' addr = some (i.toMCInst code, next)

/-- The architecture executes an instruction it may, and the code its template, both from a state in
which they have the same memory. -/
def SameStep (mia : MCInstrAnalysis) (opcodes : Nat → InstrDesc) (others : List (Instruction World))
    (table : List BleachSection) (classes : List RegisterClass) (fetch' : Mctomir.Fetch)
    (addr next : Address) (regs₀ regs : Locals w) (x : Registers) (outside mem : World) (i : Instr) : Prop :=
  Option.Rel (SameMachine table (gpr :: classes) regs₀ outside)
    (if i.Divisible x then some (i.exec addr next x mem) else none)
    (codeStep (context table others classes) mia opcodes fetch' ⟨some addr, regs, hostMemory table outside mem⟩)

namespace FrontOf

theorem value (front : FrontOf mia opcodes code others table classes fetch' addr next regs₀ regs x i)
    (r : Reg) : (MCOperand.reg r).value (context table others classes) regs = some ⟨64, x.val r⟩ :=
  value_reg front.same r

theorem written (front : FrontOf mia opcodes code others table classes fetch' addr next regs₀ regs x i)
    (rd : Reg) (v : Word) : SameMachine table (gpr :: classes) regs₀ outside ⟨.running next, x.set rd v, mem⟩
      ⟨some next, writeRegister (context table others classes) regs rd ⟨64, v⟩,
        hostMemory table outside mem⟩ :=
  .running (front.same.write front.disjoint front.widths rd v)

variable {rd a b : Reg} {v disp : Int}

theorem arith {op : RegOp}
    (front : FrontOf mia opcodes code others table classes fetch' addr next regs₀ regs x (.arith op rd a b)) :
    SameStep mia opcodes others table classes fetch' addr next regs₀ regs x outside mem (.arith op rd a b) := by
  have values : [MCOperand.reg a, .reg b].mapM (MCOperand.value (context table others classes) regs) =
      some [⟨64, x.val a⟩, ⟨64, x.val b⟩] := by simp [front.value]
  have function : (context table others classes).instrs.getFunction
      (opcodes ((Instr.arith op rd a b).toMCInst code).opcode).name = some (binary op.template) := by
    rw [Instr.toMCInst, front.describes.desc]
    exact getFunction_reg op
  rw [SameStep, codeStep_straight front.describes [.reg rd] [.reg a, .reg b] rfl rfl rfl (by simp)
    front.fetched (result_binary function values), op.template_eq]
  by_cases divides : op.Divisible (x.val a) (x.val b)
  · have divisible : (Instr.arith op rd a b).Divisible x := divides
    rw [if_pos divides, if_pos divisible]
    exact .some (front.written rd _)
  · have undivisible : ¬(Instr.arith op rd a b).Divisible x := divides
    rw [if_neg divides, if_neg undivisible]
    exact .none

theorem arithImm {op : ImmOp} (valid : op.Immediate v)
    (front : FrontOf mia opcodes code others table classes fetch' addr next regs₀ regs x (.arithImm op rd a v)) :
    SameStep mia opcodes others table classes fetch' addr next regs₀ regs x outside mem
      (.arithImm op rd a v) := by
  have divisible : (Instr.arithImm op rd a v).Divisible x := trivial
  have values : [MCOperand.reg a, .imm v].mapM (MCOperand.value (context table others classes) regs) =
      some [⟨64, x.val a⟩, ⟨64, .ofInt 64 v⟩] := by simp [front.value, value_imm]
  have function : (context table others classes).instrs.getFunction
      (opcodes ((Instr.arithImm op rd a v).toMCInst code).opcode).name = some (binary op.template) := by
    rw [Instr.toMCInst, front.describes.desc]
    exact getFunction_imm op
  rw [SameStep, codeStep_straight front.describes [.reg rd] [.reg a, .imm v] rfl rfl rfl (by simp)
    front.fetched (result_binary function values), ImmOp.template_eq valid, if_pos divisible]
  exact .some (front.written rd _)

theorem lui (valid : (Instr.lui rd v).Valid)
    (front : FrontOf mia opcodes code others table classes fetch' addr next regs₀ regs x (.lui rd v)) :
    SameStep mia opcodes others table classes fetch' addr next regs₀ regs x outside mem (.lui rd v) := by
  have divisible : (Instr.lui rd v).Divisible x := trivial
  have function : (context table others classes).instrs.getFunction
      (opcodes ((Instr.lui rd v).toMCInst code).opcode).name = some upper := by
    rw [Instr.toMCInst, front.describes.desc]
    rfl
  have values : [MCOperand.imm v].mapM (MCOperand.value (context table others classes) regs) =
      some [⟨64, .ofInt 64 v⟩] := rfl
  have result : ((Instr.lui rd v).toMCInst code).result (context table others classes) opcodes [.imm v] regs
      (hostMemory table outside mem) = some (⟨64, upperValue v⟩, hostMemory table outside mem) := by
    rw [MCInst.result, function]
    simp only [Option.bind_eq_bind, Option.bind_some, values, upper, BitVec.setWidth_eq,
      LUI_eq_upperValue valid.1 valid.2]
    rfl
  rw [SameStep, codeStep_straight front.describes [.reg rd] [.imm v] rfl rfl rfl (by simp) front.fetched
    result, if_pos divisible]
  exact .some (front.written rd _)

theorem load {op : LoadOp} (mapped : Mapped table)
    (accesses : (Instr.load op rd a v).Accesses (inSection table) x)
    (front : FrontOf mia opcodes code others table classes fetch' addr next regs₀ regs x (.load op rd a v)) :
    SameStep mia opcodes others table classes fetch' addr next regs₀ regs x outside mem
      (.load op rd a v) := by
  have divisible : (Instr.load op rd a v).Divisible x := trivial
  have values : [MCOperand.reg a, .imm v].mapM (MCOperand.value (context table others classes) regs) =
      some [⟨64, x.val a⟩, ⟨64, .ofInt 64 v⟩] := by simp [front.value, value_imm]
  have function : (context table others classes).instrs.getFunction
      (opcodes ((Instr.load op rd a v).toMCInst code).opcode).name = some (op.function table) := by
    rw [Instr.toMCInst, front.describes.desc]
    exact getFunction_load op
  rw [SameStep, codeStep_straight front.describes [.reg rd] [.reg a, .imm v] rfl rfl rfl (by simp)
    front.fetched (result_load mapped accesses function values), if_pos divisible]
  exact .some (front.written rd _)

theorem store {op : StoreOp} (mapped : Mapped table)
    (accesses : (Instr.store op b a v).Accesses (inSection table) x)
    (front : FrontOf mia opcodes code others table classes fetch' addr next regs₀ regs x (.store op b a v)) :
    SameStep mia opcodes others table classes fetch' addr next regs₀ regs x outside mem
      (.store op b a v) := by
  have divisible : (Instr.store op b a v).Divisible x := trivial
  have values : [MCOperand.reg b, .reg a, .imm v].mapM (MCOperand.value (context table others classes) regs) =
      some [⟨64, x.val b⟩, ⟨64, x.val a⟩, ⟨64, .ofInt 64 v⟩] := by simp [front.value, value_imm]
  have function : (context table others classes).instrs.getFunction
      (opcodes ((Instr.store op b a v).toMCInst code).opcode).name = some (op.function table) := by
    rw [Instr.toMCInst, front.describes.desc]
    exact getFunction_store op
  rw [SameStep, codeStep_straight front.describes [] [.reg b, .reg a, .imm v] rfl rfl rfl (by simp)
    front.fetched (result_store mapped accesses function values), if_pos divisible]
  exact .some (.running front.same)

theorem branch {op : BranchOp}
    (front : FrontOf mia opcodes code others table classes fetch' addr next regs₀ regs x (.branch op a b disp)) :
    SameStep mia opcodes others table classes fetch' addr next regs₀ regs x outside mem
      (.branch op a b disp) := by
  have divisible : (Instr.branch op a b disp).Divisible x := trivial
  have inputs : (((Instr.branch op a b disp).toMCInst code).uses mia).dropLast = [.reg a, .reg b] := by
    rw [MCInst.uses, Instr.toMCInst, front.describes.numDefs]
    rfl
  have values : [MCOperand.reg a, .reg b].mapM (MCOperand.value (context table others classes) regs) =
      some [⟨64, x.val a⟩, ⟨64, x.val b⟩] := by simp [front.value]
  have function : (context table others classes).instrs.getFunction
      (opcodes ((Instr.branch op a b disp).toMCInst code).opcode).name = some (binary op.template) := by
    rw [Instr.toMCInst, front.describes.desc]
    exact getFunction_branch op
  rw [SameStep, codeStep_branch (t := ⟨addr, (Instr.branch op a b disp).toMCInst code⟩) front.fetched
    (by simp [front.describes.isReturn]) (by simp [front.describes.isBranch, Instr.disp?])
    (by simp [front.describes.isUnconditionalBranch, Instr.isJump])
    (front.describes.evaluateBranch _ _ _), inputs, result_binary function values, op.template_eq,
    if_pos divisible]
  have one : ∀ c, (BitVec.ofBool c).toNat = 1 ↔ c = true := by decide
  refine .some ?_
  simp only [one]
  exact .running front.same

theorem jump
    (front : FrontOf mia opcodes code others table classes fetch' addr next regs₀ regs x (.jump disp)) :
    SameStep mia opcodes others table classes fetch' addr next regs₀ regs x outside mem (.jump disp) := by
  have divisible : (Instr.jump disp).Divisible x := trivial
  rw [SameStep, codeStep_jump (t := ⟨addr, (Instr.jump disp).toMCInst code⟩) front.fetched
    (by simp [front.describes.isReturn]) (by simp [front.describes.isBranch, Instr.disp?])
    (by simp [front.describes.isUnconditionalBranch, Instr.isJump]) (front.describes.evaluateBranch _ _ _),
    if_pos divisible]
  exact .some (.running front.same)

theorem ret (front : FrontOf mia opcodes code others table classes fetch' addr next regs₀ regs x .ret) :
    SameStep mia opcodes others table classes fetch' addr next regs₀ regs x outside mem .ret := by
  have divisible : Instr.ret.Divisible x := trivial
  rw [SameStep, codeStep_ret (t := ⟨addr, Instr.ret.toMCInst code⟩) front.fetched
    (by simp [front.describes.isReturn]), if_pos divisible]
  exact .some (.returned front.same)

end FrontOf

/-- One instruction does on the architecture what its template does. -/
theorem step_same (mapped : Mapped table) (valid : i.Valid) (accesses : i.Accesses (inSection table) x)
    (front : FrontOf mia opcodes code others table classes fetch' addr next regs₀ regs x i) :
    SameStep mia opcodes others table classes fetch' addr next regs₀ regs x outside mem i := by
  cases i with
  | arith => exact front.arith
  | arithImm => exact front.arithImm valid
  | lui => exact front.lui valid
  | load => exact front.load mapped accesses
  | store => exact front.store mapped accesses
  | branch => exact front.branch
  | jump => exact front.jump
  | ret => exact front.ret

end

def State.view (table : List BleachSection) (stats : RegisterStats) (regs₀ : Locals w) (outside : World)
    (s : State) : View World where
  returned :=
    match s.place with
    | .running _ => false
    | .returned _ => true
  registers r :=
    if inside : r < 32 then some ⟨64, s.x.val ⟨r, inside⟩⟩ else registerValue stats regs₀ r
  world := hostMemory table outside s.mem

theorem SameMachine.view_eq {stats : RegisterStats} {regs₀ : Locals w} {outside : World} {s : State}
    {c : CodeState w World} (same : SameMachine table stats regs₀ outside s c) :
    s.view table stats regs₀ outside = c.view stats := by
  have registers : ∀ (x : Registers) (regs : Locals w), Mirrors stats regs₀ x regs → ∀ r : Register,
      (if inside : r < 32 then some ⟨64, x.val ⟨r, inside⟩⟩ else registerValue stats regs₀ r) =
        registerValue stats regs r := by
    intro x regs mirrors r
    split
    · next inside => exact (mirrors.held ⟨r, inside⟩).symm
    · next outside => exact (mirrors.kept r (Nat.not_lt.mp outside)).symm
  cases same with
  | running mirrors => exact congrArg (View.mk false · _) (funext (registers _ _ mirrors))
  | returned mirrors => exact congrArg (View.mk true · _) (funext (registers _ _ mirrors))

variable {funcs : List DecodedFunction} {k : FuncId} {d : DecodedFunction} {func : TranslatedFunction}
  {fetch : Fetch} {fetch' : Mctomir.Fetch}

/-- The architecture and the translated function run in lockstep. -/
theorem function_lockstep (describes : Describes mia opcodes code) (noJump : ∀ i ∈ others, i.name ≠ "C_J")
    (mapped : Mapped table) (disjoint : (context table others classes).stats.Disjoint)
    (widths : w = (context table others classes).stats.widths) (plain : PlainCode mia displacement funcs)
    (member : d ∈ funcs) (integer : IntegerCode code d.insts)
    (trans : Translated mia opcodes displacement d func) (laid : LaidOut fetch' d.insts)
    (decodes : Decodes code fetch fetch' d.insts) (regs₀ : Locals w) (outside : World) :
    Lockstep (guarded (Defined fetch) (step fetch))
      (guestStep (context table others classes) (func.toMachine opcodes)) fun s g =>
        ∃ c, (Always (Confined (inSection table) fetch) (guarded (Defined fetch) (step fetch)) s ∧
          SameMachine table (gpr :: classes) regs₀ outside s c) ∧ Corresponds func c g := by
  have liftable : LiftableCode (context table others classes) mia opcodes displacement 2 d.insts :=
    liftableCode describes noJump disjoint integer
  refine Lockstep.under (fun s c g here related => here.1.rel ?_)
    (translation_lockstep plain member liftable trans laid)
  obtain ⟨always, same⟩ := here
  cases related with
  | inside at_block here =>
    rename_i t _ _
    have inside := trans.inside at_block here
    obtain ⟨next, fetched'⟩ := laid.fetched t inside
    obtain ⟨i, decoded, valid, -⟩ := integer.instr t inside
    have fetched := decodes t inside i decoded next fetched'
    cases same with
    | running mirrors =>
      have confined := always.now
      have accesses := by simpa [Confined, fetched] using confined
      rw [guarded_step fetched]
      exact step_same mapped valid accesses ⟨describes, disjoint, widths, mirrors, decoded ▸ fetched'⟩
  | returned =>
    cases same with
    | returned mirrors => exact .none

/-- A function of integer instructions that accesses nothing but the sections keeps on its way from
its bytes to its lifted body what it does on the architecture: it passes through the same
registers and memory, returns where the function returns, and stops nowhere but where the
function stops or divides as it may not. -/
theorem integer_function_runs {dis : MCDisassembler} {order : StartSort} {n : Nat} {sec : Section}
    {symbols : List Symbol} {tr : Translation} {addrs : FuncId → FunctionAddresses}
    {finfo : Option FileInfo} {stackSize : Nat} {liftedPrefix : String} {M : IRModule World}
    (describes : Describes mia opcodes code) (noJump : ∀ i ∈ others, i.name ≠ "C_J") (mapped : Mapped table)
    (disjoint : (context table others classes).stats.Disjoint)
    (disassembled : processDisassembly dis order n sec symbols = .ok funcs)
    (done : finalize mia funcs = .ok tr) (found : funcs[k]? = some d) (legal : Legal dis n sec d)
    (plain : PlainCode mia displacement funcs) (integer : IntegerCode code d.insts)
    (decodes : Decodes code fetch (sec.fetch dis) d.insts)
    (module : bleachModule (context table others classes) (tr.funcs.map (TranslatedFunction.toMachine opcodes))
      addrs finfo stackSize liftedPrefix = .ok M) :
    ∃ blocks, M.erased.body k = some blocks ∧
      ∀ (x : Registers) (mem : Memory Word) (regs : Locals M.widths) (shared : Shared M.widths World),
        Agrees (gpr :: classes) regs shared.slots →
        (∀ r : Reg, registerValue (gpr :: classes) regs r = some ⟨64, x.val r⟩) →
        hostMemory table shared.world mem = shared.world →
        Always (Confined (inSection table) fetch) (guarded (Defined fetch) (step fetch))
          ⟨.running d.start, x, mem⟩ →
          Runs (gpr :: classes) (guarded (Defined fetch) (step fetch))
            (State.view table (gpr :: classes) regs shared.world) M.erased ⟨.running d.start, x, mem⟩
            ⟨[M.erased.entryFrame k blocks], shared⟩ := by
  have liftable : LiftableCode (context table others classes) mia opcodes displacement 2 d.insts :=
    liftableCode describes noJump disjoint integer
  obtain ⟨-, all⟩ := finalize_ok done
  obtain ⟨func, at_k, result⟩ := all k d found
  have member := List.mem_of_getElem? found
  have trans : Translated mia opcodes displacement d func := result.translated plain found liftable.noCalls
  obtain ⟨laid, start⟩ := processDisassembly_laidOut disassembled member legal
  obtain ⟨first, head⟩ : ∃ first, d.insts.head? = some first :=
    ⟨_, List.head?_eq_some_head integer.nonempty⟩
  obtain ⟨mfs, adds, fin, at_k', host⟩ := hosted_of_translated at_k trans liftable disjoint module
  refine ⟨_, IRModule.body_erased_of host.body, fun x mem regs shared agrees holds keeps always => ?_⟩
  let R (s : State) (g : Guest M.widths World) : Prop :=
    ∃ c, (Always (Confined (inSection table) fetch) (guarded (Defined fetch) (step fetch)) s ∧
      SameMachine table (gpr :: classes) regs shared.world s c) ∧ Corresponds func c g
  have same : Lockstep (guarded (Defined fetch) (step fetch))
      (guestStep (context table others classes)
        ((func.toMachine opcodes).plainReturns (context table others classes))) R := by
    intro s g related
    rw [guestStep_plainReturns]
    exact function_lockstep describes noJump mapped disjoint host.lifted.widths plain member integer trans laid
      decodes regs shared.world s g related
  refine (host.runs at_k' same ?_ agrees ?_).erased
  · rintro s g ⟨c, ⟨-, same⟩, related⟩
    exact same.view_eq.trans related.view_eq
  · rw [← start first head] at always ⊢
    have same : SameMachine table (gpr :: classes) regs shared.world ⟨.running first.address, x, mem⟩
        ⟨some first.address, regs, hostMemory table shared.world mem⟩ := .running ⟨holds, fun _ _ => rfl⟩
    rw [keeps] at same
    exact ⟨_, ⟨always, same⟩, trans.starts head regs shared.world⟩

/-- The opcodes, numbered in this order. -/
def opcodeTable : List Mnemonic := Mnemonic.all ++ [.C_J]

def numbering (m : Mnemonic) : Nat := opcodeTable.idxOf m

def rv64Opcodes (opcode : Nat) : InstrDesc :=
  ((opcodeTable[opcode]?).map Mnemonic.desc).getD { name := "", numDefs := 0 }

theorem opcodeTable_numbering (m : Mnemonic) : opcodeTable[numbering m]? = some m := by
  have all : m ∈ opcodeTable := by
    cases m with
    | reg op => cases op <;> decide
    | imm op => cases op <;> decide
    | load op => cases op <;> decide
    | store op => cases op <;> decide
    | branch op => cases op <;> decide
    | LUI | C_J | JALR => decide
  exact List.getElem?_idxOf all

def rv64Target : MCInstrAnalysis where
  isBranch inst := (rv64Opcodes inst.opcode).isBranch
  isUnconditionalBranch inst := (rv64Opcodes inst.opcode).isBranch && (rv64Opcodes inst.opcode).isBarrier
  isCall inst := opcodeTable[inst.opcode]? == some .JALR && inst.operands.head? != some (.reg 0)
  isReturn inst := opcodeTable[inst.opcode]? == some .JALR && inst.operands.take 2 == [.reg 0, .reg 1]
  evaluateBranch inst addr _ :=
    if (rv64Opcodes inst.opcode).isBranch then some (addr + displacement inst) else none
  get opcode := ⟨(rv64Opcodes opcode).numDefs, 3⟩

/-- A branch goes as far as its displacement says. -/
theorem rv64Target_evaluated {inst : MCInst} {addr target : Address} {size : BitVec 64}
    (evaluated : rv64Target.evaluateBranch inst addr size = some target) :
    target = addr + displacement inst ∧ rv64Target.isBranch inst = true := by
  simp only [rv64Target] at evaluated
  split at evaluated
  · next branch =>
    cases evaluated
    exact ⟨rfl, branch⟩
  · cases evaluated

theorem rv64Target_describes : Describes rv64Target rv64Opcodes numbering := by
  have desc : ∀ m, rv64Opcodes (numbering m) = m.desc := by
    intro m
    rw [rv64Opcodes, opcodeTable_numbering]
    rfl
  refine ⟨desc, fun m => congrArg InstrDesc.numDefs (desc m), ?_, ?_, ?_, ?_, ?_⟩
  · intro i
    simp only [rv64Target, Instr.toMCInst, desc]
    cases i <;> rfl
  · intro i
    simp only [rv64Target, Instr.toMCInst, desc]
    cases i <;> rfl
  · intro i
    simp only [rv64Target, Instr.toMCInst, opcodeTable_numbering]
    cases i <;> rfl
  · intro i
    simp only [rv64Target, Instr.toMCInst, opcodeTable_numbering]
    cases i <;> simp [Instr.mnemonic, Instr.operands]
  · intro i addr size
    simp only [rv64Target, Instr.toMCInst, desc]
    cases i <;> rfl

/-- The words the disassembler knows. -/
def decodeWord : BitVec 32 → Option Instr
  | 0x00000593 => some (.arithImm .ADDI 11 0 0)
  | 0x00053603 => some (.load .LD 12 10 0)
  | 0x00C585B3 => some (.arith .ADD 11 11 12)
  | 0x00850513 => some (.arithImm .ADDI 10 10 8)
  | 0xFFF68693 => some (.arithImm .ADDI 13 13 (-1))
  | 0xFE0698E3 => some (.branch .BNE 13 0 (-16))
  | 0x00B53023 => some (.store .SD 11 10 0)
  | 0x00008067 => some .ret
  | _ => none

def decodeBytes : List (BitVec 8) → Option Instr
  | b₀ :: b₁ :: b₂ :: b₃ :: _ => decodeWord (b₃ ++ b₂ ++ b₁ ++ b₀)
  | _ => none

def rv64Disassembler : MCDisassembler where
  getInstruction bytes _ := (decodeBytes bytes).map fun i => (i.toMCInst numbering, 4)
  takes := by
    intro bytes addr inst size found
    obtain ⟨i, decoded, same⟩ := Option.map_eq_some_iff.mp found
    cases same
    unfold decodeBytes at decoded
    split at decoded
    · simp
    · cases decoded

/-- The sum of the `x13` doublewords from `x10` on, left in `x11` and behind them. -/
def sumSection : Section :=
  ⟨0x1000, [0x93, 0x05, 0x00, 0x00, 0x03, 0x36, 0x05, 0x00, 0xB3, 0x85, 0xC5, 0x00, 0x13, 0x05, 0x85, 0x00,
    0x93, 0x86, 0xF6, 0xFF, 0xE3, 0x98, 0x06, 0xFE, 0x23, 0x30, 0xB5, 0x00, 0x67, 0x80, 0x00, 0x00], by decide⟩

def sum : Symbol := ⟨some "sum", some .function, some 0x1000, 32, some 0⟩

def sumCode : List TranslatedInst :=
  [⟨0x1000, (Instr.arithImm .ADDI 11 0 0).toMCInst numbering⟩,
    ⟨0x1004, (Instr.load .LD 12 10 0).toMCInst numbering⟩,
    ⟨0x1008, (Instr.arith .ADD 11 11 12).toMCInst numbering⟩,
    ⟨0x100c, (Instr.arithImm .ADDI 10 10 8).toMCInst numbering⟩,
    ⟨0x1010, (Instr.arithImm .ADDI 13 13 (-1)).toMCInst numbering⟩,
    ⟨0x1014, (Instr.branch .BNE 13 0 (-16)).toMCInst numbering⟩,
    ⟨0x1018, (Instr.store .SD 11 10 0).toMCInst numbering⟩, ⟨0x101c, Instr.ret.toMCInst numbering⟩]

/-- What the machine fetches of the section. -/
def sumFetch : Fetch := fun addr =>
  if sumSection.address ≤ addr then
    (decodeBytes (sumSection.contents.drop (addr - sumSection.address).toNat)).map fun i => (i, addr + 4)
  else none

def sumFunction : DecodedFunction := ⟨"sum", 0x1000, 0x1020, sumCode⟩

theorem sum_disassembled :
    processDisassembly rv64Disassembler startSort 0 sumSection [sum] = .ok [sumFunction] := rfl

theorem toMCInst_injective : Function.Injective (Instr.toMCInst numbering) := by
  intro i j same
  obtain ⟨opcode, operands⟩ := MCInst.mk.inj same
  have mnemonic : i.mnemonic = j.mnemonic := by
    have found := opcodeTable_numbering j.mnemonic
    rw [← opcode, opcodeTable_numbering] at found
    exact Option.some.inj found
  clear same opcode
  cases i <;> cases j <;> simp_all [Instr.mnemonic, Instr.operands, Fin.val_inj]

theorem sum_fetch (addr : Address) : sumSection.fetch rv64Disassembler addr =
    (sumFetch addr).map fun (i, next) => (i.toMCInst numbering, next) := by
  unfold Section.fetch sumFetch rv64Disassembler
  split
  · simp only [Option.map_map]
    rfl
  · rfl

theorem sum_decodes : Decodes numbering sumFetch (sumSection.fetch rv64Disassembler) sumCode := by
  intro t _ i decoded next fetched
  rw [sum_fetch, decoded] at fetched
  have encodes := toMCInst_injective.prodMap (Function.injective_id (α := Word))
  exact Option.map_injective encodes fetched

theorem sum_legal : Legal rv64Disassembler 0 sumSection sumFunction := .of_decoded rfl

theorem sum_plain : PlainCode rv64Target displacement [sumFunction] where
  evaluated d member t inside addr size target evaluated := by
    obtain rfl := List.mem_singleton.mp member
    have transfers : ∀ t ∈ sumCode, rv64Target.isBranch t.inst = true →
        rv64Target.isReturn t.inst = false := by decide
    obtain ⟨at_target, branch⟩ := rv64Target_evaluated evaluated
    exact ⟨at_target, .inl branch, transfers t inside branch⟩
  direct d member t inside branch addr size := by
    simp only [rv64Target] at branch ⊢
    rw [branch]
    rfl
  apart := by decide
  closed := by decide
  sorted := by decide
  inside := by decide
  disjoint := by decide

theorem sum_integer : IntegerCode numbering sumCode where
  nonempty := by decide
  instr := by
    simp only [sumCode, List.forall_mem_cons]
    refine ⟨⟨_, rfl, ?_, ?_, ?_⟩, ⟨_, rfl, ?_, ?_, ?_⟩, ⟨_, rfl, ?_, ?_, ?_⟩, ⟨_, rfl, ?_, ?_, ?_⟩,
      ⟨_, rfl, ?_, ?_, ?_⟩, ⟨_, rfl, ?_, ?_, ?_⟩, ⟨_, rfl, ?_, ?_, ?_⟩, ⟨_, rfl, ?_, ?_, ?_⟩, by simp⟩
    all_goals decide
  ends := by
    rintro _ ⟨⟩ i decoded
    rw [← toMCInst_injective decoded]
    rfl

/-- The words are in a section. -/
def numbers : BleachSection := ⟨0x500000, 0x2000, 32⟩

def numbersMemory : Memory Word := fun a =>
  if a = 0x2000 then 1 else if a = 0x2008 then 2 else if a = 0x2010 then 3 else 0

theorem numbers_mapped : Mapped [numbers] := .single (by decide) (by decide) (by decide)

def arguments (r : Nat) : Word := if r = 10 then 0x2000 else if r = 13 then 3 else 0

/-- Registers that hold some values. -/
def holding (values : Nat → Word) (w : Nat → Nat) : Locals w := fun c => (values c.reg).setWidth _

/-- A register state that holds them, and some memory in the sections. -/
def holdingState (values : Nat → Word) (table : List BleachSection) (mem : Memory Word) (w : Nat → Nat) :
    Shared w World :=
  ⟨fun s => (values s.idx).setWidth _, fun _ => 0, [], hostMemory table (fun _ => 0) mem⟩

theorem holding_agrees (values : Nat → Word) (table : List BleachSection) (mem : Memory Word)
    (w : Nat → Nat) : Agrees [gpr] (holding values w) (holdingState values table mem w).slots := by
  have rank : ∀ t ∈ transfers [gpr], t.reg = t.idx := by decide
  intro t member
  simp [holding, holdingState, rank t member]

theorem holding_held (values : Nat → Word) (widths : w = (context table [] []).stats.widths) (r : Reg) :
    registerValue [gpr] (holding values w) r = some ⟨64, values r⟩ := by
  subst widths
  have disjoint : (context [] [] []).stats.Disjoint := by decide
  have found : (registerMap [gpr]).find r = some ⟨0, r⟩ := disjoint_head disjoint r
  rw [registerValue, found, Option.map_some]
  exact congrArg (fun v => some (APInt.mk 64 v)) (BitVec.setWidth_eq _)

abbrev sumState (w : Nat → Nat) : Shared w World := holdingState arguments [numbers] numbersMemory w

/-- Lifted from its bytes, `sum` returns the sum of three words and leaves it behind them. -/
theorem sum_returns : ∃ tr M blocks, finalize rv64Target [sumFunction] = .ok tr ∧
    bleachModule (context [numbers] [] []) (tr.funcs.map (TranslatedFunction.toMachine rv64Opcodes))
      (fun _ => none) none 64 "" = .ok M ∧ M.erased.body 0 = some blocks ∧
    ∃ c, Halts M.erased.step ⟨[M.erased.entryFrame 0 blocks], sumState M.widths⟩ c ∧ c.frames = [] ∧
      stateValue [gpr] c.shared.slots 11 = some ⟨64, 6⟩ ∧
      (ByteMemory.load c.shared.world 0x500018 8 : Word) = 6 := by
  obtain ⟨tr, done⟩ : ∃ tr, finalize rv64Target [sumFunction] = .ok tr := ⟨_, rfl⟩
  obtain ⟨M, module⟩ : ∃ M, bleachModule (context [numbers] [] [])
      (tr.funcs.map (TranslatedFunction.toMachine rv64Opcodes)) (fun _ => none) none 64 "" = .ok M := by
    cases done
    exact ⟨_, rfl⟩
  obtain ⟨_, _, -, lifted, -⟩ := lifted_of_bleachModule module
  have found : [sumFunction][0]? = some sumFunction := rfl
  obtain ⟨blocks, body, runs⟩ := integer_function_runs rv64Target_describes (by simp) numbers_mapped (by decide)
    sum_disassembled done found sum_legal sum_plain sum_integer sum_decodes module
  refine ⟨tr, M, blocks, done, module, body, ?_⟩
  let x : Registers := ⟨fun r => arguments r, rfl⟩
  let machine := guarded (Defined sumFetch) (step sumFetch)
  have ends : ((iterate machine 18 ⟨.running 0x1000, x, numbersMemory⟩).map
      fun s => (s.place, s.x.val 11, (ByteMemory.load s.mem 0x2018 8 : Word))) = some (.returned 0, 6, 6) := by
    decide
  obtain ⟨⟨_, y, mem⟩, path, same⟩ := Option.map_eq_some_iff.mp ends
  obtain ⟨rfl, value, stored⟩ : _ ∧ _ ∧ _ := by simpa using same
  have always : Always (Confined (inSection [numbers]) sumFetch) machine ⟨.running 0x1000, x, numbersMemory⟩ :=
    .of_run path rfl (by decide)
  have result := runs x numbersMemory (holding arguments M.widths) (sumState M.widths)
    (holding_agrees _ _ _ _) (holding_held arguments lifted.widths) (ByteMemory.kept_kept _ _ _ _) always
  obtain ⟨c, halts, ended⟩ := result.halts _ ⟨⟨18, path⟩, rfl⟩
  refine ⟨c, halts, ended.returned.mp rfl, (ended.registers rfl 11).trans ?_, ?_⟩
  · exact congrArg (fun v => some (APInt.mk 64 v)) value
  · have place : (Templates.piece numbers).place 0x2018 = 0x500018 := by decide
    have kept : ByteMemory.load (hostMemory [numbers] (sumState M.widths).world mem)
        ((Templates.piece numbers).place 0x2018) 8 = ByteMemory.load mem 0x2018 8 :=
      numbers_mapped.layout.load_kept (List.mem_singleton.mpr rfl) (by decide)
    rw [place] at kept
    have world : c.shared.world = hostMemory [numbers] (sumState M.widths).world mem := ended.world
    rw [world]
    exact kept.trans stored

end Rv64
