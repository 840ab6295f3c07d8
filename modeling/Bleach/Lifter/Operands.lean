import Bleach.Lifter.Chunk
import Bleach.Lifter.RegisterCopies

/-! The values of operands: what the loads in front of an instruction leave in its
arguments. -/
namespace Bleach
variable {W : Type} {cx : Context W} {M : IRModule W} {s : Site}

/-- The class of a register has the width of the register's variable. -/
theorem bitsize_of_find {r : Register} {c : Cell} {rclass : RegisterClass}
    (found : cx.rmap.find r = some c) (classed : cx.stats.getRegisterClassFor r = some rclass) :
    rclass.bitsize = cx.stats.widths c.cls := by
  obtain ⟨rclass', here, classed'⟩ := class_of_find found
  obtain rfl := Option.some.inj (classed.symm.trans classed')
  simp [RegisterStats.widths, here]

theorem width_of_find (widths : M.widths = cx.stats.widths) {r : Register} {c : Cell}
    {rclass : RegisterClass} (found : cx.rmap.find r = some c)
    (classed : cx.stats.getRegisterClassFor r = some rclass) : M.widths c.cls = rclass.bitsize :=
  (congrFun widths c.cls).trans (bitsize_of_find found classed).symm

theorem exec_loadCell {c : Cell} {width : Nat} (full : M.widths c.cls = width) (id : ValueId)
    (d : Data M.widths W) : execInst M d (.load id width (.cell c)) =
      some (d.bind id (.int ⟨M.widths c.cls, d.locals c⟩)) := by
  subst full
  simp [execInst, loadPtr]

/-- The value an instruction is given for an operand. -/
def argumentValue (cx : Context W) (locals : Locals w) : MachineOperand → Option APInt
  | .reg r _ _ =>
    match cx.instrs.constReg? cx.tm r with
    | some k => some (.ofInt 64 k.value)
    | none => registerValue cx.stats locals r
  | .imm v => some (.ofInt 64 v)
  | _ => none

/-- The load of an operand binds its own value and nothing else. -/
theorem exec_operandLoad (widths : M.widths = cx.stats.widths) {k : Nat} {op : MachineOperand}
    {load : List Inst} {val : Option Value}
    (done : operandToValue cx (.operand s.block s.idx k) op = .ok (load, val)) (d : Data M.widths W) :
    ∃ d', execCode M load d = some d' ∧ d'.locals = d.locals ∧ d'.shared = d.shared ∧
      (∀ id, id ≠ .operand s.block s.idx k → d'.env id = d.env id) ∧
      ∀ v ∈ val, (∀ id, v = .ssa id → id = .operand s.block s.idx k) ∧
        evalInt d'.env v = argumentValue cx d.locals op := by
  cases operandToValue_ok.mp done with
  | @register r isImplicit c rclass varying found classed =>
    refine ⟨d.bind _ (.int ⟨M.widths c.cls, d.locals c⟩), ?_, rfl, rfl,
      fun id other => Function.update_of_ne other .., ?_⟩
    · rw [execCode, exec_loadCell (width_of_find widths found classed)]
      rfl
    · rintro v ⟨⟩
      refine ⟨fun id same => (Value.ssa.inj same).symm, ?_⟩
      have bound : (registerMap cx.stats).find r = some c := found
      simp [evalInt, evalValue, Data.bind, argumentValue, varying, registerValue, bound]
  | implicitDef => exact ⟨d, rfl, rfl, rfl, fun _ _ => rfl, by simp⟩
  | constant found =>
    refine ⟨d, rfl, rfl, rfl, fun _ _ => rfl, ?_⟩
    rintro v ⟨⟩
    simp [evalInt, evalValue, argumentValue, found]
  | immediate =>
    refine ⟨d, rfl, rfl, rfl, fun _ _ => rfl, ?_⟩
    rintro v ⟨⟩
    simp [evalInt, evalValue, argumentValue]

/-- What the loads of some operands do. -/
structure Loaded (cx : Context W) (s : Site) (k : Nat) (ops : List MachineOperand)
    (vals : List (Option Value)) (d d' : Data w W) : Prop where
  locals : d'.locals = d.locals
  shared : d'.shared = d.shared
  others : ∀ id, (∀ n, k ≤ n → id ≠ .operand s.block s.idx n) → d'.env id = d.env id
  values : List.Forall₂ (fun op val => ∀ v ∈ val, (∀ n, v ≠ .ssa (.cast s.block s.idx n)) ∧
    evalInt d'.env v = argumentValue cx d.locals op) ops vals

theorem exec_operands (widths : M.widths = cx.stats.widths) {ops : List MachineOperand} {k : Nat}
    {loads : List Inst} {vals : List (Option Value)}
    (done : operandsToValues cx s ops k = .ok (loads, vals)) (d : Data M.widths W) :
    ∃ d', execCode M loads d = some d' ∧ Loaded cx s k ops vals d d' := by
  induction ops generalizing k loads vals d with
  | nil =>
    cases done
    exact ⟨d, rfl, rfl, rfl, fun _ _ => rfl, .nil⟩
  | cons op rest ih =>
    obtain ⟨⟨load, val⟩, first, done⟩ := bind_ok.mp done
    obtain ⟨⟨later, vals'⟩, others, done⟩ := bind_ok.mp done
    cases done
    obtain ⟨d₁, run, locals, shared, same, value⟩ := exec_operandLoad widths first d
    obtain ⟨d', run', loaded⟩ := ih others d₁
    refine ⟨d', ?_, loaded.locals.trans locals, loaded.shared.trans shared, ?_, .cons ?_ ?_⟩
    · rw [execCode_append, run, Option.bind_some, run']
    · intro id apart
      rw [loaded.others id fun n above => apart n (by omega), same id (apart k (Nat.le_refl k))]
    · intro v member
      obtain ⟨own, evaluates⟩ := value v member
      rw [← evaluates]
      cases v with
      | const c => exact ⟨by simp, rfl⟩
      | ssa id =>
        obtain rfl := own id rfl
        refine ⟨by simp, ?_⟩
        have kept := loaded.others (.operand s.block s.idx k) fun n above same => by
          cases same
          omega
        simp only [evalInt, evalValue, kept]
    · rw [← locals]
      exact loaded.values

/-- The arguments behind the loads have the values of the operands. -/
theorem Loaded.arguments {ops : List MachineOperand} {args : List Value} {d d' : Data w W}
    (loaded : Loaded cx s k ops (args.map some) d d') :
    args.map (evalInt d'.env) = ops.map (argumentValue cx d.locals) ∧
      ∀ v ∈ args, ∀ n, v ≠ .ssa (.cast s.block s.idx n) := by
  have values := loaded.values
  generalize d.locals = locals at values
  clear loaded
  induction args generalizing ops with
  | nil =>
    cases values
    exact ⟨rfl, by simp⟩
  | cons v rest ih =>
    cases values with
    | @cons op _ ops _ here later =>
      obtain ⟨own, value⟩ := here v rfl
      obtain ⟨values, others⟩ := ih later
      exact ⟨by rw [List.map_cons, List.map_cons, value, values],
        List.forall_mem_cons.mpr ⟨own, others⟩⟩

theorem mapM_of_map {α β : Type} {f : α → Option β} {l : List α} {xs : List β}
    (values : l.map f = xs.map some) : l.mapM f = some xs := by
  induction l generalizing xs with
  | nil =>
    obtain rfl : xs = [] := by simpa using values.symm
    rfl
  | cons a rest ih =>
    cases xs with
    | nil => cases values
    | cons x xs =>
      obtain ⟨here, later⟩ := List.cons.inj values
      simp [List.mapM_cons, here, ih later]

theorem zipWith_sextOrTrunc_width (vs : List APInt) :
    List.zipWith APInt.sextOrTrunc vs (vs.map APInt.width) = vs := by
  induction vs with
  | nil => rfl
  | cons v rest ih => rw [List.map_cons, List.zipWith_cons_cons, APInt.sextOrTrunc_self, ih]

/-- The casts give each argument the width of its parameter; arguments without one are dropped. -/
theorem exec_castArgs {args : List Value} {vs : List APInt} (tys : List Nat) (k : Nat) {d : Data M.widths W}
    (values : args.map (evalInt d.env) = vs.map some)
    (own : ∀ v ∈ args, ∀ n, v ≠ .ssa (.cast s.block s.idx n)) :
    ∃ d', execCode M (castArgs s args tys k).1 d = some d' ∧ d'.locals = d.locals ∧ d'.shared = d.shared ∧
      (∀ id, (∀ n, k ≤ n → id ≠ .cast s.block s.idx n) → d'.env id = d.env id) ∧
      (castArgs s args tys k).2.map (evalInt d'.env) =
        (List.zipWith APInt.sextOrTrunc vs tys).map some := by
  induction args generalizing vs tys k d with
  | nil =>
    obtain rfl : vs = [] := by simpa using values.symm
    exact ⟨d, rfl, rfl, rfl, fun _ _ => rfl, rfl⟩
  | cons v rest ih =>
    cases vs with
    | nil => cases values
    | cons x vs =>
      cases tys with
      | nil => exact ⟨d, rfl, rfl, rfl, fun _ _ => rfl, rfl⟩
      | cons ty tys =>
        obtain ⟨here, later⟩ := List.cons.inj values
        obtain ⟨own, others⟩ := List.forall_mem_cons.mp own
        let d₁ := d.bind (.cast s.block s.idx k) (.int (x.sextOrTrunc ty))
        have cast : execInst M d (.sextOrTrunc (.cast s.block s.idx k) v ty) = some d₁ := by
          simp only [execInst, here, Option.bind_eq_bind, Option.bind_some]
          rfl
        have same : ∀ v ∈ rest, evalInt d₁.env v = evalInt d.env v := by
          intro v member
          cases v with
          | const c => rfl
          | ssa id =>
            have apart : id ≠ .cast s.block s.idx k := fun same => others _ member k (congrArg _ same)
            simp [evalInt, evalValue, d₁, Data.bind, apart]
        obtain ⟨d', run, locals, shared, env, casted⟩ :=
          ih tys (k + 1) (d := d₁) ((List.map_congr_left same).trans later) others
        refine ⟨d', ?_, locals, shared, fun id apart => ?_, ?_⟩
        · simp only [castArgs, execCode, cast, Option.bind_some, run]
        · rw [env id fun n above => apart n (by omega)]
          exact Function.update_of_ne (apart k (Nat.le_refl k)) ..
        · simp only [List.map_cons, castArgs, casted, List.zipWith_cons_cons]
          apply congrArg (· :: _)
          have bound := env (.cast s.block s.idx k) fun n above same => by
            cases same
            omega
          simp [evalInt, evalValue, bound, d₁, Data.bind]

end Bleach
