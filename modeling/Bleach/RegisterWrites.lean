import Bleach.Lifter.Emitted
import Bleach.Lifter.Operands
import Bleach.RiscV

/-! What the result of an instruction leaves in its destination. Arguments are cast to the
types of the parameters, the result is stored as it comes. -/
namespace Bleach
variable {W : Type} {w : Nat → Nat} {cx : Context W} {M : IRModule W} {s : Site}
  {minst : MachineInstr} {st st' : Builder} {addr : Option (BitVec 64)} {c : Cell}
  {locals locals' : Locals w} {v : APInt} {code : List Inst} {id : ValueId}

/-- A variable an instruction writes, with the constant it receives if its register has one. -/
abbrev Destination := Cell × Option Nat

def Destination.value (w : Nat → Nat) (dest : Destination) (result : APInt) : APInt :=
  match dest.2 with
  | some k => .ofInt (w dest.1.cls) k
  | none => result

/-- The writes behind an instruction. -/
def writeDestinations (result : APInt) : List Destination → Locals w → Option (Locals w)
  | [], locals => some locals
  | dest :: rest, locals => do
    let new ← overwrite (locals dest.1) (dest.value w result)
    writeDestinations result rest (Function.update locals dest.1 new)

/-- The width of a result suits every destination. Two destinations share a variable only if
one register is part of the other. -/
def ResultFits (w : Nat → Nat) (ret : Nat) (dests : List Destination) : Prop :=
  ∀ c, (c, none) ∈ dests →
    ret = w c.cls ∨ ret < w c.cls ∧ ∃ k, (c, some k) ∈ dests

theorem resultFits_varying {ret : Nat} {dests : List Destination} (varying : ∀ e ∈ dests, e.2 = none) :
    ResultFits w ret dests ↔ ∀ e ∈ dests, ret = w e.1.cls := by
  constructor
  · rintro fits ⟨c, constant⟩ member
    obtain rfl : constant = none := varying _ member
    rcases fits c member with full | ⟨-, k, other⟩
    · exact full
    · cases varying _ other
  · intro full c member
    exact .inl (full _ member)

theorem overwrite_isSome {n : Nat} (old : BitVec n) : (overwrite old v).isSome ↔ v.width ≤ n := by
  unfold overwrite
  split_ifs with fits <;> simp [fits]

/-- Bits above the value stay. -/
theorem overwrite_above {n i : Nat} {old new : BitVec n} (done : overwrite old v = some new)
    (above : v.width ≤ i) : new.getLsbD i = old.getLsbD i := by
  unfold overwrite at done
  split_ifs at done with fits
  obtain rfl := Option.some.inj done
  have out : v.bits.getLsbD i = false := BitVec.getLsbD_of_ge v.bits i above
  simp only [BitVec.getLsbD_or, BitVec.getLsbD_shiftLeft, BitVec.getLsbD_ushiftRight,
    BitVec.getLsbD_setWidth, out, Bool.and_false, Bool.or_false, Nat.not_lt.mpr above, decide_false,
    Bool.not_false, Bool.and_true, Nat.add_sub_of_le above]
  by_cases inside : i < n
  · simp [inside]
  · simp [inside, BitVec.getLsbD_of_ge old i (by omega)]

theorem overwrite_whole {n : Nat} (full : v.width = n) (old old' : BitVec n) :
    overwrite old v = overwrite old' v := by
  obtain ⟨width, bits⟩ := v
  subst full
  simp

theorem writeDestinations_other {dests : List Destination}
    (done : writeDestinations v dests locals = some locals') (other : ∀ e ∈ dests, e.1 ≠ c) :
    locals' c = locals c := by
  induction dests generalizing locals with
  | nil =>
    cases done
    rfl
  | cons dest rest ih =>
    obtain ⟨apart, others⟩ := List.forall_mem_cons.mp other
    obtain ⟨new, -, done⟩ := Option.bind_eq_some_iff.mp done
    rw [ih done others, Function.update_of_ne apart.symm]

/-- Results that are not too wide can be written. -/
theorem writeDestinations_defined {dests : List Destination}
    (fits : ∀ c, (c, none) ∈ dests → v.width ≤ w c.cls) (locals : Locals w) :
    ∃ locals', writeDestinations v dests locals = some locals' := by
  induction dests generalizing locals with
  | nil => exact ⟨locals, rfl⟩
  | cons dest rest ih =>
    obtain ⟨c, constant⟩ := dest
    have width : (Destination.value w (c, constant) v).width ≤ w c.cls := by
      cases constant with
      | none => exact fits c List.mem_cons_self
      | some k => exact Nat.le_refl _
    obtain ⟨new, here⟩ := Option.isSome_iff_exists.mp ((overwrite_isSome (locals c)).mpr width)
    obtain ⟨locals', later⟩ :=
      ih (fun c member => fits c (List.mem_cons_of_mem _ member)) (Function.update locals c new)
    exact ⟨locals', by rw [writeDestinations, here, Option.bind_eq_bind, Option.bind_some, later]⟩

theorem writeDestinations_wide {dests : List Destination} (member : (c, none) ∈ dests)
    (wide : w c.cls < v.width) (locals : Locals w) : writeDestinations v dests locals = none := by
  induction dests generalizing locals with
  | nil => cases member
  | cons dest rest ih =>
    rw [writeDestinations, Option.bind_eq_bind, Option.bind_eq_none_iff]
    intro new here
    rcases List.mem_cons.mp member with rfl | inside
    · have fits := (overwrite_isSome (v := v) (locals c)).mp (Option.isSome_iff_exists.mpr ⟨new, here⟩)
      omega
    · exact ih inside _

/-- A variable that is written whole no longer depends on what it held. -/
theorem writeDestinations_agree {dests : List Destination} {first second first' second' : Locals w}
    (done : writeDestinations v dests first = some first')
    (done' : writeDestinations v dests second = some second')
    (whole : first c = second c ∨
      ∃ e ∈ dests, e.1 = c ∧ (e.value w v).width = w c.cls) : first' c = second' c := by
  induction dests generalizing first second with
  | nil =>
    cases done
    cases done'
    simpa using whole
  | cons dest rest ih =>
    obtain ⟨new, here, done⟩ := Option.bind_eq_some_iff.mp done
    obtain ⟨new', here', done'⟩ := Option.bind_eq_some_iff.mp done'
    refine ih done done' ?_
    by_cases own : dest.1 = c
    · subst own
      simp only [Function.update_self]
      rcases whole with same | ⟨e, member, cell, full⟩
      · rw [same] at here
        exact .inl (Option.some.inj (here.symm.trans here'))
      · rcases List.mem_cons.mp member with rfl | inside
        · rw [overwrite_whole full _ (second e.1)] at here
          exact .inl (Option.some.inj (here.symm.trans here'))
        · exact .inr ⟨e, inside, cell, full⟩
    · rw [Function.update_of_ne (Ne.symm own), Function.update_of_ne (Ne.symm own)]
      rcases whole with same | ⟨e, member, cell, full⟩
      · exact .inl same
      · rcases List.mem_cons.mp member with rfl | inside
        · exact absurd cell own
        · exact .inr ⟨e, inside, cell, full⟩

/-- A narrow result leaves the bits above it. -/
theorem writeDestinations_above {dests : List Destination}
    (done : writeDestinations v dests locals = some locals')
    (varying : ∀ k, (c, some k) ∉ dests) {i : Nat} (above : v.width ≤ i) :
    (locals' c).getLsbD i = (locals c).getLsbD i := by
  induction dests generalizing locals with
  | nil =>
    cases done
    rfl
  | cons dest rest ih =>
    obtain ⟨new, here, done⟩ := Option.bind_eq_some_iff.mp done
    rw [ih done fun k member => varying k (List.mem_cons_of_mem _ member)]
    by_cases own : dest.1 = c
    · obtain ⟨cell, constant⟩ := dest
      obtain rfl : cell = c := own
      cases constant with
      | none =>
        rw [Function.update_self]
        exact overwrite_above here above
      | some k => exact absurd List.mem_cons_self (varying k)
    · rw [Function.update_of_ne (Ne.symm own)]

/-- A result that fits gives every destination a value of its own. -/
theorem writeDestinations_value {dests : List Destination} (fits : ResultFits w v.width dests) :
    ∃ value : Locals w, ∀ locals : Locals w, ∃ locals', writeDestinations v dests locals = some locals' ∧
      ∀ c, locals' c = if c ∈ dests.map Prod.fst then value c else locals c := by
  have narrow : ∀ c, (c, none) ∈ dests → v.width ≤ w c.cls := by
    intro c member
    rcases fits c member with full | ⟨less, -⟩
    · exact full.le
    · exact less.le
  obtain ⟨value, reference⟩ := writeDestinations_defined narrow fun _ => 0
  refine ⟨value, fun locals => ?_⟩
  obtain ⟨locals', done⟩ := writeDestinations_defined narrow locals
  refine ⟨locals', done, fun c => ?_⟩
  split_ifs with listed
  · obtain ⟨⟨c, constant⟩, member, rfl⟩ := List.mem_map.mp listed
    apply writeDestinations_agree done reference
    cases constant with
    | some k => exact .inr ⟨_, member, rfl, rfl⟩
    | none =>
      rcases fits c member with full | ⟨-, k, constant⟩
      · exact .inr ⟨_, member, rfl, full⟩
      · exact .inr ⟨_, constant, rfl, rfl⟩
  · exact writeDestinations_other done fun e member own => listed (List.mem_map.mpr ⟨e, member, own⟩)

/-- No other result does. -/
theorem fits_of_value {ret : Nat} {dests : List Destination} (value : BitVec ret → Locals w)
    (writes : ∀ (r : BitVec ret) (locals : Locals w), ∃ locals',
      writeDestinations ⟨ret, r⟩ dests locals = some locals' ∧
        ∀ c, locals' c = if c ∈ dests.map Prod.fst then value r c else locals c) :
    ResultFits w ret dests := by
  intro c member
  by_contra misfit
  obtain ⟨other, stays⟩ := not_or.mp misfit
  have listed : c ∈ dests.map Prod.fst := List.mem_map.mpr ⟨_, member, rfl⟩
  rcases Nat.lt_or_gt_of_ne other with less | greater
  · -- the bit above the result is the old one
    have varying : ∀ k, (c, some k) ∉ dests := fun k constant => stays ⟨less, k, constant⟩
    have bit : ∀ locals : Locals w, (value 0 c).getLsbD ret = (locals c).getLsbD ret := by
      intro locals
      obtain ⟨locals', done, result⟩ := writes 0 locals
      rw [← writeDestinations_above done varying (Nat.le_refl ret), result c, if_pos listed]
    have zeros := bit fun _ => 0
    have ones := bit fun _ => BitVec.allOnes _
    rw [zeros] at ones
    simp [less] at ones
  · obtain ⟨locals', done, -⟩ := writes 0 fun _ => 0
    rw [writeDestinations_wide member greater] at done
    cases done

/-- An instruction computes values, and then writes its destinations: what they hold
afterwards depends on the result alone, and nothing else changes. -/
structure Replaces (M : IRModule W) (id : ValueId) (ret : Nat) (cells : List Cell) (code : List Inst) :
    Prop where
  computes : ∀ d d' : Data M.widths W, execCode M (code.takeWhile fun i => i.dst?.isSome) d = some d' →
    d'.locals = d.locals ∧ d'.shared = { d.shared with world := d'.shared.world } ∧
      (0 < ret → ∃ r : BitVec ret, evalInt d'.env (.ssa id) = some ⟨ret, r⟩)
  writes : ∃ value : BitVec ret → Locals M.widths, ∀ (r : BitVec ret) (d : Data M.widths W),
    evalInt d.env (.ssa id) = some ⟨ret, r⟩ → ∃ locals,
      execCode M (code.dropWhile fun i => i.dst?.isSome) d = some { d with locals := locals } ∧
        ∀ c, locals c = if c ∈ cells then value r c else d.locals c

/-- The stores of a result, and of the constants that replace it. -/
inductive ResultStores (w : Nat → Nat) (id : ValueId) : List Destination → List Inst → Prop where
  | nil : ResultStores w id [] []
  | result {c dests code} (rest : ResultStores w id dests code) :
      ResultStores w id ((c, none) :: dests) (.store (.ssa id) (.cell c) :: code)
  | constant {c k dests code} (rest : ResultStores w id dests code) :
      ResultStores w id ((c, some k) :: dests)
        (.store (.const (.ofInt (w c.cls) k)) (.cell c) :: code)

theorem ResultStores.exec {dests : List Destination} (stores : ResultStores M.widths id dests code)
    {d : Data M.widths W} (result : evalInt d.env (.ssa id) = some v) :
    execCode M code d =
      (writeDestinations v dests d.locals).map fun locals => { d with locals := locals } := by
  induction stores generalizing d with
  | nil => rfl
  | @result c dests code rest ih =>
    simp only [execCode, execInst, result, storePtr, writeDestinations, Destination.value,
      Option.bind_eq_bind, Option.bind_some]
    cases overwrite (d.locals c) v with
    | none => rfl
    | some new => exact ih result
  | @constant c k dests code rest ih =>
    simp only [execCode, execInst, evalInt, evalValue, storePtr, writeDestinations, Destination.value,
      Option.bind_eq_bind, Option.bind_some]
    cases overwrite (d.locals c) (.ofInt (M.widths c.cls) k) with
    | none => rfl
    | some new => exact ih result

theorem ResultStores.no_values {dests : List Destination} (stores : ResultStores w id dests code) :
    ∀ i ∈ code, i.dst? = none := by
  induction stores with
  | nil => simp
  | result _ ih => exact List.forall_mem_cons.mpr ⟨rfl, ih⟩
  | constant _ ih => exact List.forall_mem_cons.mpr ⟨rfl, ih⟩

/-- What only defines a value changes neither variables nor slots. -/
theorem execInst_defines {i : Inst} (defines : i.dst?.isSome = true) {d d' : Data M.widths W}
    (done : execInst M d i = some d') :
    d'.locals = d.locals ∧ d'.shared = { d.shared with world := d'.shared.world } := by
  cases i with
  | load | sextOrTrunc =>
    obtain ⟨_, -, done⟩ := Option.bind_eq_some_iff.mp done
    cases done
    exact ⟨rfl, rfl⟩
  | symtabLookup =>
    obtain ⟨_, -, done⟩ := Option.bind_eq_some_iff.mp done
    obtain ⟨_, -, done⟩ := Option.bind_eq_some_iff.mp done
    cases done
    exact ⟨rfl, rfl⟩
  | add =>
    obtain ⟨_, -, done⟩ := Option.bind_eq_some_iff.mp done
    obtain ⟨_, -, done⟩ := Option.bind_eq_some_iff.mp done
    split_ifs at done
    cases done
    exact ⟨rfl, rfl⟩
  | callInstr =>
    obtain ⟨f, -, done⟩ := Option.bind_eq_some_iff.mp done
    obtain ⟨vs, -, done⟩ := Option.bind_eq_some_iff.mp done
    split at done
    · obtain ⟨⟨r, world⟩, -, done⟩ := Option.bind_eq_some_iff.mp done
      obtain rfl := Option.some.inj done
      split_ifs <;> exact ⟨rfl, rfl⟩
    · cases done
  | _ => cases defines

theorem execCode_defines (defines : ∀ i ∈ code, i.dst?.isSome = true) {d d' : Data M.widths W}
    (done : execCode M code d = some d') :
    d'.locals = d.locals ∧ d'.shared = { d.shared with world := d'.shared.world } := by
  induction code generalizing d with
  | nil =>
    cases done
    exact ⟨rfl, rfl⟩
  | cons i rest ih =>
    obtain ⟨here, later⟩ := List.forall_mem_cons.mp defines
    obtain ⟨d₁, first, others⟩ := Option.bind_eq_some_iff.mp done
    obtain ⟨locals, shared⟩ := execInst_defines here first
    obtain ⟨locals', shared'⟩ := ih later others
    refine ⟨locals'.trans locals, ?_⟩
    rw [shared', shared]

def operandDestination (cx : Context W) (op : MachineOperand) : Option Destination := do
  let r ← op.reg?
  let c ← cx.rmap.find r
  return (c, (cx.instrs.constReg? cx.tm r).map ConstantReg.value)

/-- The variables an instruction writes its result to. A load through the stack pointer
ignores constants and later registers. -/
def destinations (cx : Context W) (minst : MachineInstr) : Path → List Destination
  | .stackAccess => ((minst.defs.head?.bind (operandCell cx)).map fun c => (c, none)).toList
  | _ => minst.defs.filterMap (operandDestination cx)

theorem resultStores_writeDefs {defs : List MachineOperand}
    (done : writeDefs cx (.ssa id) defs = .ok code) :
    ResultStores cx.stats.widths id (defs.filterMap (operandDestination cx)) code := by
  induction defs generalizing code with
  | nil =>
    cases done
    exact .nil
  | cons op rest ih =>
    cases op with
    | reg r isDef isImplicit =>
      obtain ⟨first, write, done⟩ := bind_ok.mp done
      obtain ⟨later, others, done⟩ := bind_ok.mp done
      cases done
      obtain ⟨c, found, ⟨varying, rfl⟩ | ⟨k, rclass, constant, classed, rfl⟩⟩ :=
        writeValueToRegister_ok write
      · simpa [operandDestination, MachineOperand.reg?, found, varying] using (ih others).result
      · simpa [operandDestination, MachineOperand.reg?, found, constant,
          bitsize_of_find found classed] using (ih others).constant
    | _ => cases done

theorem resultStores_storeResult (done : storeResult cx minst (.ssa id) = .ok code) :
    ResultStores w id (destinations cx minst .stackAccess) code := by
  unfold storeResult at done
  split at done
  · next none =>
    cases done
    simpa [destinations, none] using .nil
  · next r isDef isImplicit rest defs =>
    obtain ⟨c, addr, done⟩ := bind_ok.mp done
    cases done
    simpa [destinations, defs, operandCell, MachineOperand.reg?, regAddr_ok addr] using
      .result .nil
  · cases done

/-- Code that computes a result and stores it. -/
theorem replaces_iff (shared : Shared M.widths W) (last : Inst) {values writes : List Inst}
    {dests : List Destination} {ret : Nat}
    (defines : ∀ i ∈ values, i.dst?.isSome = true) (final : last.dst? = some id)
    (result : ∀ d d' : Data M.widths W, execInst M d last = some d' → 0 < ret →
      ∃ r : BitVec ret, evalInt d'.env (.ssa id) = some ⟨ret, r⟩)
    (stores : ResultStores M.widths id dests writes) :
    Replaces M id ret (dests.map Prod.fst) (values ++ last :: writes) ↔
      ResultFits M.widths ret dests := by
  have front : ∀ i ∈ values ++ [last], i.dst?.isSome = true := by
    simpa [or_imp, forall_and, final] using defines
  have back : writes.takeWhile (fun i => i.dst?.isSome) = [] ∧
      writes.dropWhile (fun i => i.dst?.isSome) = writes := by
    cases writes with
    | nil => exact ⟨rfl, rfl⟩
    | cons i rest =>
      have none := stores.no_values i List.mem_cons_self
      simp [none]
  have split : values ++ last :: writes = (values ++ [last]) ++ writes := by simp
  have computed : (values ++ last :: writes).takeWhile (fun i => i.dst?.isSome) = values ++ [last] := by
    rw [split, List.takeWhile_append_of_pos front, back.1, List.append_nil]
  have written : (values ++ last :: writes).dropWhile (fun i => i.dst?.isSome) = writes := by
    rw [split, List.dropWhile_append_of_pos front, back.2]
  constructor
  · rintro ⟨-, value, writes⟩
    apply fits_of_value value
    intro r locals
    let d : Data M.widths W := ⟨Function.update (fun _ => none) id (some (.int ⟨ret, r⟩)), locals, shared⟩
    have bound : evalInt d.env (.ssa id) = some ⟨ret, r⟩ := by simp [evalInt, evalValue, d]
    obtain ⟨locals', run, values⟩ := writes r d bound
    rw [written, stores.exec bound] at run
    obtain ⟨locals'', done, same⟩ := Option.map_eq_some_iff.mp run
    obtain rfl : locals'' = locals' := congrArg Data.locals same
    exact ⟨locals'', done, values⟩
  · intro fits
    constructor
    · intro d d' run
      rw [computed] at run
      obtain ⟨locals, shared⟩ := execCode_defines front run
      refine ⟨locals, shared, fun positive => ?_⟩
      rw [execCode_append] at run
      obtain ⟨d₁, -, done⟩ := Option.bind_eq_some_iff.mp run
      obtain ⟨d₂, done, same⟩ := Option.bind_eq_some_iff.mp done
      cases same
      exact result d₁ d' done positive
    · choose value written' using fun r : BitVec ret => writeDestinations_value (v := ⟨ret, r⟩) fits
      refine ⟨value, fun r d bound => ?_⟩
      obtain ⟨locals, done, values⟩ := written' r d.locals
      refine ⟨locals, ?_, values⟩
      rw [written, stores.exec bound, done]
      rfl

/-- A finished call has a value, unless its function is `void`. -/
theorem call_returns (functions : M.getFunction = cx.instrs.getFunction) {f : InstrFunction W}
    (found : cx.instrs.getFunction name = some f) {args : List Value} {d d' : Data M.widths W}
    (done : execInst M d (.callInstr id name args) = some d') (positive : 0 < f.ret) :
    ∃ r : BitVec f.ret, evalInt d'.env (.ssa id) = some ⟨f.ret, r⟩ := by
  obtain ⟨f', function, done⟩ := Option.bind_eq_some_iff.mp done
  rw [functions] at function
  obtain rfl := Option.some.inj (function.symm.trans found)
  obtain ⟨vs, -, done⟩ := Option.bind_eq_some_iff.mp done
  split at done
  · obtain ⟨⟨r, world⟩, -, done⟩ := Option.bind_eq_some_iff.mp done
    obtain rfl := Option.some.inj done
    rw [if_neg positive.ne']
    exact ⟨r, by simp [evalInt, evalValue, Data.bind]⟩
  · cases done

theorem load_returns {width : Nat} {idx : Value} {d d' : Data M.widths W}
    (done : execInst M d (.load id width (.stack idx)) = some d') :
    ∃ r : BitVec width, evalInt d'.env (.ssa id) = some ⟨width, r⟩ := by
  obtain ⟨v, loaded, done⟩ := Option.bind_eq_some_iff.mp done
  obtain ⟨i, -, loaded⟩ := Option.bind_eq_some_iff.mp loaded
  obtain ⟨a, -, loaded⟩ := Option.bind_eq_some_iff.mp loaded
  cases loaded
  cases done
  exact ⟨(ByteMemory.load d.shared.stack a (width / 8)).setWidth width,
    by simp [evalInt, evalValue, Data.bind]⟩

theorem operands_define {ops : List MachineOperand} {loads : List Inst} {args : List Value}
    (operands : Operands cx s ops loads args) (l : Label) :
    ∀ i ∈ if l = s.label then loads else [], i.dst?.isSome = true := by
  obtain ⟨vals, values, -⟩ := operands
  split_ifs
  · intro i member
    obtain ⟨_, -, _, n, rclass, c, -, -, -, rfl⟩ := operandsToValues_loads values i member
    rfl
  · simp

variable {f : InstrFunction W}

theorem generic_replaces_iff (shared : Shared M.widths W) (widths : M.widths = cx.stats.widths)
    (functions : M.getFunction = cx.instrs.getFunction)
    (found : cx.instrs.getFunction minst.desc.name = some f)
    (done : generateGeneric cx s minst addr st = .ok st') :
    Replaces M (.result s.block s.idx) f.ret ((destinations cx minst .generic).map Prod.fst)
        (st.newCode st') ↔
      ResultFits M.widths f.ret (destinations cx minst .generic) := by
  obtain ⟨f', loads, args, pc, writes, function, operands, -, written, rfl⟩ := generateGeneric_ok done
  obtain rfl := Option.some.inj (function.symm.trans found)
  have defines : ∀ i ∈ (if st.cur = s.label then loads else []) ++
      (castArgs s (args ++ pc) f'.params 0).1, i.dst?.isSome = true := by
    refine List.forall_mem_append.mpr ⟨operands_define operands _, fun i member => ?_⟩
    obtain ⟨n, arg, width, rfl⟩ := castArgs_casts s _ _ _ i member
    rfl
  have stores := resultStores_writeDefs written
  rw [← widths] at stores
  have replaces := replaces_iff shared (.callInstr (.result s.block s.idx) minst.desc.name
    (castArgs s (args ++ pc) f'.params 0).2) defines rfl (fun d d' => call_returns functions found) stores
  rw [List.append_assoc] at replaces
  simpa only [Builder.newCode, Builder.emit_blocks, Builder.insert_blocks, Builder.insert_cur, if_true,
    List.append_assoc, List.drop_left, destinations] using replaces

theorem modification_replaces_iff (shared : Shared M.widths W) (widths : M.widths = cx.stats.widths)
    (functions : M.getFunction = cx.instrs.getFunction)
    (found : cx.instrs.getFunction minst.desc.name = some f)
    (done : generateStackPointerModification cx s minst st = .ok st') :
    Replaces M (.result s.block s.idx) f.ret
        ((destinations cx minst .stackPointerModification).map Prod.fst) (st.newCode st') ↔
      ResultFits M.widths f.ret (destinations cx minst .stackPointerModification) := by
  obtain ⟨imm, loads, args, writes, -, operands, written, rfl⟩ :=
    generateStackPointerModification_ok done
  have stores := resultStores_writeDefs written
  rw [← widths] at stores
  have replaces := replaces_iff shared (.callInstr (.result s.block s.idx) minst.desc.name args)
    (operands_define operands st.cur) rfl (fun d d' => call_returns functions found) stores
  simpa only [Builder.newCode, Builder.emit_blocks, Builder.insert_blocks, Builder.insert_cur, if_true,
    List.append_assoc, List.drop_left, destinations] using replaces

theorem access_replaces_iff (shared : Shared M.widths W) (loads : minst.desc.mayLoad = true)
    (found : cx.instrs.getFunction minst.desc.name = some f)
    (done : generateLoadStoreFromStack cx s minst st = .ok st') :
    Replaces M (.result s.block s.idx) f.ret ((destinations cx minst .stackAccess).map Prod.fst)
        (st.newCode st') ↔
      ResultFits M.widths f.ret (destinations cx minst .stackAccess) := by
  obtain ⟨spReg, sp, rclass, write, -, -, -, written, paths⟩ := generateLoadStoreFromStack_ok done
  obtain ⟨-, -, f', function, rfl⟩ | ⟨stores, -⟩ := paths
  · obtain rfl := Option.some.inj (function.symm.trans found)
    have index : ∀ i ∈ stackIndexCode s sp rclass minst, i.dst?.isSome = true := by
      simp [stackIndexCode, Inst.dst?]
    have replaces := replaces_iff shared
      (.load (.result s.block s.idx) f'.ret (.stack (.ssa (.index s.block s.idx)))) index rfl
      (fun d d' done _ => load_returns done) (resultStores_storeResult written)
    simpa only [Builder.newCode, Builder.emit_blocks, Builder.emit_cur, if_true, List.append_assoc,
      List.drop_left] using replaces
  · simp [loads] at stores

/-- Instructions that write the result of their function, or what a load through the stack
pointer reads in its type. -/
def WritesResult (minst : MachineInstr) (path : Path) : Prop :=
  path = .generic ∨ path = .stackPointerModification ∨
    path = .stackAccess ∧ minst.desc.mayLoad = true

/-- A destination is replaced by the result exactly where the result is as wide. -/
theorem register_replaced_iff (shared : Shared M.widths W) (widths : M.widths = cx.stats.widths)
    (functions : M.getFunction = cx.instrs.getFunction)
    (writes : WritesResult minst (dispatch cx minst st.sptrack))
    (found : cx.instrs.getFunction minst.desc.name = some f)
    (done : generateInstruction cx s addr minst st = .ok st') :
    Replaces M (.result s.block s.idx) f.ret
        ((destinations cx minst (dispatch cx minst st.sptrack)).map Prod.fst) (st.newCode st') ↔
      ResultFits M.widths f.ret (destinations cx minst (dispatch cx minst st.sptrack)) := by
  rw [generateInstruction_eq] at done
  rcases writes with path | path | ⟨path, loads⟩
  · rw [path] at done ⊢
    obtain ⟨_, -, done⟩ := bind_ok.mp done
    obtain ⟨_, -, done⟩ := bind_ok.mp done
    exact generic_replaces_iff shared widths functions found done
  · rw [path] at done ⊢
    obtain ⟨_, -, done⟩ := bind_ok.mp done
    obtain ⟨_, -, done⟩ := bind_ok.mp done
    have replaces := modification_replaces_iff shared widths functions found done
    exact replaces
  · rw [path] at done ⊢
    exact access_replaces_iff shared loads found done

/-- What is linked for the functions of a configuration; no function is lifted. -/
def linkedModule (cx : Context W) : IRModule W := ⟨cx.stats.widths, 64, 0, cx.instrs.getFunction, []⟩

/-- `LW` of `logical.yaml`, which leaves the extension to the lifter. -/
def wordLoad : InstrFunction RiscV.World where
  params := [64, 64]
  ret := 32
  eval
    | [base, off], world =>
      some (ByteMemory.load world (base.bits.setWidth 64 + off.bits.setWidth 64) 4, world)
    | _, _ => none

def wordContext : Context RiscV.World where
  instrs := { instrs := [{ name := "LW", irModule := some wordLoad }], stackPointer := "X2" }
  tm := RiscV.target
  stats := [RiscV.gpr]

def fpr : RegisterClass where
  name := "FPR32"
  bitsize := 32
  regs := .single 40 []

/-- No double is used. -/
def singleContext : Context RiscV.World := { RiscV.context with stats := [RiscV.gpr, fpr] }

def loadThrough (cx : Context RiscV.World) (desc : InstrDesc) (reg : Register) : Lift Builder :=
  let minst : MachineInstr := ⟨desc, [RiscV.dst reg, RiscV.use 8, .imm 4]⟩
  generateInstruction cx ⟨1, 0, [minst], 0⟩ none minst ⟨fun _ => [], .mbb 0, {2}⟩

theorem uncast_result_stored :
    (∃ st', loadThrough wordContext RiscV.LW 10 = .ok st' ∧
      ¬Replaces (linkedModule wordContext) (.result 0 0) 32 [⟨0, 10⟩]
        (Builder.newCode ⟨fun _ => [], .mbb 0, {2}⟩ st')) ∧
    ∃ st', loadThrough singleContext RiscV.FLW 40 = .ok st' ∧
      ¬Replaces (linkedModule singleContext) (.result 0 0) 64 [⟨1, 40⟩]
        (Builder.newCode ⟨fun _ => [], .mbb 0, {2}⟩ st') := by
  constructor
  · obtain ⟨st', done⟩ : ∃ st', generateGeneric wordContext ⟨1, 0, [], 0⟩
      ⟨RiscV.LW, [RiscV.dst 10, RiscV.use 8, .imm 4]⟩ none ⟨fun _ => [], .mbb 0, {2}⟩ = .ok st' :=
      ⟨_, rfl⟩
    refine ⟨st', done, fun replaces => ?_⟩
    have fits := (generic_replaces_iff (RiscV.zeroed _) rfl rfl (f := wordLoad) rfl done).mp replaces
    rw [resultFits_varying (by decide)] at fits
    revert fits
    decide
  · obtain ⟨st', done⟩ : ∃ st', generateGeneric singleContext ⟨1, 0, [], 0⟩
      ⟨RiscV.FLW, [RiscV.dst 40, RiscV.use 8, .imm 4]⟩ none ⟨fun _ => [], .mbb 0, {2}⟩ = .ok st' :=
      ⟨_, rfl⟩
    refine ⟨st', done, fun replaces => ?_⟩
    have fits := (generic_replaces_iff (RiscV.zeroed _) rfl rfl
      (f := RiscV.loadFunction 4 RiscV.nanBox) rfl done).mp replaces
    rw [resultFits_varying (by decide)] at fits
    revert fits
    decide

/-- A load that its function extends. -/
theorem extended_load_replaces : ∃ st', loadThrough RiscV.context RiscV.LW 10 = .ok st' ∧
    Replaces (linkedModule RiscV.context) (.result 0 0) 64 [⟨0, 10⟩]
      (Builder.newCode ⟨fun _ => [], .mbb 0, {2}⟩ st') := by
  obtain ⟨st', done⟩ : ∃ st', loadThrough RiscV.context RiscV.LW 10 = .ok st' := ⟨_, rfl⟩
  refine ⟨st', done, ?_⟩
  apply (register_replaced_iff (RiscV.zeroed _) rfl rfl (.inl (by decide))
    (f := RiscV.loadFunction 4 (·.signExtend 64)) rfl done).mpr
  rw [resultFits_varying (by decide)]
  decide

end Bleach
