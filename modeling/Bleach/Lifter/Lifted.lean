import Bleach.Lifter.Position
import Bleach.Lifter.RegisterCopies

/-! A lifted module seen function by function: the finished blocks, with the saves
in front of the returns and the registrations in front of the entry block. -/
namespace Bleach
variable {W : Type} {cx : Context W} {mfs : List MachineFunction}
  {addrs : FuncId → FunctionAddresses} {M : IRModule W} {adds : List Inst}

/-- The finished blocks of a function. -/
def liftedBody (cx : Context W) (adds : List Inst) (fin : Builder) : Label → List Inst :=
  Function.update (fun l => saveRegistersBeforeReturn cx.save (fin.blocks l)) entryLabel
    (adds ++ saveRegistersBeforeReturn cx.save (fin.blocks entryLabel))

theorem liftedBody_other {fin : Builder} {l : Label} (other : l ≠ entryLabel) :
    liftedBody cx adds fin l = saveRegistersBeforeReturn cx.save (fin.blocks l) :=
  Function.update_of_ne other ..

@[simp] theorem liftedBody_entry {fin : Builder} :
    liftedBody cx adds fin entryLabel =
      adds ++ saveRegistersBeforeReturn cx.save (fin.blocks entryLabel) :=
  Function.update_self ..

/-- `M` is the module lifted from `mfs`; `adds` are the registrations at the entry
of each of its functions. -/
structure Lifted (cx : Context W) (mfs : List MachineFunction) (addrs : FuncId → FunctionAddresses)
    (adds : List Inst) (M : IRModule W) : Prop where
  widths : M.widths = cx.stats.widths
  getFunction : M.getFunction = cx.instrs.getFunction
  stackElemBits : M.stackElemBits = largestRegsize cx.stats
  functions : ∀ {f mf}, mfs[f]? = some mf → ∃ fin, finalBuilder cx mf (addrs f) = .ok fin ∧
    M.body f = if mf.blocks.isEmpty then none else some (liftedBody cx adds fin)
  outside : ∀ {f}, mfs[f]? = none → M.body f = none
  adds : ∀ i ∈ adds, ∃ addr f, i = .symtabAdd addr f

theorem Lifted.body {f : FuncId} {blocks : Label → List Inst} (lifted : Lifted cx mfs addrs adds M)
    (body : M.body f = some blocks) : ∃ mf fin, mfs[f]? = some mf ∧ mf.blocks ≠ [] ∧
      finalBuilder cx mf (addrs f) = .ok fin ∧ blocks = liftedBody cx adds fin := by
  cases found : mfs[f]? with
  | none => simp [lifted.outside found] at body
  | some mf =>
    obtain ⟨fin, whole, here⟩ := lifted.functions found
    rw [here] at body
    split_ifs at body with empty
    exact ⟨mf, fin, rfl, by simpa using empty, whole, (Option.some.inj body).symm⟩

/-- The registrations for the functions with a body from `f` on. -/
def Registrations (finfo : Option FileInfo) (funcs : List LiftedFunction) (adds : List Inst) : Prop :=
  match finfo with
  | none => adds = []
  | some finfo => symtabAdds finfo funcs 0 = .ok adds

theorem symtabAdds_mem {finfo : FileInfo} {funcs : List LiftedFunction} {f : FuncId}
    {adds : List Inst} (done : symtabAdds finfo funcs f = .ok adds) :
    ∀ i ∈ adds, ∃ addr f, i = .symtabAdd addr f := by
  induction funcs generalizing f adds with
  | nil => cases done; simp
  | cons func rest ih =>
    unfold symtabAdds at done
    split_ifs at done
    · exact ih done
    · obtain ⟨addr, -, done⟩ := bind_ok.mp done
      obtain ⟨later, others, done⟩ := bind_ok.mp done
      cases done
      intro i member
      obtain inside | here := List.mem_append.mp member
      · exact ih others i inside
      · exact ⟨addr, f, List.mem_singleton.mp here⟩

theorem Registrations.mem {finfo : Option FileInfo} {funcs : List LiftedFunction}
    (registered : Registrations finfo funcs adds) : ∀ i ∈ adds, ∃ addr f, i = .symtabAdd addr f := by
  cases finfo with
  | none => cases registered; simp
  | some finfo => exact symtabAdds_mem registered

theorem generateFunctions_ok {mfs : List MachineFunction} {f : FuncId} {funcs : List LiftedFunction}
    (done : generateFunctions cx addrs mfs f = .ok funcs) (k : Nat) :
    funcs[k]?.map LiftedFunction.name = mfs[k]?.map MachineFunction.name ∧
    ∀ mf, mfs[k]? = some mf → ∃ func, funcs[k]? = some func ∧
      generateFunction cx mf (addrs (f + k)) = .ok func.body := by
  induction mfs generalizing f funcs k with
  | nil => cases done; simp
  | cons mf rest ih =>
    obtain ⟨body, first, done⟩ := bind_ok.mp done
    obtain ⟨later, others, done⟩ := bind_ok.mp done
    cases done
    cases k with
    | zero => exact ⟨rfl, fun _ same => Option.some.inj same ▸ ⟨_, rfl, first⟩⟩
    | succ k =>
      exact Nat.add_right_comm f 1 k ▸ ih others k

theorem bleachModule_ok {finfo : Option FileInfo} {stackSize : Nat} {liftedPrefix : String}
    (done : bleachModule cx mfs addrs finfo stackSize liftedPrefix = .ok M) :
    ∃ funcs adds, generateFunctions cx addrs mfs 0 = .ok funcs ∧ Registrations finfo funcs adds ∧
      M = {
        widths := cx.stats.widths
        stackElemBits := largestRegsize cx.stats
        stackCount := stackSize / (largestRegsize cx.stats / 8)
        getFunction := cx.instrs.getFunction
        funcs := funcs.map fun func =>
          ⟨liftedPrefix ++ func.name, func.body.map fun blocks =>
            Function.update blocks entryLabel (adds ++ blocks entryLabel)⟩ } := by
  unfold bleachModule at done
  split_ifs at done
  obtain ⟨funcs, generated, done⟩ := bind_ok.mp done
  obtain ⟨filled, registered, done⟩ := bind_ok.mp done
  cases finfo with
  | none =>
    cases registered
    refine ⟨funcs, [], generated, rfl, (Except.ok.inj done).symm.trans ?_⟩
    simp only [List.nil_append, Function.update_eq_self, Option.map_id']
  | some finfo =>
    obtain ⟨adds, registrations, registered⟩ := bind_ok.mp registered
    cases registered
    refine ⟨funcs, adds, generated, registrations, (Except.ok.inj done).symm.trans ?_⟩
    simp only [List.map_map, Function.comp_def, fillSymtabAt]

/-- Lifting succeeds if the functions are generated and the table is filled. -/
theorem bleachModule_exists {finfo : Option FileInfo} {stackSize : Nat}
    {liftedPrefix : String} : (∃ M, bleachModule cx mfs addrs finfo stackSize liftedPrefix = .ok M) ↔
      cx.stats.isEmpty = false ∧ ∃ funcs, generateFunctions cx addrs mfs 0 = .ok funcs ∧
        ∃ filled, fillSymtab finfo funcs = .ok filled := by
  unfold bleachModule
  cases cx.stats.isEmpty with
  | true => simp
  | false =>
    simp only [Bool.false_eq_true, if_false, bind_ok, true_and]
    constructor
    · rintro ⟨M, funcs, generated, filled, done, -⟩
      exact ⟨funcs, generated, filled, done⟩
    · rintro ⟨funcs, generated, filled, done⟩
      exact ⟨_, funcs, generated, filled, done, rfl⟩

theorem lifted_of_bleachModule {finfo : Option FileInfo} {stackSize : Nat} {liftedPrefix : String}
    (done : bleachModule cx mfs addrs finfo stackSize liftedPrefix = .ok M) :
    ∃ funcs adds, Registrations finfo funcs adds ∧ Lifted cx mfs addrs adds M ∧
      M.stackCount = stackSize / (largestRegsize cx.stats / 8) ∧
      funcs.map LiftedFunction.name = mfs.map MachineFunction.name ∧
      ∀ f, (M.body f).isSome = ((funcs[f]?).bind LiftedFunction.body).isSome := by
  obtain ⟨funcs, adds, generated, registrations, rfl⟩ := bleachModule_ok done
  have function := fun k => generateFunctions_ok generated k
  simp only [Nat.zero_add] at function
  have names : funcs.map LiftedFunction.name = mfs.map MachineFunction.name :=
    List.ext_getElem? fun k => by simpa using (function k).1
  refine ⟨funcs, adds, registrations, ⟨rfl, rfl, rfl, fun found => ?_, fun {f} missing => ?_,
    registrations.mem⟩, rfl, names, fun f => ?_⟩
  · obtain ⟨func, here, body⟩ := (function _).2 _ found
    obtain ⟨fin, whole, finished⟩ := generateFunction_ok body
    refine ⟨fin, whole, ?_⟩
    simp only [IRModule.body, List.getElem?_map, here, Option.map_some, Option.bind_some, finished]
    split_ifs <;> rfl
  · have short := (function f).1
    rw [missing] at short
    simp [IRModule.body, Option.map_eq_none_iff.mp short]
  · cases here : funcs[f]? <;> simp [IRModule.body, here]

theorem prefix_of_first {a : Inst} {first second tail tail' : List Inst} (h : a ∉ first)
    (h' : a ∉ second) (same : first ++ a :: tail = second ++ a :: tail') : first = second := by
  obtain ⟨c, rfl, rest⟩ | ⟨c, rfl, rest⟩ := List.append_eq_append_iff.mp same <;>
    cases c <;> simp_all

theorem saves_append {save : List Inst} (plain : Plain save) {code pre tail : List Inst}
    (split : saveRegistersBeforeReturn save code = pre ++ .retVoid :: tail) (noRet : .retVoid ∉ pre) :
    ∃ before, pre = before ++ save := by
  induction code generalizing pre with
  | nil => simp [saveRegistersBeforeReturn] at split
  | cons i rest ih =>
    by_cases ret : i = .retVoid
    · subst ret
      rw [saveRegistersBeforeReturn_ret] at split
      exact ⟨[], (prefix_of_first plain.noRet noRet split).symm⟩
    · rw [saveRegistersBeforeReturn_cons save ret] at split
      cases pre with
      | nil => exact absurd (List.cons.inj split).1 ret
      | cons j pre =>
        obtain ⟨rfl, later⟩ := List.cons.inj split
        obtain ⟨before, rfl⟩ := ih later (List.not_mem_of_not_mem_cons noRet)
        exact ⟨i :: before, rfl⟩

namespace Lifted

theorem plain_adds (lifted : Lifted cx mfs addrs adds M) : Plain adds := by
  intro i member
  obtain ⟨addr, f, rfl⟩ := lifted.adds i member
  rfl

theorem run_save (lifted : Lifted cx mfs addrs adds M) (disjoint : cx.stats.Disjoint)
    (d : Data M.widths W) : ∃ d', execCode M cx.save d = some d' ∧ Saved (transfers cx.stats) d d' :=
  run_saveRegisters disjoint lifted.widths d

theorem run_reload (lifted : Lifted cx mfs addrs adds M) (disjoint : cx.stats.Disjoint)
    (d : Data M.widths W) :
    ∃ d', execCode M cx.reload d = some d' ∧ Reloaded (transfers cx.stats) d d' :=
  run_loadRegisters disjoint lifted.widths d

/-- Registrations change the run-time symbol table and nothing else. -/
theorem exec_adds {adds : List Inst} (registrations : ∀ i ∈ adds, ∃ addr f, i = .symtabAdd addr f)
    (d : Data M.widths W) : ∃ symtab, execCode M adds d =
      some { d with shared := { d.shared with symtab := symtab } } := by
  induction adds generalizing d with
  | nil => exact ⟨d.shared.symtab, rfl⟩
  | cons i rest ih =>
    obtain ⟨⟨addr, f, rfl⟩, later⟩ := List.forall_mem_cons.mp registrations
    obtain ⟨symtab, run⟩ := ih later
      { d with shared := { d.shared with symtab := symtabAdd d.shared.symtab addr f } }
    exact ⟨symtab, run⟩

/-- In a lifted function the first return of a block stands behind the saves. -/
theorem saves (lifted : Lifted cx mfs addrs adds M) {f : FuncId} {blocks : Label → List Inst}
    {l : Label} {pre tail : List Inst} (body : M.body f = some blocks)
    (split : blocks l = pre ++ .retVoid :: tail) (noRet : .retVoid ∉ pre) :
    ∃ before, pre = before ++ cx.save := by
  obtain ⟨mf, fin, -, -, -, rfl⟩ := lifted.body body
  by_cases entry : l = entryLabel
  · subst entry
    rw [liftedBody_entry, ← saveRegistersBeforeReturn_append _ lifted.plain_adds.noRet] at split
    exact saves_append (plain_save cx) split noRet
  · rw [liftedBody_other entry] at split
    exact saves_append (plain_save cx) split noRet

/-- The entry block up to the first guest instruction. -/
theorem entry_code (adds : List Inst) {mf : MachineFunction} {addrs : FunctionAddresses} {fin : Builder}
    (whole : finalBuilder cx mf addrs = .ok fin) (blocks : mf.blocks ≠ []) :
    ∃ st, builderAt cx mf addrs 0 0 = .ok st ∧ st.cur = entryLabel ∧
      liftedBody cx adds fin entryLabel =
        (adds ++ materializeRegisters cx.stats) ++ codeAt cx fin st := by
  have found := List.getElem?_eq_getElem (List.length_pos_of_ne_nil blocks)
  obtain ⟨spReg, -, builder⟩ := builderAt_zero whole blocks
  refine ⟨_, builder, rfl, ?_⟩
  obtain ⟨more, rest⟩ : (initialBuilder cx spReg).blocks entryLabel <+: fin.blocks entryLabel :=
    builderAt_extends whole found builder entryLabel
  have code : codeAt cx fin { initialBuilder cx spReg with cur := entryLabel } =
      saveRegistersBeforeReturn cx.save
        ((fin.blocks entryLabel).drop (materializeRegisters cx.stats).length) := by
    simp [codeAt]
  rw [initialBuilder_entry] at rest
  rw [liftedBody_entry, ← rest,
    saveRegistersBeforeReturn_append _ (plain_materialize cx.stats).noRet, List.append_assoc]
  refine congrArg _ (congrArg _ (Eq.trans ?_ code.symm))
  rw [← rest, List.drop_left]

end Lifted
end Bleach
