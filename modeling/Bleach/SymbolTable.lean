import Bleach.Lifter.Origins
import Bleach.IRRun

/-! The run-time symbol table. Whatever is called first registers every lifted
function before it does anything else, and nothing else writes to the table: from
then on it maps exactly the start addresses to the functions that start there. -/
namespace Bleach
variable {W : Type} {w : Nat → Nat} {cx : Context W} {mfs : List MachineFunction}
  {addrs : FuncId → FunctionAddresses} {finfo : FileInfo} {adds : List Inst} {M : IRModule W}

/-- The guest address at which a lifted function starts. -/
def startOf (mfs : List MachineFunction) (finfo : FileInfo) (g : FuncId) : Option (BitVec 64) :=
  (mfs[g]?).bind fun mf => if mf.blocks.isEmpty then none else (finfo.getStartOf mf.name).toOption

theorem getStartOf_ok {name : String} {a : BitVec 64} (done : finfo.getStartOf name = .ok a) :
    ∃ fs ∈ finfo, fs.name = name ∧ fs.start = a := by
  unfold FileInfo.getStartOf at done
  split at done
  · next fs found =>
    have named := List.find?_some found
    exact ⟨fs, List.mem_of_find?_eq_some found, by simpa using named, Except.ok.inj done⟩
  · cases done

theorem startOf_eq {g : FuncId} {a : BitVec 64} : startOf mfs finfo g = some a ↔
    ∃ mf, mfs[g]? = some mf ∧ mf.blocks.isEmpty = false ∧ finfo.getStartOf mf.name = .ok a := by
  have named : ∀ name, (finfo.getStartOf name).toOption = some a ↔ finfo.getStartOf name = .ok a := by
    intro name
    cases finfo.getStartOf name <;> simp [Except.toOption]
  unfold startOf
  cases mfs[g]? with
  | none => simp
  | some mf => cases mf.blocks.isEmpty <;> simp [named]

/-- Different functions start at different addresses. -/
theorem startOf_inj (names : (mfs.map MachineFunction.name).Nodup)
    (starts : (finfo.map FunctionSymbol.start).Nodup) {g g' : FuncId} {a : BitVec 64}
    (here : startOf mfs finfo g = some a) (here' : startOf mfs finfo g' = some a) : g = g' := by
  obtain ⟨mf, found, -, start⟩ := startOf_eq.mp here
  obtain ⟨mf', found', -, start'⟩ := startOf_eq.mp here'
  obtain ⟨fs, inside, named, rfl⟩ := getStartOf_ok start
  obtain ⟨fs', inside', named', same⟩ := getStartOf_ok start'
  obtain rfl := List.inj_on_of_nodup_map starts inside' inside same
  have bound : g < (mfs.map MachineFunction.name).length := by
    simpa using (List.getElem?_eq_some_iff.mp found).1
  apply (List.getElem?_inj bound names).mp
  simp [found, found', ← named, ← named']

theorem symtabAdds_iff {funcs : List LiftedFunction} {f : FuncId}
    (done : symtabAdds finfo funcs f = .ok adds) {a : BitVec 64} {g : FuncId} :
    .symtabAdd a g ∈ adds ↔ ∃ k func, g = f + k ∧ funcs[k]? = some func ∧
      func.body.isSome = true ∧ finfo.getStartOf func.name = .ok a := by
  induction funcs generalizing f adds with
  | nil => cases done; simp
  | cons func rest ih =>
    have shift : (∃ k func', g = f + k ∧ (func :: rest)[k]? = some func' ∧
        func'.body.isSome = true ∧ finfo.getStartOf func'.name = .ok a) ↔
        (g = f ∧ func.body.isSome = true ∧ finfo.getStartOf func.name = .ok a) ∨
        ∃ k func', g = f + 1 + k ∧ rest[k]? = some func' ∧ func'.body.isSome = true ∧
          finfo.getStartOf func'.name = .ok a := by
      constructor
      · rintro ⟨k, func', rfl, found, has, start⟩
        cases k with
        | zero =>
          obtain rfl : func = func' := by simpa using found
          exact .inl ⟨rfl, has, start⟩
        | succ k =>
          exact .inr ⟨k, func', Nat.add_right_comm f k 1, by simpa using found, has, start⟩
      · rintro (⟨rfl, has, start⟩ | ⟨k, func', rfl, found, has, start⟩)
        · exact ⟨0, func, rfl, rfl, has, start⟩
        · exact ⟨k + 1, func', (Nat.add_right_comm f k 1).symm, by simpa using found, has, start⟩
    rw [shift]
    unfold symtabAdds at done
    split_ifs at done with absent
    · rw [ih done]
      have absent : func.body = none := by simpa using absent
      simp [absent]
    · obtain ⟨addr, start, done⟩ := bind_ok.mp done
      obtain ⟨later, others, done⟩ := bind_ok.mp done
      cases done
      rw [List.mem_append, ih others, or_comm]
      have has : func.body.isSome = true := by
        cases body : func.body <;> simp_all
      refine or_congr ?_ Iff.rfl
      simp only [List.mem_singleton, Inst.symtabAdd.injEq, start, has, true_and, Except.ok.injEq]
      tauto

/-- Exactly the lifted functions are registered, each at its start address. -/
theorem registered_iff (lifted : Lifted cx mfs addrs adds M) {funcs : List LiftedFunction}
    (registered : Registrations (some finfo) funcs adds)
    (names : funcs.map LiftedFunction.name = mfs.map MachineFunction.name)
    (bodies : ∀ f, (M.body f).isSome = ((funcs[f]?).bind LiftedFunction.body).isSome)
    {a : BitVec 64} {g : FuncId} : .symtabAdd a g ∈ adds ↔ startOf mfs finfo g = some a := by
  have done : symtabAdds finfo funcs 0 = .ok adds := registered
  have named : (funcs[g]?).map LiftedFunction.name = (mfs[g]?).map MachineFunction.name := by
    simpa using congrArg (·[g]?) names
  rw [symtabAdds_iff done, startOf_eq]
  constructor
  · rintro ⟨k, func, rfl, found, has, start⟩
    rw [Nat.zero_add] at named ⊢
    obtain ⟨mf, found', same⟩ := Option.map_eq_some_iff.mp (named.symm.trans (congrArg _ found))
    obtain ⟨fin, -, body⟩ := lifted.functions found'
    have present := bodies k
    simp only [body, found, Option.bind_some, has] at present
    refine ⟨mf, found', ?_, by rw [same]; exact start⟩
    cases empty : mf.blocks.isEmpty with
    | false => rfl
    | true => simp [empty] at present
  · rintro ⟨mf, found', nonempty, start⟩
    obtain ⟨func, found, same⟩ := Option.map_eq_some_iff.mp (named.trans (congrArg _ found'))
    obtain ⟨fin, -, body⟩ := lifted.functions found'
    have present := bodies g
    simp only [body, found, Option.bind_some, nonempty] at present
    exact ⟨g, func, (Nat.zero_add g).symm, found, present.symm, by rw [same]; exact start⟩

/-- The lifted code as its environment uses it: functions are called one after
another, and the table outlives the calls. -/
inductive Called (M : IRModule W) : Config M.widths W → Prop where
  | first {f blocks shared} (body : M.body f = some blocks) (fresh : shared.symtab = []) :
      Called M ⟨[M.entryFrame f blocks], shared⟩
  | again {f blocks shared c} (before : Called M c) (returned : c.frames = [])
      (kept : shared.symtab = c.shared.symtab) (body : M.body f = some blocks) :
      Called M ⟨[M.entryFrame f blocks], shared⟩
  | step {c c'} (before : Called M c) (next : M.step c = some c') : Called M c'

def Recorded (adds : List Inst) (symtab : List (BitVec 64 × FuncId)) : Prop :=
  ∀ a g, .symtabAdd a g ∈ adds → symtab.lookup a = some g

/-- The table is sound at all times, and complete once the first function called has
executed its registrations. -/
structure Tabled (M : IRModule W) (adds : List Inst) (c : Config M.widths W) : Prop where
  grounded : c.Grounded M
  sound : ∀ a g, c.shared.symtab.lookup a = some g → .symtabAdd a g ∈ adds
  complete : Recorded adds c.shared.symtab ∨ ∃ fr before i after later, c.frames = [fr] ∧
    adds = before ++ i :: after ∧ fr.code = i :: after ++ later ∧ Recorded before c.shared.symtab

theorem lookup_symtabAdd (symtab : List (BitVec 64 × FuncId)) (a : BitVec 64) (g : FuncId)
    (b : BitVec 64) : (symtabAdd symtab a g).lookup b =
      (symtab.lookup b).or (if b = a then some g else none) := by
  unfold symtabAdd
  by_cases same : b = a
  · subst same
    cases found : symtab.lookup b <;> simp [found]
  · have differs : (b == a) = false := by simpa using same
    split_ifs <;> simp [List.lookup_cons, differs]

/-- What a plain instruction does to the table. -/
theorem exec_symtab {d d' : Data M.widths W} {i : Inst} (done : execInst M d i = some d') :
    (∃ a g, i = .symtabAdd a g ∧ d'.shared.symtab = symtabAdd d.shared.symtab a g) ∨
    (∀ a g, i ≠ .symtabAdd a g) ∧ d'.shared.symtab = d.shared.symtab := by
  by_cases adds : ∃ a g, i = .symtabAdd a g
  · obtain ⟨a, g, rfl⟩ := adds
    exact .inl ⟨a, g, rfl, Option.some.inj done ▸ rfl⟩
  · have other : ∀ a g, i ≠ .symtabAdd a g := fun a g same => adds ⟨a, g, same⟩
    exact .inr ⟨other, (exec_framed done).symtab other⟩

/-- An executable registration is one of those in front of the entry blocks. -/
theorem registration_mem (lifted : Lifted cx mfs addrs adds M) {f : FuncId}
    {blocks : Label → List Inst} (body : M.body f = some blocks) {l : Label} {a : BitVec 64}
    {g : FuncId} (member : .symtabAdd a g ∈ live (blocks l)) : .symtabAdd a g ∈ adds := by
  obtain ⟨mf, fin, -, nonempty, whole, rfl⟩ := lifted.body body
  obtain inside | ordinary | ⟨b, mbb, i, -, -, k, width, c, load⟩ :=
    live_liftedBody whole nonempty member
  · exact inside
  · cases ordinary
  · cases load

theorem Recorded.add {before : List Inst} {symtab : List (BitVec 64 × FuncId)}
    (recorded : Recorded before symtab) (a : BitVec 64) (g : FuncId) :
    Recorded before (symtabAdd symtab a g) := by
  intro b h member
  rw [lookup_symtabAdd, recorded b h member, Option.some_or]

variable (lifted : Lifted cx mfs addrs adds M)
  (unique : ∀ {a g g'}, .symtabAdd a g ∈ adds → .symtabAdd a g' ∈ adds → g = g')
include lifted

theorem tabled_entry {f : FuncId} {blocks : Label → List Inst} (body : M.body f = some blocks)
    {shared : Shared M.widths W} (fresh : shared.symtab = []) :
    Tabled M adds ⟨[M.entryFrame f blocks], shared⟩ := by
  obtain ⟨mf, fin, -, -, -, rfl⟩ := lifted.body body
  refine ⟨by simpa [Config.Grounded] using grounded_entry body, by simp [fresh], ?_⟩
  cases adds with
  | nil => exact .inl (by simp [Recorded])
  | cons i after =>
    exact .inr ⟨_, [], i, after, _, rfl, rfl, liftedBody_entry, by simp [Recorded]⟩

include unique

theorem tabled_step {c c' : Config M.widths W} (tabled : Tabled M adds c)
    (done : M.step c = some c') : Tabled M adds c' := by
  have grounded := grounded_step tabled.grounded done
  cases stepped done with
  | @plain fr rest shared i code d at_ one =>
    obtain ⟨blocks, pre, body, split, before⟩ := (tabled.grounded fr List.mem_cons_self).inside
    obtain ⟨a, g, rfl, added⟩ | ⟨other, same⟩ := exec_symtab one
    · replace added : d.shared.symtab = symtabAdd shared.symtab a g := added
      have member : .symtabAdd a g ∈ adds :=
        registration_mem lifted body (split ▸ at_ ▸ mem_live before rfl)
      have found : (symtabAdd shared.symtab a g).lookup a = some g := by
        rw [lookup_symtabAdd, if_pos rfl]
        cases old : shared.symtab.lookup a with
        | none => rfl
        | some g' =>
          obtain rfl := unique member (tabled.sound a g' old)
          rfl
      refine ⟨grounded, fun b h bound => ?_, ?_⟩
      · replace bound : d.shared.symtab.lookup b = some h := bound
        rw [added, lookup_symtabAdd] at bound
        obtain old | ⟨-, new⟩ := Option.or_eq_some_iff.mp bound
        · exact tabled.sound b h old
        · obtain ⟨rfl, rfl⟩ : b = a ∧ g = h := by simpa using new
          exact member
      · obtain recorded | ⟨fr', done', i, after, later, top, whole, code', recorded⟩ := tabled.complete
        · exact .inl (by simpa only [added] using recorded.add a g)
        · obtain ⟨rfl, rfl⟩ := List.cons.inj top
          obtain ⟨rfl, rfl⟩ := List.cons.inj (at_.symm.trans code')
          have recorded' : Recorded (done' ++ [.symtabAdd a g]) d.shared.symtab := by
            intro b h inside
            rw [added]
            obtain old | new := List.mem_append.mp inside
            · exact recorded.add a g b h old
            · obtain ⟨rfl, rfl⟩ := Inst.symtabAdd.inj (List.mem_singleton.mp new)
              exact found
          cases after with
          | nil => exact .inl (by rwa [whole])
          | cons j after =>
            exact .inr ⟨_, done' ++ [.symtabAdd a g], j, after, later, rfl, by simp [whole], rfl,
              recorded'⟩
    · replace same : d.shared.symtab = shared.symtab := same
      refine ⟨grounded, by simpa only [same] using tabled.sound, ?_⟩
      obtain recorded | ⟨fr', done', i', after, later, top, whole, code', recorded⟩ := tabled.complete
      · exact .inl (by simpa only [same] using recorded)
      · -- the next instruction would be a registration
        obtain ⟨rfl, rfl⟩ := List.cons.inj top
        obtain ⟨rfl, -⟩ := List.cons.inj (at_.symm.trans code')
        obtain ⟨a, g, rfl⟩ := lifted.adds i (by simp [whole])
        exact absurd rfl (other a g)
  | ret at_ | jump at_ target body | enter at_ calls body =>
    refine ⟨grounded, tabled.sound, ?_⟩
    obtain recorded | ⟨fr', done', i', after, later, top, whole, code', recorded⟩ := tabled.complete
    · exact .inl recorded
    · obtain ⟨rfl, rfl⟩ := List.cons.inj top
      obtain ⟨rfl, -⟩ := List.cons.inj (at_.symm.trans code')
      obtain ⟨a, g, same⟩ := lifted.adds _ (whole ▸ List.mem_append_right _ List.mem_cons_self)
      simp_all [Inst.targets]

theorem tabled {c : Config M.widths W} (called : Called M c) : Tabled M adds c := by
  induction called with
  | first body fresh => exact tabled_entry lifted body fresh
  | @again f blocks shared c before returned kept body ih =>
    refine ⟨by simpa [Config.Grounded] using grounded_entry body, by simpa only [kept] using ih.sound,
      .inl ?_⟩
    obtain recorded | ⟨fr, done, i, after, later, top, -⟩ := ih.complete
    · simpa only [kept] using recorded
    · simp [returned] at top
  | step before next ih => exact tabled_step lifted unique ih next

end Bleach
