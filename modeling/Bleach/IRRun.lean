import Bleach.IRExec

/-! Runs of lifted modules: what a step can do, and where a frame can stand. -/
namespace Bleach
open Transition
variable {W : Type} {w : Nat → Nat} {M : IRModule W}

/-- Everything a step can do. -/
inductive Stepped (M : IRModule W) : Config M.widths W → Config M.widths W → Prop where
  | plain {fr rest shared i code d} (at_ : fr.code = i :: code)
      (done : execInst M (fr.data shared) i = some d) :
      Stepped M ⟨fr :: rest, shared⟩ ⟨{ fr with code := code }.withData d :: rest, d.shared⟩
  | ret {fr rest shared code} (at_ : fr.code = .retVoid :: code) :
      Stepped M ⟨fr :: rest, shared⟩ ⟨rest, shared⟩
  | jump {fr rest shared i code dest blocks} (at_ : fr.code = i :: code) (target : dest ∈ i.targets)
      (body : M.body fr.func = some blocks) :
      Stepped M ⟨fr :: rest, shared⟩ ⟨{ fr with label := dest, code := blocks dest } :: rest, shared⟩
  | enter {fr rest shared i code g blocks} (at_ : fr.code = i :: code)
      (calls : i = .call g ∨ ∃ v, i = .callPtr v ∧ fr.env v = some (.func g))
      (body : M.body g = some blocks) :
      Stepped M ⟨fr :: rest, shared⟩
        ⟨M.entryFrame g blocks :: { fr with code := code } :: rest, shared⟩

theorem stepped {c c' : Config M.widths W} (done : M.step c = some c') : Stepped M c c' := by
  obtain ⟨frames, shared⟩ := c
  cases frames with
  | nil => cases done
  | cons fr rest =>
    cases code : fr.code with
    | nil => simp [IRModule.step, code] at done
    | cons i later =>
      cases i with
      | retVoid =>
        rw [IRModule.step_ret code] at done
        exact Option.some.inj done ▸ .ret code
      | br dest =>
        simp only [IRModule.step, code, IRModule.jump, Option.map_map, Option.map_eq_some_iff] at done
        obtain ⟨blocks, body, rfl⟩ := done
        exact .jump code (by simp [Inst.targets]) body
      | condBr cond ifTrue ifFalse =>
        simp only [IRModule.step, code, IRModule.jump] at done
        obtain ⟨v, -, done⟩ := Option.bind_eq_some_iff.mp done
        by_cases width : v.width = 1
        · rw [if_pos width] at done
          obtain ⟨fr', jumped, done⟩ := Option.bind_eq_some_iff.mp done
          obtain ⟨blocks, body, rfl⟩ := Option.map_eq_some_iff.mp jumped
          refine Option.some.inj done ▸ .jump code ?_ body
          split_ifs <;> simp [Inst.targets]
        · simp [width] at done
      | call g =>
        simp only [IRModule.step, code, IRModule.enter, Option.map_eq_some_iff] at done
        obtain ⟨blocks, body, rfl⟩ := done
        exact .enter code (.inl rfl) body
      | callPtr v =>
        simp only [IRModule.step, code, IRModule.enter] at done
        split at done
        · next g found =>
          obtain ⟨blocks, body, rfl⟩ := Option.map_eq_some_iff.mp done
          exact .enter code (.inr ⟨v, rfl, found⟩) body
        · cases done
      | _ =>
        simp only [IRModule.step, code] at done
        obtain ⟨d, one, done⟩ := Option.bind_eq_some_iff.mp done
        exact Option.some.inj done ▸ .plain code one

/-- A plain instruction is executed in place. -/
theorem stepped_plain {fr : Frame M.widths} {rest : List (Frame M.widths)} {shared : Shared M.widths W}
    {code : List Inst} {i : Inst} (at_ : fr.code = i :: code) (plain : i.isPlain = true)
    {c : Config M.widths W} (done : M.step ⟨fr :: rest, shared⟩ = some c) :
    ∃ d, execInst M (fr.data shared) i = some d ∧
      c = ⟨⟨fr.func, fr.label, code, d.env, d.locals⟩ :: rest, d.shared⟩ := by
  cases stepped done with
  | plain at' one =>
    obtain ⟨rfl, rfl⟩ := List.cons.inj (at_.symm.trans at')
    exact ⟨_, one, rfl⟩
  | ret at' =>
    obtain ⟨rfl, -⟩ := List.cons.inj (at_.symm.trans at')
    cases plain
  | jump at' target body =>
    obtain ⟨rfl, -⟩ := List.cons.inj (at_.symm.trans at')
    cases i <;> simp_all [Inst.isPlain, Inst.targets]
  | enter at' calls body =>
    obtain ⟨rfl, -⟩ := List.cons.inj (at_.symm.trans at')
    obtain rfl | ⟨v, rfl, -⟩ := calls <;> cases plain

/-- The frame stands behind `pre` in a block of its function, and nothing in front
of it returns. -/
def Frame.Inside (M : IRModule W) (fr : Frame w) (pre : List Inst) : Prop :=
  ∃ blocks, M.body fr.func = some blocks ∧ blocks fr.label = pre ++ fr.code ∧ .retVoid ∉ pre

theorem inside_entry {g : FuncId} {blocks : Label → List Inst} (body : M.body g = some blocks) :
    (M.entryFrame g blocks).Inside M [] := ⟨blocks, body, rfl, by simp⟩

theorem Frame.Inside.next {fr : Frame w} {pre : List Inst} {i : Inst} {code : List Inst}
    (inside : fr.Inside M pre) (at_ : fr.code = i :: code) (noRet : i ≠ .retVoid) (env : Env)
    (locals : Locals w) :
    Frame.Inside M ⟨fr.func, fr.label, code, env, locals⟩ (pre ++ [i]) := by
  obtain ⟨blocks, body, split, before⟩ := inside
  refine ⟨blocks, body, ?_, ?_⟩
  · rw [split, at_]
    simp
  · simp [before, Ne.symm noRet]

/-- Some frame above `rest` is still active. -/
def Config.On (rest : List (Frame w)) (c : Config w W) : Prop := rest.length < c.frames.length

/-- The history of a frame that sits on `rest`: where it stands in `save`, it has
walked straight through `save` from its start; while it waits it stands behind a call. -/
def Walked (M : IRModule W) (save : List Inst) (rest : List (Frame M.widths))
    (start c : Config M.widths W) : Prop :=
  ∃ upper fr pre, c.frames = upper ++ fr :: rest ∧ fr.Inside M pre ∧
    (upper ≠ [] → ∃ before i, pre = before ++ [i] ∧ i.isPlain = false) ∧
    (upper = [] → ∀ before past todo tail, pre = before ++ past → save = past ++ todo →
      fr.code = todo ++ .retVoid :: tail →
      ∃ c₀ fr₀, Within M.step (Config.On rest) start c₀ ∧
        c₀.frames = fr₀ :: rest ∧ fr₀.code = save ++ .retVoid :: tail ∧
        iterate M.step past.length c₀ = some c)

theorem walked_step {save : List Inst} (plain : ∀ i ∈ save, i.isPlain = true)
    {rest : List (Frame M.widths)} {start c c' : Config M.widths W}
    (reached : Within M.step (Config.On rest) start c')
    (walked : Walked M save rest start c) (done : M.step c = some c')
    (above : c'.On rest) : Walked M save rest start c' := by
  obtain ⟨upper, fr, pre, frames, inside, waiting, walking⟩ := walked
  -- standing at the start of `save` is a history of its own
  have fresh : ∀ fr', c'.frames = fr' :: rest → ∀ tail, fr'.code = save ++ .retVoid :: tail →
      ∃ c₀ fr₀, Within M.step (Config.On rest) start c₀ ∧
        c₀.frames = fr₀ :: rest ∧ fr₀.code = save ++ .retVoid :: tail ∧
        iterate M.step 0 c₀ = some c' :=
    fun fr' top tail code => ⟨c', fr', reached, top, code, rfl⟩
  cases upper with
  | nil =>
    cases stepped done with
    | @plain fr₁ rest₁ shared i code d at_ one =>
      obtain ⟨rfl, rfl⟩ := List.cons.inj frames
      have straight := execInst_plain one
      refine ⟨[], _, pre ++ [i], rfl, inside.next at_ (by rintro rfl; cases straight) _ _,
        by simp, fun _ before past todo tail split whole code' => ?_⟩
      obtain rfl | ⟨past', j, rfl⟩ := List.eq_nil_or_concat' past
      · exact fresh _ rfl tail (by simpa [whole] using code')
      · rw [← List.append_assoc] at split
        obtain ⟨rfl, same⟩ := List.append_inj' split rfl
        obtain rfl : i = j := by simpa using same
        obtain ⟨c₀, fr₀, path, top, code₀, steps⟩ := walking rfl before past' (i :: todo) tail rfl
          (by simpa using whole) (by rw [at_]; simpa [Frame.withData] using code')
        refine ⟨c₀, fr₀, path, top, code₀, ?_⟩
        rw [List.length_append, iterate_add, steps]
        simp [iterate_succ, done]
    | ret at_ =>
      obtain ⟨rfl, rfl⟩ := List.cons.inj frames
      simp [Config.On] at above
    | jump at_ target body =>
      obtain ⟨rfl, rfl⟩ := List.cons.inj frames
      refine ⟨[], _, [], rfl, ⟨_, body, rfl, by simp⟩, by simp, fun _ before past todo tail split
        whole code' => ?_⟩
      obtain ⟨rfl, rfl⟩ := List.append_eq_nil_iff.mp split.symm
      exact fresh _ rfl tail (by simpa [whole] using code')
    | @enter fr₁ rest₁ shared i code g blocks at_ calls body =>
      obtain ⟨rfl, rfl⟩ := List.cons.inj frames
      have call : i.isPlain = false ∧ i ≠ .retVoid := by
        obtain rfl | ⟨v, rfl, -⟩ := calls <;> simp [Inst.isPlain]
      exact ⟨[_], _, pre ++ [i], rfl, inside.next at_ call.2 _ _,
        fun _ => ⟨pre, i, rfl, call.1⟩, by simp⟩
  | cons top upper =>
    obtain ⟨before₀, call, rfl, control⟩ := waiting (by simp)
    cases stepped done with
    | plain at_ one =>
      obtain ⟨rfl, rfl⟩ := List.cons.inj frames
      exact ⟨_ :: upper, fr, _, rfl, inside, fun _ => ⟨before₀, call, rfl, control⟩, by simp⟩
    | ret at_ =>
      obtain ⟨rfl, rfl⟩ := List.cons.inj frames
      refine ⟨upper, fr, _, rfl, inside, fun _ => ⟨before₀, call, rfl, control⟩,
        fun emptied before past todo tail split whole code' => ?_⟩
      subst emptied
      obtain rfl | ⟨past', j, rfl⟩ := List.eq_nil_or_concat' past
      · exact fresh _ rfl tail (by simpa [whole] using code')
      · -- the call in front of the frame would be an instruction of `save`
        rw [← List.append_assoc] at split
        obtain ⟨-, same⟩ := List.append_inj' split rfl
        obtain rfl : call = j := by simpa using same
        have inSave := plain call (by simp [whole])
        simp [inSave] at control
    | jump at_ target body =>
      obtain ⟨rfl, rfl⟩ := List.cons.inj frames
      exact ⟨_ :: upper, fr, _, rfl, inside, fun _ => ⟨before₀, call, rfl, control⟩, by simp⟩
    | enter at_ calls body =>
      obtain ⟨rfl, rfl⟩ := List.cons.inj frames
      exact ⟨_ :: _ :: upper, fr, _, rfl, inside, fun _ => ⟨before₀, call, rfl, control⟩, by simp⟩

/-- Where every first return of a block is preceded by `save`, a function returns
only by walking through `save`. -/
theorem returns_through {save : List Inst} (plain : ∀ i ∈ save, i.isPlain = true)
    (saves : ∀ {f blocks l pre tail}, M.body f = some blocks → blocks l = pre ++ .retVoid :: tail →
      .retVoid ∉ pre → ∃ before, pre = before ++ save)
    {g : FuncId} {blocks : Label → List Inst} (body : M.body g = some blocks)
    {rest : List (Frame M.widths)} {shared : Shared M.widths W} {c : Config M.widths W}
    (run : Within M.step (Config.On rest)
      ⟨M.entryFrame g blocks :: rest, shared⟩ c)
    {fr : Frame M.widths} {tail : List Inst} (top : c.frames = fr :: rest)
    (ret : fr.code = .retVoid :: tail) :
    ∃ c₀ fr₀, Within M.step (Config.On rest)
        ⟨M.entryFrame g blocks :: rest, shared⟩ c₀ ∧
      c₀.frames = fr₀ :: rest ∧ fr₀.code = save ++ .retVoid :: tail ∧
      iterate M.step save.length c₀ = some c := by
  let start : Config M.widths W := ⟨M.entryFrame g blocks :: rest, shared⟩
  have initial : Walked M save rest start start := by
    refine ⟨[], _, [], rfl, inside_entry body, by simp, fun _ before past todo tail split whole
      code => ?_⟩
    obtain ⟨rfl, rfl⟩ := List.append_eq_nil_iff.mp split.symm
    exact ⟨start, _, .refl (by simp [start, Config.On]), rfl, by simpa [whole] using code, rfl⟩
  have walked : Within M.step (Config.On rest) start c ∧
      Walked M save rest start c := by
    have here : start.On rest := by simp [start, Config.On]
    refine run.invariant
      (Q := fun c => Within M.step (Config.On rest) start c ∧ Walked M save rest start c)
      (fun _ above held done => ?_) ⟨.refl here, initial⟩
    have reached := held.1.snoc done above
    exact ⟨reached, walked_step plain reached held.2 done above⟩
  obtain ⟨upper, fr', pre, frames, inside, -, walking⟩ := walked.2
  obtain rfl : upper = [] := by
    rw [top] at frames
    simpa using congrArg List.length frames
  obtain ⟨rfl, -⟩ := List.cons.inj (top.symm.trans frames)
  obtain ⟨blocks', body', split, noRet⟩ := inside
  rw [ret] at split
  obtain ⟨before, rfl⟩ := saves body' split noRet
  exact walking rfl before save [] tail rfl (by simp) (by simpa using ret)

theorem mem_live {pre code : List Inst} {i : Inst} (before : ∀ j ∈ pre, j.isTerminator = false)
    (other : i.isTerminator = false) : i ∈ live (pre ++ i :: code) := by
  rw [live, List.takeWhile_append_of_pos (by simpa using before),
    List.takeWhile_cons_of_pos (by simp [other])]
  simp

/-- The frame has not passed the end of its block, and its values come from
instructions of the function that can be executed. -/
structure Frame.Grounded (M : IRModule W) (fr : Frame w) : Prop where
  inside : ∃ blocks pre, M.body fr.func = some blocks ∧ blocks fr.label = pre ++ fr.code ∧
    ∀ j ∈ pre, j.isTerminator = false
  values : ∀ {blocks id}, M.body fr.func = some blocks → (fr.env id).isSome = true →
    ∃ l, ∃ i ∈ live (blocks l), i.dst? = some id

def Config.Grounded (M : IRModule W) (c : Config w W) : Prop := ∀ fr ∈ c.frames, fr.Grounded M

/-- The variable an instruction writes. -/
def Inst.writes? : Inst → Option Cell
  | .alloca c => some c
  | .store _ (.cell c) => some c
  | _ => none

/-- An instruction changes what it names and nothing else. -/
structure Framed (i : Inst) (d d' : Data w W) : Prop where
  env : ∀ {id}, i.dst? ≠ some id → d'.env id = d.env id
  locals : ∀ {c}, i.writes? ≠ some c → d'.locals c = d.locals c
  stack : i.stackIndex? = none → d'.shared.stack = d.shared.stack
  symtab : (∀ a g, i ≠ .symtabAdd a g) → d'.shared.symtab = d.shared.symtab

/-- So it does if all it does is define its value. -/
theorem framed_bind {i : Inst} {dst : ValueId} (defines : i.dst? = some dst) (d : Data w W)
    (v : RuntimeValue) : Framed i d (d.bind dst v) :=
  ⟨fun other => Function.update_of_ne (by rintro rfl; exact other defines) .., fun _ => rfl,
    fun _ => rfl, fun _ => rfl⟩

theorem framed_local {i : Inst} {c : Cell} (writes : i.writes? = some c) (d : Data w W)
    (v : BitVec (w c.cls)) : Framed i d { d with locals := Function.update d.locals c v } :=
  ⟨fun _ => rfl, fun other => Function.update_of_ne (by rintro rfl; exact other writes) ..,
    fun _ => rfl, fun _ => rfl⟩

theorem exec_framed {d d' : Data M.widths W} {i : Inst} (done : execInst M d i = some d') :
    Framed i d d' := by
  cases i with
  | load dst width src =>
    obtain ⟨v, -, done⟩ := Option.bind_eq_some_iff.mp done
    exact Option.some.inj done ▸ framed_bind rfl d _
  | store val dst =>
    obtain ⟨v, -, done⟩ := Option.bind_eq_some_iff.mp done
    cases dst with
    | cell c =>
      obtain ⟨new, -, done⟩ := Option.bind_eq_some_iff.mp done
      exact Option.some.inj done ▸ framed_local rfl d _
    | slot s =>
      obtain ⟨new, -, done⟩ := Option.bind_eq_some_iff.mp done
      exact Option.some.inj done ▸ ⟨fun _ => rfl, fun _ => rfl, fun _ => rfl, fun _ => rfl⟩
    | stack idx =>
      obtain ⟨i, -, done⟩ := Option.bind_eq_some_iff.mp done
      obtain ⟨addr, -, done⟩ := Option.bind_eq_some_iff.mp done
      exact Option.some.inj done ▸ ⟨fun _ => rfl, fun _ => rfl, nofun, fun _ => rfl⟩
  | sextOrTrunc dst val width =>
    obtain ⟨v, -, done⟩ := Option.bind_eq_some_iff.mp done
    exact Option.some.inj done ▸ framed_bind rfl d _
  | add dst lhs rhs =>
    obtain ⟨a, -, done⟩ := Option.bind_eq_some_iff.mp done
    obtain ⟨b, -, done⟩ := Option.bind_eq_some_iff.mp done
    split_ifs at done
    exact Option.some.inj done ▸ framed_bind rfl d _
  | callInstr dst name args =>
    obtain ⟨f, -, done⟩ := Option.bind_eq_some_iff.mp done
    obtain ⟨vs, -, done⟩ := Option.bind_eq_some_iff.mp done
    split_ifs at done
    all_goals
      obtain ⟨⟨r, world⟩, -, done⟩ := Option.bind_eq_some_iff.mp done
      obtain rfl := Option.some.inj done
    · exact ⟨fun _ => rfl, fun _ => rfl, fun _ => rfl, fun _ => rfl⟩
    · exact ⟨fun other => Function.update_of_ne (fun same => other (congrArg some same.symm)) ..,
        fun _ => rfl, fun _ => rfl, fun _ => rfl⟩
  | symtabLookup dst addr =>
    obtain ⟨a, -, done⟩ := Option.bind_eq_some_iff.mp done
    obtain ⟨f, -, done⟩ := Option.bind_eq_some_iff.mp done
    exact Option.some.inj done ▸ framed_bind rfl d _
  | alloca c => exact Option.some.inj done ▸ framed_local rfl d _
  | symtabAdd addr f =>
    exact Option.some.inj done ▸ ⟨fun _ => rfl, fun _ => rfl, fun _ => rfl,
      fun other => absurd rfl (other addr f)⟩
  | _ => cases done

theorem exec_slot {d d' : Data M.widths W} {i : Inst} (done : execInst M d i = some d') {s : Slot}
    (other : ∀ v, i ≠ .store v (.slot s)) : d'.shared.slots s = d.shared.slots s := by
  cases i with
  | store val dst =>
    obtain ⟨v, -, done⟩ := Option.bind_eq_some_iff.mp done
    cases dst with
    | cell c =>
      obtain ⟨new, -, done⟩ := Option.bind_eq_some_iff.mp done
      exact Option.some.inj done ▸ rfl
    | slot s' =>
      obtain ⟨new, -, done⟩ := Option.bind_eq_some_iff.mp done
      have apart : s ≠ s' := fun same => other val (same ▸ rfl)
      exact Option.some.inj done ▸ Function.update_of_ne apart ..
    | stack idx =>
      obtain ⟨i, -, done⟩ := Option.bind_eq_some_iff.mp done
      obtain ⟨addr, -, done⟩ := Option.bind_eq_some_iff.mp done
      exact Option.some.inj done ▸ rfl
  | load dst width src =>
    obtain ⟨v, -, done⟩ := Option.bind_eq_some_iff.mp done
    exact Option.some.inj done ▸ rfl
  | sextOrTrunc dst val width =>
    obtain ⟨v, -, done⟩ := Option.bind_eq_some_iff.mp done
    exact Option.some.inj done ▸ rfl
  | add dst lhs rhs =>
    obtain ⟨a, -, done⟩ := Option.bind_eq_some_iff.mp done
    obtain ⟨b, -, done⟩ := Option.bind_eq_some_iff.mp done
    split_ifs at done
    exact Option.some.inj done ▸ rfl
  | callInstr dst name args =>
    obtain ⟨f, -, done⟩ := Option.bind_eq_some_iff.mp done
    obtain ⟨vs, -, done⟩ := Option.bind_eq_some_iff.mp done
    split_ifs at done
    all_goals
      obtain ⟨⟨r, world⟩, -, done⟩ := Option.bind_eq_some_iff.mp done
      exact Option.some.inj done ▸ rfl
  | symtabLookup dst addr =>
    obtain ⟨a, -, done⟩ := Option.bind_eq_some_iff.mp done
    obtain ⟨f, -, done⟩ := Option.bind_eq_some_iff.mp done
    exact Option.some.inj done ▸ rfl
  | alloca c => exact Option.some.inj done ▸ rfl
  | symtabAdd addr f => exact Option.some.inj done ▸ rfl
  | _ => cases done

theorem grounded_entry {g : FuncId} {blocks : Label → List Inst} (body : M.body g = some blocks) :
    (M.entryFrame g blocks).Grounded M :=
  ⟨⟨blocks, [], body, rfl, by simp⟩, fun _ bound => by simp [IRModule.entryFrame] at bound⟩

theorem Frame.Grounded.next {fr : Frame w} {i : Inst} {code : List Inst} (grounded : fr.Grounded M)
    (at_ : fr.code = i :: code) (other : i.isTerminator = false) {env : Env}
    (same : ∀ id, i.dst? ≠ some id → env id = fr.env id) (locals : Locals w) :
    Frame.Grounded M ⟨fr.func, fr.label, code, env, locals⟩ := by
  obtain ⟨⟨blocks, pre, body, split, before⟩, values⟩ := grounded
  rw [at_] at split
  refine ⟨⟨blocks, pre ++ [i], body, by simp [split], by simpa [or_imp, forall_and] using
    ⟨before, other⟩⟩, fun {blocks' id} body' bound => ?_⟩
  obtain rfl := Option.some.inj (body.symm.trans body')
  by_cases here : i.dst? = some id
  · exact ⟨fr.label, i, split ▸ mem_live before other, here⟩
  · exact values body (same id here ▸ bound)

theorem grounded_step {c c' : Config M.widths W} (grounded : c.Grounded M)
    (done : M.step c = some c') : c'.Grounded M := by
  cases stepped done with
  | plain at_ one =>
    obtain ⟨here, rest⟩ := List.forall_mem_cons.mp grounded
    refine List.forall_mem_cons.mpr ⟨?_, rest⟩
    have straight := execInst_plain one
    exact here.next at_ (by cases ‹Inst› <;> simp_all [Inst.isPlain, Inst.isTerminator])
      (fun _ other => (exec_framed one).env other) _
  | ret at_ => exact (List.forall_mem_cons.mp grounded).2
  | jump at_ target body =>
    obtain ⟨here, rest⟩ := List.forall_mem_cons.mp grounded
    exact List.forall_mem_cons.mpr ⟨⟨⟨_, [], body, rfl, by simp⟩, here.values⟩, rest⟩
  | enter at_ calls body =>
    obtain ⟨here, rest⟩ := List.forall_mem_cons.mp grounded
    refine List.forall_mem_cons.mpr ⟨grounded_entry body, List.forall_mem_cons.mpr ⟨?_, rest⟩⟩
    obtain rfl | ⟨v, rfl, -⟩ := calls
    · exact here.next at_ rfl (fun _ _ => rfl) _
    · exact here.next at_ rfl (fun _ _ => rfl) _

end Bleach
