import Bleach.CallTrace

/-! No direct call is lost on a path of call instructions that are lifted as calls.
An activation of the lifted function is observed through the decisions its
conditional branches take and the functions it calls directly; both are read off
the run of the module. -/
namespace Bleach
open Transition
variable {W : Type} {w : Nat → Nat} {M : IRModule W}

/-- The frame on `rest` and its next instruction, while no frame is above it. -/
def Config.current (rest : List (Frame w)) (c : Config w W) : Option (Frame w × Inst) :=
  match c.frames with
  | fr :: below => if below.length = rest.length then fr.code.head?.map (fr, ·) else none
  | [] => none

/-- The decision the frame on `rest` takes with the next step. -/
def Config.decision? (rest : List (Frame w)) (c : Config w W) : Option Bool := do
  let (fr, i) ← c.current rest
  match i with
  | .condBr cond _ _ => (evalInt fr.env cond).map fun v => v.bits.toNat = 1
  | _ => none

/-- The function the frame on `rest` calls directly with the next step. -/
def Config.directCall? (rest : List (Frame w)) (c : Config w W) : Option FuncId := do
  let (_, i) ← c.current rest
  match i with
  | .call g => some g
  | _ => none

/-- A run during which the frame on `rest` stays active, with its decisions and its
direct calls. -/
inductive Activation (M : IRModule W) (rest : List (Frame M.widths)) :
    Config M.widths W → List Bool → List FuncId → Config M.widths W → Prop where
  | refl {c} (on : c.On rest) : Activation M rest c [] [] c
  | next {c c' decisions called c''} (on : c.On rest) (first : M.step c = some c')
      (later : Activation M rest c' decisions called c'') :
      Activation M rest c ((c.decision? rest).toList ++ decisions)
        ((c.directCall? rest).toList ++ called) c''

theorem Activation.start {rest : List (Frame M.widths)} {c c' : Config M.widths W}
    (run : Activation M rest c decisions called c') : c.On rest := by
  cases run with
  | refl on => exact on
  | next on _ _ => exact on

theorem current_top {fr : Frame w} {rest : List (Frame w)} {shared : Shared w W} {i : Inst}
    {code : List Inst} (at_ : fr.code = i :: code) :
    Config.current rest ⟨fr :: rest, shared⟩ = some (fr, i) := by
  simp [Config.current, at_]

theorem current_waiting {top fr : Frame w} {upper rest : List (Frame w)} {shared : Shared w W} :
    Config.current rest ⟨top :: (upper ++ fr :: rest), shared⟩ = none := by
  have deeper : (upper ++ fr :: rest).length ≠ rest.length := by
    simp only [List.length_append, List.length_cons]
    omega
  simp only [Config.current, if_neg deeper]

/-- A step of the frame itself is a step along its path. -/
theorem flow_top {fr : Frame M.widths} {rest : List (Frame M.widths)} {shared : Shared M.widths W}
    {c' : Config M.widths W} {blocks : Label → List Inst} (body : M.body fr.func = some blocks)
    (done : M.step ⟨fr :: rest, shared⟩ = some c') (on : c'.On rest) :
    ∃ upper fr', c'.frames = upper ++ fr' :: rest ∧ fr'.func = fr.func ∧ ∀ later callees,
      Reaches (flowStep blocks)
        ⟨some (fr.label, fr.code), (Config.decision? rest ⟨fr :: rest, shared⟩).toList ++ later, callees⟩
        ⟨some (fr'.label, fr'.code), later,
          callees ++ (Config.directCall? rest ⟨fr :: rest, shared⟩).toList⟩ := by
  cases stepped done with
  | plain at_ one =>
    have straight := execInst_plain one
    refine ⟨[], _, rfl, rfl, fun later callees => .single ?_⟩
    simp only [Config.decision?, Config.directCall?, current_top at_, at_]
    cases ‹Inst› <;> simp_all [Inst.isPlain, flowStep, Frame.withData]
  | ret at_ => simp [Config.On] at on
  | @jump _ _ _ i code dest _ at_ target body' =>
    obtain rfl := Option.some.inj (body.symm.trans body')
    refine ⟨[], _, rfl, rfl, fun later callees => .single ?_⟩
    simp only [Config.decision?, Config.directCall?, current_top at_, at_]
    cases i with
    | br _ =>
      obtain rfl := List.mem_singleton.mp target
      simp [flowStep]
    | condBr cond ifTrue ifFalse =>
      simp only [IRModule.step, at_, IRModule.jump, body] at done
      obtain ⟨v, value, done⟩ := Option.bind_eq_some_iff.mp done
      have one : v.width = 1 := by
        by_contra other
        simp [other] at done
      rw [if_pos one] at done
      obtain ⟨rfl, -⟩ : dest = (if v.bits.toNat = 1 then ifTrue else ifFalse) ∧ True := by
        simpa [eq_comm] using congrArg (fun c => c.frames.head?.map Frame.label)
          (Option.some.inj done)
      simp [flowStep, value]
    | _ => cases target
  | enter at_ calls body' =>
    refine ⟨[_], _, rfl, rfl, fun later callees => .single ?_⟩
    simp only [Config.decision?, Config.directCall?, current_top at_, at_]
    obtain rfl | ⟨v, rfl, -⟩ := calls <;> simp [flowStep]

theorem frame_waits {top fr : Frame M.widths} {upper rest : List (Frame M.widths)}
    {shared : Shared M.widths W} {c' : Config M.widths W}
    (done : M.step ⟨top :: (upper ++ fr :: rest), shared⟩ = some c') :
    ∃ upper', c'.frames = upper' ++ fr :: rest := by
  cases stepped done with
  | plain at_ one => exact ⟨_ :: upper, rfl⟩
  | ret at_ => exact ⟨upper, rfl⟩
  | jump at_ target body => exact ⟨_ :: upper, rfl⟩
  | enter at_ calls body => exact ⟨_ :: _ :: upper, rfl⟩

theorem Activation.flow {rest : List (Frame M.widths)} {c c' : Config M.widths W}
    {blocks : Label → List Inst} {decisions : List Bool} {called : List FuncId}
    (run : Activation M rest c decisions called c') {upper : List (Frame M.widths)}
    {fr : Frame M.widths} (frames : c.frames = upper ++ fr :: rest)
    (body : M.body fr.func = some blocks) :
    ∃ upper' fr', c'.frames = upper' ++ fr' :: rest ∧ ∀ later callees,
      Reaches (flowStep blocks) ⟨some (fr.label, fr.code), decisions ++ later, callees⟩
        ⟨some (fr'.label, fr'.code), later, callees ++ called⟩ := by
  induction run generalizing upper fr with
  | refl on => exact ⟨upper, fr, frames, fun later callees => by simpa using .refl _⟩
  | @next c c₁ decisions called c'' on first run ih =>
    obtain ⟨all, shared⟩ := c
    obtain rfl : all = _ := frames
    cases upper with
    | nil =>
      obtain ⟨upper₁, fr₁, frames₁, same, path⟩ := flow_top body first run.start
      obtain ⟨upper', fr', frames', later'⟩ := ih frames₁ (same ▸ body)
      refine ⟨upper', fr', frames', fun later callees => ?_⟩
      have steps := (path (decisions ++ later) callees).trans (later' later _)
      rwa [← List.append_assoc, List.append_assoc callees] at steps
    | cons top upper =>
      obtain ⟨upper₁, frames₁⟩ := frame_waits first
      obtain ⟨upper', fr', frames', later'⟩ := ih frames₁ body
      refine ⟨upper', fr', frames', fun later callees => ?_⟩
      simpa [Config.decision?, Config.directCall?, current_waiting] using later' later callees

theorem flow_callees {blocks : Label → List Inst} {s t : Trace (Label × List Inst)}
    (run : Reaches (flowStep blocks) s t) : s.callees <+: t.callees := by
  refine run.invariant (P := fun t => s.callees <+: t.callees) (fun {t u} before done => ?_)
    List.prefix_rfl
  apply before.trans
  unfold flowStep at done
  split at done
  · split at done
    · obtain rfl := Option.some.inj done
      exact List.prefix_rfl
    · obtain rfl := Option.some.inj done
      exact List.prefix_rfl
    · split at done
      · cases done
      · obtain rfl := Option.some.inj done
        exact List.prefix_rfl
    · obtain rfl := Option.some.inj done
      exact List.prefix_append ..
    · obtain rfl := Option.some.inj done
      exact List.prefix_rfl
  · cases done

variable {cx : Context W} {mfs : List MachineFunction} {mf : MachineFunction}
  {addrs : FunctionAddresses} {adds : List Inst} {fin : Builder}

/-- The lifted function follows every safe path of the machine function. -/
theorem catches_path (shape : WellShaped cx mf) (whole : finalBuilder cx mf addrs = .ok fin)
    (plain : Plain adds) (blocks : mf.blocks ≠ []) {decisions : List Bool}
    {m : Trace (BlockId × Nat)}
    (path : Within (pathStep cx mf) (PathSafe cx mf) ⟨some (0, 0), decisions, []⟩ m) :
    Catches cx mf addrs adds fin
      ⟨some (entryLabel, liftedBody cx adds fin entryLabel), decisions, []⟩ m := by
  refine path.invariant (Q := fun m => Catches cx mf addrs adds fin _ m)
    (fun safe _ caught done => ?_) ⟨_, .refl _, .inside (stands_start shape whole plain ?_)⟩
  · obtain ⟨f, reached, follows⟩ := caught
    exact .after reached (catches_step shape whole plain follows safe done)
  · exact List.length_pos_of_ne_nil blocks

/-- What an activation has called when its path of decisions has been followed to
`f`, from where nothing is left if the path returns. -/
theorem Activation.callees {rest : List (Frame M.widths)} {shared : Shared M.widths W} {g : FuncId}
    {blocks : Label → List Inst} (body : M.body g = some blocks) {c : Config M.widths W}
    {taken later : List Bool} {called : List FuncId}
    (run : Activation M rest ⟨M.entryFrame g blocks :: rest, shared⟩ taken called c)
    {f : Trace (Label × List Inst)} (reached : Reaches (flowStep blocks)
      ⟨some (entryLabel, blocks entryLabel), taken ++ later, []⟩ f) :
    (called <+: f.callees ∨ f.callees <+: called) ∧
    (f.place = none → called <+: f.callees ∧ ∀ fr tail, c.frames = fr :: rest →
      fr.code = .retVoid :: tail → called = f.callees) := by
  obtain ⟨upper, fr, frames, path⟩ := run.flow (show _ = [] ++ M.entryFrame g blocks :: rest from rfl) body
  have path : Reaches (flowStep blocks) ⟨some (entryLabel, blocks entryLabel), taken ++ later, []⟩
      ⟨some (fr.label, fr.code), later, called⟩ := path later []
  refine ⟨(path.linear reached).imp flow_callees flow_callees, fun left => ?_⟩
  have halted : flowStep blocks f = none := by simp [flowStep, left]
  have onward : Reaches (flowStep blocks) ⟨some (fr.label, fr.code), later, called⟩ f := by
    obtain onward | back := path.linear reached
    · exact onward
    · exact Reaches.of_halted halted back ▸ .refl _
  refine ⟨flow_callees onward, fun fr' tail top ret => ?_⟩
  obtain ⟨rfl, rfl⟩ : upper = [] ∧ fr = fr' := by
    have same := top.symm.trans frames
    cases upper with
    | nil => exact ⟨rfl, (List.cons.inj same).1.symm⟩
    | cons _ upper =>
      have depth := congrArg List.length same
      simp only [List.cons_append, List.length_cons, List.length_append] at depth
      omega
  have returns : Reaches (flowStep blocks) ⟨some (fr.label, fr.code), later, called⟩
      ⟨none, later, called⟩ := .single (by simp [flowStep, ret])
  obtain onward | back := returns.linear onward
  · exact (congrArg Trace.callees (Reaches.of_halted rfl onward)).symm
  · exact congrArg Trace.callees (Reaches.of_halted halted back)

/-- On a path whose call instructions are lifted as calls, the lifted function
meets the global callees of the call instructions, each once and in order, and
returns where the machine function returns. A run of the module that takes the
decisions of the path makes these direct calls. -/
theorem direct_calls_in_order {addrs : FuncId → FunctionAddresses} {finfo : Option FileInfo}
    {stackSize : Nat} {liftedPrefix : String} {f : FuncId} {blocks : Label → List Inst}
    (module : bleachModule cx mfs addrs finfo stackSize liftedPrefix = .ok M)
    (found : mfs[f]? = some mf) (body : M.body f = some blocks) (shape : WellShaped cx mf)
    {decisions : List Bool} {m : Trace (BlockId × Nat)}
    (path : Within (pathStep cx mf) (PathSafe cx mf) ⟨some (0, 0), decisions, []⟩ m) :
    (∃ f', Reaches (flowStep blocks) ⟨some (entryLabel, blocks entryLabel), decisions, []⟩ f' ∧
      f'.callees = m.callees ∧ f'.decisions = m.decisions ∧ (f'.place = none ↔ m.place = none)) ∧
    ∀ {rest shared taken called c later}, decisions = taken ++ later →
      Activation M rest ⟨M.entryFrame f blocks :: rest, shared⟩ taken called c →
      (called <+: m.callees ∨ m.callees <+: called) ∧
      (m.place = none → called <+: m.callees ∧ ∀ fr tail, c.frames = fr :: rest →
        fr.code = .retVoid :: tail → called = m.callees) := by
  obtain ⟨funcs, adds, -, lifted, -, -, -⟩ := lifted_of_bleachModule module
  obtain ⟨mf', fin, found', nonempty, whole, rfl⟩ := lifted.body body
  obtain rfl := Option.some.inj (found.symm.trans found')
  obtain ⟨f', reached, follows⟩ := catches_path shape whole lifted.plain_adds nonempty path
  have same : f'.callees = m.callees ∧ f'.decisions = m.decisions ∧
      (f'.place = none ↔ m.place = none) := by
    cases follows <;> simp
  refine ⟨⟨f', reached, same⟩, fun {rest shared taken called c later} split run => ?_⟩
  subst split
  rw [← same.1, ← same.2.2]
  exact run.callees body reached

namespace RiscV

def tailCaller : MachineFunction := ⟨"caller", [[tail 1]]⟩

def tailCall : List MachineFunction := [tailCaller, ⟨"leaf", [[ret]]⟩]

/-- A tail call in the form of a call that returns at once is lifted as a return. -/
theorem tailCall_lost :
    ¬∀ (m : Trace (BlockId × Nat)) (blocks : Label → List Inst),
      Reaches (pathStep context tailCaller) ⟨some (0, 0), [], []⟩ m →
      (module tailCall none).body 0 = some blocks →
      ∃ f', Reaches (flowStep blocks) ⟨some (entryLabel, blocks entryLabel), [], []⟩ f' ∧
        f'.callees = m.callees := by
  intro kept
  obtain ⟨blocks, body, returns⟩ : ∃ blocks, (module tailCall none).body 0 = some blocks ∧
      iterate (flowStep blocks) 31 ⟨some (entryLabel, blocks entryLabel), [], []⟩ =
        some ⟨none, [], []⟩ := ⟨_, rfl, rfl⟩
  obtain ⟨f', reached, callees⟩ := kept ⟨none, [], [1]⟩ blocks (.single rfl) body
  obtain onward | back := Reaches.linear ⟨31, returns⟩ reached
  · rw [Reaches.of_halted rfl onward] at callees
    cases callees
  · have grown := flow_callees back
    rw [callees] at grown
    simp at grown

def jumpTo (f : FuncId) : MachineInstr := ⟨PseudoBR, [.global f]⟩

def callsThenJumps : MachineFunction :=
  ⟨"caller", [[call 1, beq X10 X11 1], [call 2, jumpTo 1]]⟩

def safeCalls : List MachineFunction :=
  [callsThenJumps, ⟨"first", [[ret]]⟩, ⟨"second", [[ret]]⟩]

theorem callsThenJumps_safe (s : Trace (BlockId × Nat)) : PathSafe context callsThenJumps s := by
  rintro b i mbb minst - block here
  obtain ⟨inside, rfl⟩ := List.getElem?_eq_some_iff.mp block
  obtain ⟨inside', rfl⟩ := List.getElem?_eq_some_iff.mp here
  constructor
  all_goals
    revert i
    revert b
    decide

theorem callsThenJumps_in_order : ∃ blocks f', (module safeCalls none).body 0 = some blocks ∧
    Reaches (flowStep blocks) ⟨some (entryLabel, blocks entryLabel), [false], []⟩ f' ∧
    f'.callees = [1, 2, 1] ∧ f'.place = none := by
  have safe := callsThenJumps_safe
  have path : Within (pathStep context callsThenJumps) (PathSafe context callsThenJumps)
      ⟨some (0, 0), [false], []⟩ ⟨none, [], [1, 2, 1]⟩ :=
    .next (safe _) rfl (.next (safe _) rfl (.next (safe _) rfl (.next (safe _) rfl (.refl (safe _)))))
  obtain ⟨⟨f', reached, callees, -, left⟩, -⟩ := @direct_calls_in_order World (module safeCalls none)
    context safeCalls callsThenJumps (fun _ => none) none 64 "" 0 _ rfl rfl rfl
    (wellShaped_of_tails (by decide)) _ _ path
  exact ⟨_, f', rfl, reached, callees, left.mpr rfl⟩

end RiscV
end Bleach
