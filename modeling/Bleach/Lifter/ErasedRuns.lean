import Bleach.Base.Lockstep
import Bleach.Lifter.BranchEraser

/-! A module behind `redundant_branch_eraser` runs as it did before: what the pass erases of a block
is never executed. -/
namespace Bleach
open Transition
variable {W : Type} {w : Nat → Nat}

/-- Behind the pass a function has the kept code in its blocks. -/
def LiftedFunction.erased (f : LiftedFunction) : LiftedFunction :=
  { f with body := f.body.map redundantBranchEraser }

abbrev IRModule.erased (M : IRModule W) : IRModule W := { M with funcs := M.funcs.map LiftedFunction.erased }

def Frame.erased (fr : Frame w) : Frame w := { fr with code := keptCode fr.code }

def Config.erased (c : Config w W) : Config w W := { c with frames := c.frames.map Frame.erased }

namespace IRModule
variable {M : IRModule W}

@[simp] theorem body_erased (M : IRModule W) (f : FuncId) :
    M.erased.body f = (M.body f).map redundantBranchEraser := by
  simp only [body, List.getElem?_map]
  cases M.funcs[f]? <;> rfl

theorem body_erased_of {f : FuncId} {blocks : Label → List Inst} (body : M.body f = some blocks) :
    M.erased.body f = some (redundantBranchEraser blocks) := by
  rw [body_erased, body]
  rfl

/-- An instruction in front of the first conditional branch does what it did. -/
theorem execInst_erased (M : IRModule W) (d : Data M.widths W) (i : Inst) :
    execInst M.erased d i = execInst M d i := by
  cases i <;> rfl

theorem jump_erased (fr : Frame M.widths) (code : List Inst) (dest : Label) :
    M.erased.jump { fr.erased with code := code } dest = (M.jump fr dest).map Frame.erased := by
  have func : fr.erased.func = fr.func := rfl
  simp only [jump, body_erased, func, Option.map_map]
  rfl

theorem enter_erased (f : FuncId) (callers : List (Frame M.widths)) (shared : Shared M.widths W) :
    M.erased.enter f (callers.map Frame.erased) shared = (M.enter f callers shared).map Config.erased := by
  simp only [enter, body_erased, Option.map_map]
  rfl

theorem step_of_plain {fr : Frame M.widths} {rest : List (Frame M.widths)} {shared : Shared M.widths W}
    {i : Inst} {code : List Inst} (plain : i.isPlain = true) (at_ : fr.code = i :: code) :
    M.step ⟨fr :: rest, shared⟩ = (execInst M (fr.data shared) i).map fun d =>
      ⟨{ fr with code := code }.withData d :: rest, d.shared⟩ := by
  cases done : execInst M (fr.data shared) i with
  | none => cases i <;> simp_all [step, Inst.isPlain]
  | some d => exact step_plain at_ done

/-- One step of the module is one step behind the pass. -/
theorem step_erased (M : IRModule W) (c : Config M.widths W) :
    M.erased.step c.erased = (M.step c).map Config.erased := by
  obtain ⟨frames, shared⟩ := c
  cases frames with
  | nil => rfl
  | cons fr rest =>
    have kept : fr.erased.code = keptCode fr.code := rfl
    have env : fr.erased.env = fr.env := rfl
    have whole : Config.erased ⟨fr :: rest, shared⟩ = ⟨fr.erased :: rest.map Frame.erased, shared⟩ := rfl
    cases at_ : fr.code with
    | nil =>
      rw [at_] at kept
      simp [step, at_, kept, whole, keptCode]
    | cons i code =>
      rw [at_] at kept
      by_cases plain : i.isPlain = true
      · have kept : fr.erased.code = i :: keptCode code :=
          kept.trans (if_neg (by simp [Inst.not_condBr plain]))
        have erased : M.erased.step ⟨fr.erased :: rest.map Frame.erased, shared⟩ = _ := step_of_plain plain kept
        have data : fr.erased.data shared = fr.data shared := rfl
        rw [whole, erased, step_of_plain plain at_, execInst_erased, data]
        cases execInst M (fr.data shared) i <;> rfl
      · have jumps : ∀ code' dest, (M.erased.jump { fr.erased with code := code' } dest).map
            (fun fr' => Config.mk (fr' :: rest.map Frame.erased) shared) =
              ((M.jump { fr with code := code } dest).map fun fr' =>
                Config.mk (fr' :: rest) shared).map Config.erased := by
          intro code' dest
          have same : M.erased.jump { fr.erased with code := code' } dest = _ :=
            jump_erased { fr with code := code } code' dest
          rw [same]
          cases M.jump { fr with code := code } dest <;> rfl
        have enters : ∀ callee,
            M.erased.enter callee ({ fr.erased with code := keptCode code } :: rest.map Frame.erased) shared =
              (M.enter callee ({ fr with code := code } :: rest) shared).map Config.erased :=
          fun callee => enter_erased callee ({ fr with code := code } :: rest) shared
        cases i with
        | retVoid =>
          have kept : fr.erased.code = .retVoid :: keptCode code := kept
          simp only [whole, step, kept, at_]
          rfl
        | br dest =>
          have kept : fr.erased.code = .br dest :: keptCode code := kept
          simpa only [whole, step, kept, at_] using jumps (keptCode code) dest
        | condBr cond ifTrue ifFalse =>
          have kept : fr.erased.code = [.condBr cond ifTrue ifFalse] := kept
          simp only [whole, step, kept, at_, env]
          cases evalInt fr.env cond with
          | none => rfl
          | some v =>
            by_cases one : v.width = 1
            · simp only [Option.bind_eq_bind, Option.bind_some, if_pos one]
              have same := jumps [] (if v.bits.toNat = 1 then ifTrue else ifFalse)
              exact Option.map_eq_bind.symm.trans
                (same.trans (congrArg (Option.map Config.erased) Option.map_eq_bind))
            · simp [one]
        | call callee =>
          have kept : fr.erased.code = .call callee :: keptCode code := kept
          simpa only [whole, step, kept, at_] using enters callee
        | callPtr callee =>
          have kept : fr.erased.code = .callPtr callee :: keptCode code := kept
          simp only [whole, step, kept, at_, env]
          cases fr.env callee with
          | none => rfl
          | some v =>
            cases v with
            | int v => rfl
            | func f => exact enters f
        | alloca | load | store | sextOrTrunc | add | callInstr | symtabAdd | symtabLookup =>
          exact absurd rfl plain

end IRModule

variable {M : IRModule W} {c c' : Config M.widths W}

theorem erased_lockstep (M : IRModule W) :
    Lockstep M.step M.erased.step fun (c e : Config M.widths W) => e = c.erased := by
  rintro c _ rfl
  rw [M.step_erased]
  cases M.step c with
  | none => exact .none
  | some c' => exact .some rfl

theorem erased_halts (halts : Halts M.step c c') : Halts M.erased.step c.erased c'.erased := by
  obtain ⟨_, halts, rfl⟩ := (erased_lockstep M).halts rfl halts
  exact halts

/-- Wherever the erased module halts, the module halts. -/
theorem halts_of_erased {e : Config M.widths W} (halts : Halts M.erased.step c.erased e) :
    ∃ c', Halts M.step c c' ∧ e = c'.erased :=
  (erased_lockstep M).symm.halts rfl halts

/-- Nothing is behind a conditional branch of a kept block. -/
theorem keptCode_last (code : List Inst) : ∀ i ∈ (keptCode code).dropLast, i.isCondBr = false := by
  induction code with
  | nil => simp [keptCode]
  | cons i rest ih =>
    unfold keptCode
    split
    · simp
    · next plain =>
      cases kept : keptCode rest with
      | nil => simp
      | cons j later =>
        rw [kept] at ih
        rw [List.dropLast_cons_of_ne_nil (List.cons_ne_nil j later)]
        simpa [Bool.not_eq_true] using ⟨by simpa using plain, ih⟩

/-- The pass cuts every block at its first conditional branch and changes no run of any module: each
step is the same step, a run ends where it ended, and behind a call the caller goes on in what is
kept of its block. -/
theorem redundantBranchEraser_preserves (M : IRModule W) (c : Config M.widths W) :
    (∀ f blocks, M.erased.body f = some blocks → ∀ l, ∀ i ∈ (blocks l).dropLast, i.isCondBr = false) ∧
    (∀ n, iterate M.erased.step n c.erased = (iterate M.step n c).map Config.erased) ∧
    ∀ e, Halts M.erased.step c.erased e ↔ ∃ c', Halts M.step c c' ∧ e = c'.erased := by
  refine ⟨?_, ?_, ?_⟩
  · intro f blocks body l
    rw [IRModule.body_erased] at body
    obtain ⟨blocks', -, rfl⟩ := Option.map_eq_some_iff.mp body
    exact keptCode_last (blocks' l)
  · intro n
    induction n generalizing c with
    | zero => rfl
    | succ n ih =>
      rw [iterate_succ, iterate_succ, M.step_erased]
      cases M.step c with
      | none => rfl
      | some c' => exact ih c'
  · intro e
    refine ⟨halts_of_erased, ?_⟩
    rintro ⟨c', halts, rfl⟩
    exact erased_halts halts

end Bleach
