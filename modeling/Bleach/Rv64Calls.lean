import Bleach.Base.Lockstep
import Bleach.Base.StaleMemory
import Bleach.LoadStore
import Bleach.Rv64

/-! Functions of RV64 that call each other. A call leaves its return address in `x1`, from where it
may be saved and restored; what is computed from return addresses is followed through registers and
memory, and nothing else of the machine depends on it. -/
namespace Rv64
open Bleach.Templates (spread_word)
open ByteMemory (Memory AgreeOff marked someStale)
open Transition (guarded)

/-- An instruction of a function, or `jal x1` to another one. -/
inductive CallInstr where
  | own (i : Instr)
  | call (disp : Int)
  deriving DecidableEq

abbrev CallFetch := Word → Option (CallInstr × Word)

/-- The machine, and how many calls it has not returned from: the addresses behind them. -/
structure CallState where
  state : State
  callers : List Word

/-- A return goes to where `x1` says, unless it leaves the function the machine was started in. -/
def callStep (fetch : CallFetch) (s : CallState) : Option CallState :=
  match s.state.place, s.callers with
  | .returned _, [] => none
  | .returned target, _ :: rest => some ⟨{ s.state with place := .running target }, rest⟩
  | .running pc, callers =>
    match fetch pc with
    | none => none
    | some (.own i, next) => some ⟨i.exec pc next s.state.x s.state.mem, callers⟩
    | some (.call disp, next) =>
      some ⟨⟨.running (pc + .ofInt 64 disp), s.state.x.set 1 next, s.state.mem⟩, next :: callers⟩

/-- The registers and bytes computed from return addresses. -/
structure Links where
  regs : Reg → Bool
  bytes : Word → Bool

namespace Links

def none : Links := ⟨fun _ => false, fun _ => false⟩

def set (L : Links) (rd : Reg) (s : Bool) : Links where
  regs := if rd = 0 then L.regs else Function.update L.regs rd s
  bytes := L.bytes

end Links

/-- What an instruction computes from them. -/
def Instr.links (x : Registers) (L : Links) : Instr → Links
  | .arith _ rd _ _ | .lui rd _ => L.set rd false
  | .arithImm _ rd rs1 _ => L.set rd (L.regs rs1)
  | .load op rd rs1 imm => L.set rd (someStale L.bytes (x.val rs1 + .ofInt 64 imm) op.size)
  | .store op rs2 rs1 imm =>
    { L with bytes := marked L.bytes (x.val rs1 + .ofInt 64 imm) op.size (L.regs rs2) }
  | .branch .. | .jump _ | .ret => L

/-- An instruction adds immediates to return addresses, saves and restores them. -/
def Instr.Discreet (L : Links) : Instr → Prop
  | .arith _ _ rs1 rs2 | .branch _ rs1 rs2 _ => L.regs rs1 = false ∧ L.regs rs2 = false
  | .load _ _ rs1 _ | .store _ _ rs1 _ => L.regs rs1 = false
  | .arithImm .. | .lui .. | .jump _ | .ret => True

/-- The machine with what its return addresses have got into. -/
structure Traced where
  machine : CallState
  links : Links

/-- What the next step computes from return addresses. -/
def Traced.linksBehind (fetch : CallFetch) (t : Traced) : Links :=
  match t.machine.state.place with
  | .returned _ => t.links
  | .running pc =>
    match fetch pc with
    | none => t.links
    | some (.own i, _) => i.links t.machine.state.x t.links
    | some (.call _, _) => t.links.set 1 true

def tracedStep (fetch : CallFetch) (t : Traced) : Option Traced :=
  (callStep fetch t.machine).map fun s => ⟨s, t.linksBehind fetch⟩

/-- The instruction at an address, if it is no call. -/
def ownAt (fetch : CallFetch) (pc : Word) : Option Instr :=
  match fetch pc with
  | some (.own i, _) => some i
  | _ => none

/-- The instruction the machine is in front of divides as it may. -/
def DefinedCall (fetch : CallFetch) (t : Traced) : Prop :=
  match t.machine.state.place with
  | .returned _ => True
  | .running pc => ∀ i ∈ ownAt fetch pc, i.Divisible t.machine.state.x

instance (fetch : CallFetch) : DecidablePred (DefinedCall fetch)
  | ⟨⟨⟨.returned _, _, _⟩, _⟩, _⟩ => instDecidableTrue
  | ⟨⟨⟨.running pc, x, _⟩, _⟩, _⟩ => inferInstanceAs (Decidable (∀ i ∈ ownAt fetch pc, i.Divisible x))

instance (L : Links) (i : Instr) : Decidable (i.Discreet L) :=
  match i with
  | .arith .. | .branch .. => inferInstanceAs (Decidable (_ ∧ _))
  | .load .. | .store .. => inferInstanceAs (Decidable (_ = _))
  | .arithImm .. | .lui .. | .jump _ | .ret => instDecidableTrue

/-- The machine accesses what it may, computes nothing but return addresses from return addresses, and
returns behind its calls. -/
def Lawful (access : Access) (fetch : CallFetch) (t : Traced) : Prop :=
  match t.machine.state.place with
  | .returned target => ∀ next ∈ t.machine.callers.head?, target = next
  | .running pc =>
    ∀ i ∈ ownAt fetch pc, i.Accesses access t.machine.state.x ∧ i.Discreet t.links

instance (access : Access) (fetch : CallFetch) : DecidablePred (Lawful access fetch)
  | ⟨⟨⟨.returned target, _, _⟩, callers⟩, _⟩ =>
    inferInstanceAs (Decidable (∀ next ∈ callers.head?, target = next))
  | ⟨⟨⟨.running pc, x, _⟩, _⟩, L⟩ =>
    inferInstanceAs (Decidable (∀ i ∈ ownAt fetch pc, i.Accesses access x ∧ i.Discreet L))

/-- Registers that differ in return addresses alone. -/
def Registers.AgreeOff (L : Links) (x y : Registers) : Prop := ∀ r, L.regs r = false → x.val r = y.val r

theorem Registers.AgreeOff.set {L : Links} {x y : Registers} (same : x.AgreeOff L y) (rd : Reg)
    {v v' : Word} {s : Bool} (value : s = false → v = v') :
    (x.set rd v).AgreeOff (L.set rd s) (y.set rd v') := by
  intro r fresh
  rw [Registers.set_val, Registers.set_val]
  by_cases zero : rd = 0
  · simp only [Links.set, zero, if_true] at fresh
    simpa [zero] using same r fresh
  · simp only [Links.set, zero, if_false] at fresh
    by_cases here : r = rd
    · subst here
      rw [Function.update_self] at fresh
      simp [zero, value fresh]
    · rw [Function.update_of_ne here] at fresh
      simpa [here] using same r fresh

/-- Registers agree behind a call whether it leaves its return address or not. -/
theorem Registers.AgreeOff.link {L : Links} {x y : Registers} (same : x.AgreeOff L y) (next : Word) :
    (x.set 1 next).AgreeOff (L.set 1 true) y := by
  intro r fresh
  have one : (1 : Reg) ≠ 0 := by decide
  simp only [Links.set, one, if_false] at fresh
  have other : r ≠ 1 := by
    rintro rfl
    simp at fresh
  rw [Function.update_of_ne other] at fresh
  simpa [Registers.set_val, other] using same r fresh

/-- Two machines in front of one address, or behind a return to wherever, that differ in return
addresses alone. -/
inductive SameOff (L : Links) : State → State → Prop where
  | running {pc x y mem mem'} (same : x.AgreeOff L y) (agree : AgreeOff L.bytes mem mem') :
      SameOff L ⟨.running pc, x, mem⟩ ⟨.running pc, y, mem'⟩
  | returned {target target' x y mem mem'} (same : x.AgreeOff L y) (agree : AgreeOff L.bytes mem mem') :
      SameOff L ⟨.returned target, x, mem⟩ ⟨.returned target', y, mem'⟩

namespace Instr
variable {L : Links} {x y : Registers} {mem mem' : Memory Word} {i : Instr}

/-- An instruction does the same with other return addresses. -/
theorem exec_same (same : x.AgreeOff L y) (agree : AgreeOff L.bytes mem mem') (discreet : i.Discreet L)
    (pc next : Word) : SameOff (i.links x L) (i.exec pc next x mem) (i.exec pc next y mem') := by
  cases i with
  | arith op rd a b =>
    refine .running (same.set rd fun _ => ?_) agree
    rw [same a discreet.1, same b discreet.2]
  | arithImm op rd a v => exact .running (same.set rd fun fresh => by rw [same a fresh]) agree
  | lui rd v => exact .running (same.set rd fun _ => rfl) agree
  | load op rd a v =>
    refine .running (same.set rd fun fresh => ?_) agree
    rw [← same a discreet]
    cases op with
    | LD => exact agree.load fresh
    | LW => exact congrArg (BitVec.signExtend 64) (agree.load fresh : ByteMemory.load mem _ 4 = _)
  | store op b a v =>
    simp only [exec, ← same a discreet]
    refine .running same ?_
    cases op with
    | SD => exact agree.store (spread_word _ (by decide)) fun fresh => same b fresh
    | SW => exact agree.store (spread_word _ (by decide)) fun fresh => by rw [same b fresh]
  | branch op a b disp =>
    obtain ⟨left, right⟩ := discreet
    simp only [exec, same a left, same b right]
    exact .running same agree
  | jump disp => exact .running same agree
  | ret => exact .returned same agree

theorem divisible_same (same : x.AgreeOff L y) (discreet : i.Discreet L) : i.Divisible x ↔ i.Divisible y := by
  cases i with
  | arith op rd a b => simp only [Divisible, same a discreet.1, same b discreet.2]
  | arithImm | lui | load | store | branch | jump | ret => exact Iff.rfl

theorem accesses_same {access : Access} (same : x.AgreeOff L y) (discreet : i.Discreet L)
    (accesses : i.Accesses access x) : i.Accesses access y := by
  cases i with
  | load op rd a v =>
    simp only [Accesses, ← same a discreet]
    exact accesses
  | store op b a v =>
    simp only [Accesses, ← same a discreet]
    exact accesses
  | arith | arithImm | lui | branch | jump | ret => trivial

end Instr

section
variable {fetch : CallFetch} {x : Registers} {mem : Memory Word} {callers : List Word} {L : Links}
  {pc next : Word}

theorem guarded_own {i : Instr} (fetched : fetch pc = some (.own i, next)) :
    guarded (DefinedCall fetch) (tracedStep fetch) ⟨⟨⟨.running pc, x, mem⟩, callers⟩, L⟩ =
      if i.Divisible x then some ⟨⟨i.exec pc next x mem, callers⟩, i.links x L⟩ else none := by
  have defined : DefinedCall fetch ⟨⟨⟨.running pc, x, mem⟩, callers⟩, L⟩ ↔ i.Divisible x := by
    simp [DefinedCall, ownAt, fetched]
  rw [guarded]
  simp only [defined, tracedStep, callStep, Traced.linksBehind, fetched, Option.map_some]

theorem guarded_call {disp : Int} (fetched : fetch pc = some (.call disp, next)) :
    guarded (DefinedCall fetch) (tracedStep fetch) ⟨⟨⟨.running pc, x, mem⟩, callers⟩, L⟩ =
      some ⟨⟨⟨.running (pc + .ofInt 64 disp), x.set 1 next, mem⟩, next :: callers⟩, L.set 1 true⟩ := by
  have defined : DefinedCall fetch ⟨⟨⟨.running pc, x, mem⟩, callers⟩, L⟩ := by
    simp [DefinedCall, ownAt, fetched]
  rw [guarded, if_pos defined]
  simp only [tracedStep, callStep, Traced.linksBehind, fetched, Option.map_some]

end

end Rv64
