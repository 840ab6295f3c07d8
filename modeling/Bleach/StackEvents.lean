import Bleach.StackUnits

/-! What guests do with their stack, as a list of events for any register classes. The inline
stack has elements as wide as the widest class, and slots are counted from its low end: the first
slot below the base is slot 1. -/
namespace Bleach
variable {stats : RegisterStats} {spReg : Register} {stackSize : Nat}

/-- The number of elements `create_state_type` gives the stack array. -/
def stackElements (stats : RegisterStats) (stackSize : Nat) : Nat := stackSize / (largestRegsize stats / 8)

/-- Where a pointer into the stack is kept: a register, or a copy saved in memory. -/
inductive PointerPlace where
  | reg (r : Register)
  | saved (copy : Nat)
  deriving DecidableEq

/-- What a run does with the stack, in the order of execution, whatever functions it is in:
`ADDI` moves a pointer, a pointer is copied, a register is written in any other way, or
registers of some bytes are loaded or stored through a base. -/
inductive StackEvent where
  | adjust (rd rs : Register) (imm : Int)
  | copy (dst src : PointerPlace)
  | other (rd : Register) (slot depth : Int)
  | access (minst : MachineInstr) (base : Register) (bytes : Nat)

/-- A pointer into the stack: the slot lifted code has for it and how many bytes below the
base the guest has it. It is whole if only moves by whole slots have led to it. -/
structure StackPointer where
  slot : Int
  depth : Int
  whole : Bool

abbrev StackPointers : Type := PointerPlace → StackPointer

namespace StackPointers

/-- A zero-initialised `register_state`, the guest's stack pointer at its base. -/
def initial (spReg : Register) : StackPointers := fun place => ⟨0, 0, decide (place = .reg spReg)⟩

def step (p : StackPointers) : StackEvent → StackPointers
  | .adjust rd rs imm =>
    Function.update p (.reg rd)
      { slot := allocate (p (.reg rs)).slot (RiscV.addi rd rs imm)
        depth := (p (.reg rs)).depth - imm
        whole := (p (.reg rs)).whole && decide (8 ∣ imm) }
  | .copy dst src => Function.update p dst (p src)
  | .other rd slot depth => Function.update p (.reg rd) ⟨slot, depth, false⟩
  | .access _ _ _ => p

end StackPointers

/-- The pointers behind some events. -/
def pointersBehind (spReg : Register) (events : List StackEvent) : StackPointers :=
  events.foldl .step (.initial spReg)

/-- An access, and the pointers it finds. -/
structure StackAccess where
  pointers : StackPointers
  minst : MachineInstr
  base : Register
  bytes : Nat

def accesses (p : StackPointers) : List StackEvent → List StackAccess
  | [] => []
  | e :: events =>
    match e with
    | .access minst base bytes => ⟨p, minst, base, bytes⟩ :: accesses (p.step e) events
    | _ => accesses (p.step e) events

namespace StackAccess
variable (a : StackAccess) (spReg : Register)

def offset : Int := a.minst.immOperand.getD 0

/-- The guest's depth of the stack. -/
def depth : Int := (a.pointers (.reg spReg)).depth

/-- The index lifted code computes, whatever the base. -/
def index (regBytes : Nat) : Int := stackSlot regBytes (a.pointers (.reg spReg)).slot a.minst

/-- A whole register at an aligned offset of its base, between the stack pointer and the
depth of the base. -/
structure Legal (stats : RegisterStats) : Prop where
  through : .reg a.base false false ∈ a.minst.operands
  whole : ∃ rclass ∈ stats, a.bytes = rclass.bitsize / 8
  nonneg : 0 ≤ a.offset
  aligned : (a.bytes : Int) ∣ a.offset
  inside : a.offset + a.bytes ≤ (a.pointers (.reg a.base)).depth
  live : (a.pointers (.reg a.base)).depth - a.offset ≤ a.depth spReg

/-- Eight bytes for every register of the stack pointer's class up to the offset stay within
the depth, and with eight more for every element of the array they exceed it. -/
def Covered (regBytes count : Nat) : Prop :=
  8 * (a.offset / regBytes) ≤ a.depth spReg ∧ a.depth spReg < 8 * (a.offset / regBytes) + 8 * count

end StackAccess

/-- The runs the stack is made for: in every state the stack pointer is within `stackSize`
bytes, and every access is to live bytes. -/
inductive LegalRun (stats : RegisterStats) (spReg : Register) (stackSize : Nat) :
    StackPointers → List StackEvent → Prop where
  | done {p : StackPointers} (bounded : (p (.reg spReg)).depth ≤ (stackSize : Int)) :
      LegalRun stats spReg stackSize p []
  | step {p : StackPointers} {e : StackEvent} {events : List StackEvent}
      (bounded : (p (.reg spReg)).depth ≤ (stackSize : Int))
      (legal : ∀ a ∈ accesses p [e], a.Legal spReg stats)
      (rest : LegalRun stats spReg stackSize (p.step e) events) :
      LegalRun stats spReg stackSize p (e :: events)

theorem accesses_cons (p : StackPointers) (e : StackEvent) (events : List StackEvent) :
    accesses p (e :: events) = accesses p [e] ++ accesses (p.step e) events := by
  cases e <;> rfl

theorem pointers_of_single {p : StackPointers} {e : StackEvent} {a : StackAccess}
    (here : a ∈ accesses p [e]) : a.pointers = p := by
  cases e with
  | access minst base bytes =>
    obtain rfl := List.mem_singleton.mp here
    rfl
  | _ => cases here

/-- What every access of a legal run finds. -/
theorem LegalRun.legal {p : StackPointers} {events : List StackEvent}
    (run : LegalRun stats spReg stackSize p events) :
    ∀ a ∈ accesses p events, a.Legal spReg stats ∧ a.depth spReg ≤ (stackSize : Int) := by
  induction run with
  | done => simp [accesses]
  | @step p e events bounded legal rest ih =>
    intro a member
    rw [accesses_cons, List.mem_append] at member
    obtain here | later := member
    · rw [StackAccess.depth, pointers_of_single here]
      exact ⟨legal a here, bounded⟩
    · exact ih a later

/-- The last event of a run finds the pointers behind the others. -/
theorem mem_accesses_last {minst : MachineInstr} {base : Register} {bytes : Nat} (p : StackPointers)
    (events : List StackEvent) :
    ⟨events.foldl .step p, minst, base, bytes⟩ ∈ accesses p (events ++ [.access minst base bytes]) := by
  induction events generalizing p with
  | nil => exact List.mem_singleton_self _
  | cons e events ih =>
    rw [List.cons_append, accesses_cons]
    exact List.mem_append_right _ (ih (p.step e))

/-- Whole pointers are eight bytes deep for every slot. -/
def StackPointers.Counted (p : StackPointers) : Prop :=
  ∀ place, (p place).whole = true → (p place).depth = 8 * (p place).slot

theorem allocate_addi (slot : Int) (rd rs : Register) (imm : Int) :
    allocate slot (RiscV.addi rd rs imm) = slot + (-imm).tdiv 8 := by
  have found : (RiscV.addi rd rs imm).immOperand = some imm := rfl
  simp [allocate, found, slotOperand, MachineOperand.imm?]

theorem StackPointers.Counted.update {p : StackPointers} (counted : p.Counted) {place : PointerPlace}
    {pointer : StackPointer} (whole : pointer.whole = true → pointer.depth = 8 * pointer.slot) :
    StackPointers.Counted (Function.update p place pointer) := by
  intro other
  obtain rfl | apart := eq_or_ne other place
  · rwa [Function.update_self]
  · rw [Function.update_of_ne apart]
    exact counted other

theorem StackPointers.Counted.step {p : StackPointers} (counted : p.Counted) (e : StackEvent) :
    (p.step e).Counted := by
  cases e with
  | access minst base bytes => exact counted
  | copy dst src => exact counted.update (counted src)
  | other rd slot depth => exact counted.update (by simp)
  | adjust rd rs imm =>
    refine counted.update fun whole => ?_
    obtain ⟨before, multiple⟩ := (Bool.and_eq_true _ _).mp whole
    have here := counted _ before
    obtain ⟨n, rfl⟩ := of_decide_eq_true multiple
    have moved : (-(8 * n)).tdiv 8 = -n := by
      rw [← Int.mul_neg, Int.mul_tdiv_cancel_left _ (by omega)]
    simp only [allocate_addi, moved, here]
    omega

theorem counted_initial (spReg : Register) : (StackPointers.initial spReg).Counted := fun _ _ => rfl

theorem accesses_counted {p : StackPointers} (counted : p.Counted) (events : List StackEvent) :
    ∀ a ∈ accesses p events, a.pointers.Counted := by
  induction events generalizing p with
  | nil => simp [accesses]
  | cons e events ih =>
    intro a member
    rw [accesses_cons, List.mem_append] at member
    obtain here | later := member
    · rwa [pointers_of_single here]
    · exact ih (counted.step e) a later

/-- The index is what the slots leave over the offset. -/
theorem StackAccess.index_eq {a : StackAccess} (nonneg : 0 ≤ a.offset) (regBytes : Nat) :
    a.index spReg regBytes = (a.pointers (.reg spReg)).slot - a.offset / regBytes := by
  have moved : slotOffset a.minst regBytes = -(a.offset / regBytes) := by
    unfold offset at nonneg ⊢
    unfold slotOffset
    cases imm : a.minst.immOperand with
    | none => simp
    | some off =>
      rw [imm, Option.getD_some] at nonneg
      simp only [Int.neg_tdiv, Int.tdiv_eq_ediv_of_nonneg nonneg, Option.getD_some]
  rw [index, stackSlot, moved, sub_eq_add_neg]

/-- An index is within an array exactly where the depth covers the access. -/
theorem StackAccess.inside_iff {a : StackAccess} (counted : a.pointers.Counted)
    (whole : (a.pointers (.reg spReg)).whole = true) (nonneg : 0 ≤ a.offset) (regBytes count : Nat) :
    (0 ≤ a.index spReg regBytes ∧ a.index spReg regBytes < count) ↔ a.Covered spReg regBytes count := by
  have depth : a.depth spReg = 8 * (a.pointers (.reg spReg)).slot := counted _ whole
  rw [index_eq nonneg, Covered, depth]
  omega

/-- Through the stack pointer, and with slots of 64 bits, all that is not covered is the lowest
slot of a full stack. -/
theorem StackAccess.Legal.covered_iff {a : StackAccess} (legal : a.Legal spReg stats)
    (base : a.base = spReg) (counted : a.pointers.Counted)
    (whole : (a.pointers (.reg spReg)).whole = true) (bounded : a.depth spReg ≤ (stackSize : Int))
    (slots : 8 ∣ stackSize) :
    a.Covered spReg 8 (stackSize / 8) ↔ ¬(a.depth spReg = stackSize ∧ a.offset < 8) := by
  have nonneg := legal.nonneg
  have inside := legal.inside
  have depth : a.depth spReg = 8 * (a.pointers (.reg spReg)).slot := counted _ whole
  have same : (a.pointers (.reg a.base)).depth = a.depth spReg := by
    rw [base]
    rfl
  rw [same] at inside
  unfold Covered
  omega

/-- As a number of 64 bits the index is the same element of an array. -/
theorem StackAccess.Legal.element_iff {a : StackAccess} (legal : a.Legal spReg stats)
    (base : a.base = spReg) (counted : a.pointers.Counted)
    (whole : (a.pointers (.reg spReg)).whole = true) (small : a.depth spReg ≤ 2 ^ 64) (count : Nat) :
    (BitVec.ofInt 64 (a.index spReg 8)).toNat < count ↔ a.Covered spReg 8 count := by
  have nonneg := legal.nonneg
  have inside := legal.inside
  have depth : (a.pointers (.reg spReg)).depth = 8 * (a.pointers (.reg spReg)).slot := counted _ whole
  have index : a.index spReg 8 = (a.pointers (.reg spReg)).slot - a.offset / 8 := index_eq nonneg 8
  rw [base] at inside
  rw [StackAccess.depth] at small
  have range : 0 ≤ a.index spReg 8 ∧ a.index spReg 8 < 2 ^ 64 := by omega
  have same : ((BitVec.ofInt 64 (a.index spReg 8)).toNat : Int) = a.index spReg 8 := by
    rw [BitVec.toNat_ofInt]
    omega
  rw [← inside_iff counted whole nonneg]
  omega

/-- The accesses of a run find the stack pointer whole. -/
def WholeRun (spReg : Register) (events : List StackEvent) : Prop :=
  ∀ a ∈ accesses (.initial spReg) events, (a.pointers (.reg spReg)).whole = true

/-- The indices of a run lie in the array. -/
def IndicesInside (stats : RegisterStats) (spReg : Register) (stackSize regBytes : Nat)
    (events : List StackEvent) : Prop :=
  ∀ a ∈ accesses (.initial spReg) events,
    0 ≤ a.index spReg regBytes ∧ a.index spReg regBytes < stackElements stats stackSize

/-- The depth covers the accesses of a run. -/
def AllCovered (stats : RegisterStats) (spReg : Register) (stackSize regBytes : Nat)
    (events : List StackEvent) : Prop :=
  ∀ a ∈ accesses (.initial spReg) events, a.Covered spReg regBytes (stackElements stats stackSize)

theorem inside_covered {events : List StackEvent} (run : LegalRun stats spReg stackSize (.initial spReg) events)
    (whole : WholeRun spReg events) (regBytes : Nat) :
    IndicesInside stats spReg stackSize regBytes events ↔
      AllCovered stats spReg stackSize regBytes events := by
  apply forall₂_congr
  intro a member
  exact StackAccess.inside_iff (accesses_counted (counted_initial _) events a member) (whole a member)
    (run.legal a member).1.nonneg regBytes _

/-- Where the stack pointer is the only base and slots have 64 bits, a legal run leaves the array
exactly where it accesses the lowest slot of a full stack: its index is the number of elements. -/
theorem stack_bounds_wide (largest : largestRegsize stats = 64) (slots : 8 ∣ stackSize)
    {events : List StackEvent} (run : LegalRun stats spReg stackSize (.initial spReg) events)
    (whole : WholeRun spReg events) (base : ∀ a ∈ accesses (.initial spReg) events, a.base = spReg) :
    IndicesInside stats spReg stackSize 8 events ↔
      ∀ a ∈ accesses (.initial spReg) events, ¬(a.depth spReg = stackSize ∧ a.offset < 8) := by
  refine (inside_covered run whole 8).trans (forall₂_congr fun a member => ?_)
  obtain ⟨legal, bounded⟩ := run.legal a member
  have counted := accesses_counted (counted_initial _) events a member
  rw [stackElements, largest]
  exact legal.covered_iff (base a member) counted (whole a member) bounded slots

/-- Where the class of the stack pointer has 32 bits and the widest one 64, offsets beyond the half
of the depth leave the array below, and the lowest word of a full stack leaves it above. -/
theorem stack_bounds_mixed (largest : largestRegsize stats = 64) (slots : 8 ∣ stackSize)
    {events : List StackEvent} (run : LegalRun stats spReg stackSize (.initial spReg) events)
    (whole : WholeRun spReg events) :
    IndicesInside stats spReg stackSize 4 events ↔ ∀ a ∈ accesses (.initial spReg) events,
      2 * a.offset < a.depth spReg + 8 ∧ ¬(a.depth spReg = stackSize ∧ a.offset < 4) := by
  refine (inside_covered run whole 4).trans (forall₂_congr fun a member => ?_)
  obtain ⟨legal, bounded⟩ := run.legal a member
  have nonneg := legal.nonneg
  have depth : a.depth spReg = 8 * (a.pointers (.reg spReg)).slot :=
    accesses_counted (counted_initial _) events a member _ (whole a member)
  rw [stackElements, largest, StackAccess.Covered]
  omega

end Bleach
