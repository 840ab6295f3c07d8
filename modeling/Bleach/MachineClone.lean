import Bleach.RiscV
import Bleach.Base.EntryList
import Bleach.Base.Fallible
import Mathlib.Data.List.Nodup
import Mathlib.Logic.Function.Basic

/-! The clone of a machine function that the lifter works on. Blocks are objects:
block operands and edges hold their addresses, the blocks of the source and of the
clone live in one heap, and edges are rewritten while they are iterated. -/
namespace Bleach

/-- Address of a machine block. -/
abbrev BlockPtr := BlockId

/-- Number of an IR block. -/
abbrev IRBlockId := Nat

/-- An instruction with the instructions bundled to it. -/
structure Bundle where
  head : MachineInstr
  bundled : List MachineInstr
  deriving DecidableEq

/-- Machine blocks, field by field. Addresses from `next` on are unused. -/
structure BlockHeap where
  instrs : BlockPtr → List Bundle
  succs : BlockPtr → List BlockPtr
  preds : BlockPtr → List BlockPtr
  next : BlockPtr

namespace MachineOperand

def replaceBlock (old new : BlockPtr) (op : MachineOperand) : MachineOperand :=
  if op = .mbb old then .mbb new else op

def renameBlocks (σ : BlockPtr → BlockPtr) : MachineOperand → MachineOperand
  | .mbb b => .mbb (σ b)
  | op => op

end MachineOperand

def MachineInstr.mapOperands (f : MachineOperand → MachineOperand) (minst : MachineInstr) :
    MachineInstr := { minst with operands := minst.operands.map f }

namespace Bundle

def instrs (bundle : Bundle) : List MachineInstr := bundle.head :: bundle.bundled

/-- `MachineInstr::isBranch` of the head asks for a branch anywhere in the bundle. -/
def isBranch (bundle : Bundle) : Bool := bundle.instrs.any (·.desc.isBranch)

def mapHead (f : MachineOperand → MachineOperand) (bundle : Bundle) : Bundle :=
  { bundle with head := bundle.head.mapOperands f }

def renameBlocks (σ : BlockPtr → BlockPtr) (bundle : Bundle) : Bundle :=
  ⟨bundle.head.mapOperands (.renameBlocks σ), bundle.bundled.map (·.mapOperands (.renameBlocks σ))⟩

end Bundle

namespace BlockHeap

def setInstrs (heap : BlockHeap) (b : BlockPtr) (instrs : List Bundle) : BlockHeap :=
  { heap with instrs := Function.update heap.instrs b instrs }

def setSuccs (heap : BlockHeap) (b : BlockPtr) (succs : List BlockPtr) : BlockHeap :=
  { heap with succs := Function.update heap.succs b succs }

def addPredecessor (heap : BlockHeap) (b pred : BlockPtr) : BlockHeap :=
  { heap with preds := Function.update heap.preds b (heap.preds b ++ [pred]) }

def removePredecessor (heap : BlockHeap) (b pred : BlockPtr) : Except LiftError BlockHeap :=
  if pred ∈ heap.preds b then
    .ok { heap with preds := Function.update heap.preds b ((heap.preds b).erase pred) }
  else .error .assertion

/-- `MachineBasicBlock::copySuccessor`. -/
def copySuccessor (heap : BlockHeap) (b succ : BlockPtr) : BlockHeap :=
  (heap.setSuccs b (heap.succs b ++ [succ])).addPredecessor succ b

def createMachineBasicBlock (heap : BlockHeap) : BlockPtr × BlockHeap :=
  (heap.next, {
    instrs := Function.update heap.instrs heap.next []
    succs := Function.update heap.succs heap.next []
    preds := Function.update heap.preds heap.next []
    next := heap.next + 1 })

/-- The search of `MachineBasicBlock::replaceSuccessor`: where the two blocks were met
last, up to the place where both have been met. -/
def findSuccessors (old new : BlockPtr) :
    List BlockPtr → Nat → Option Nat → Option Nat → Option Nat × Option Nat
  | [], _, oldI, newI => (oldI, newI)
  | succ :: rest, i, oldI, newI =>
    if succ = old then
      if newI.isSome then (some i, newI) else findSuccessors old new rest (i + 1) (some i) newI
    else if succ = new then
      if oldI.isSome then (oldI, some i) else findSuccessors old new rest (i + 1) oldI (some i)
    else findSuccessors old new rest (i + 1) oldI newI

def replaceSuccessor (heap : BlockHeap) (b old new : BlockPtr) : Except LiftError BlockHeap :=
  if old = new then .ok heap
  else match findSuccessors old new (heap.succs b) 0 none none with
    | (none, _) => .error .assertion
    | (some i, none) => do
      let heap ← heap.removePredecessor old b
      .ok ((heap.addPredecessor new b).setSuccs b ((heap.succs b).set i new))
    | (some i, some _) => do
      let heap ← heap.removePredecessor old b
      .ok (heap.setSuccs b ((heap.succs b).eraseIdx i))

end BlockHeap

/-- A bundle is duplicated whole. Of its instructions only the head is looked at. -/
def copyInstructions (instrs : List Bundle) (src dst : BlockPtr) : List Bundle :=
  instrs.map fun bundle =>
    if bundle.isBranch then bundle.mapHead (.replaceBlock src dst) else bundle

/-- The state of `create_basic_blocks_for_mfunc`: the heap, the blocks of the clone,
the IR blocks of its function, and the two maps. -/
structure CloneState where
  heap : BlockHeap
  layout : List BlockPtr := []
  irBlocks : List IRBlockId := []
  nextIr : IRBlockId := 0
  m2b : List (BlockPtr × IRBlockId) := []
  blockMap : List (BlockPtr × BlockPtr) := []

/-- `insert` and `try_emplace` of the hash maps: a key that is there stays. -/
def tryEmplace {K V : Type} [DecidableEq K] (m : List (K × V)) (k : K) (v : V) : List (K × V) :=
  if (m.lookup k).isSome then m else m ++ [(k, v)]

/-- The IR block is created together with a dummy one that is erased again. -/
def cloneBasicBlock (src : BlockPtr) (dst : CloneState) : BlockPtr × IRBlockId × CloneState :=
  let newBlock := dst.nextIr
  let dummy := dst.nextIr + 1
  let irBlocks := dst.irBlocks ++ [newBlock, dummy]
  let (newMblock, heap) := dst.heap.createMachineBasicBlock
  let heap := heap.setInstrs newMblock (copyInstructions (heap.instrs src) src newMblock)
  let heap := (heap.succs src).foldl (fun heap succ => heap.copySuccessor newMblock succ) heap
  (newMblock, newBlock, { dst with
    heap := heap
    layout := dst.layout ++ [newMblock]
    irBlocks := irBlocks.erase dummy
    nextIr := dst.nextIr + 2 })

/-- The first loop: clone the blocks in layout order. -/
def cloneBlocks (src : List BlockPtr) : List BlockPtr → CloneState → Except LiftError CloneState
  | [], dst => .ok dst
  | mbb :: rest, dst =>
    if (dst.heap.succs mbb).all (· ∈ src) then
      let (newMblock, newBlock, dst) := cloneBasicBlock mbb dst
      cloneBlocks src rest { dst with
        m2b := tryEmplace dst.m2b newMblock newBlock
        blockMap := tryEmplace dst.blockMap mbb newMblock }
    else .error .assertion

def replaceUsesOfBlockWith (heap : BlockHeap) (mbb oldBlock newBlock : BlockPtr) :
    Except LiftError BlockHeap :=
  (heap.setInstrs mbb ((heap.instrs mbb).map (·.mapHead (.replaceBlock oldBlock newBlock)))).replaceSuccessor
    mbb oldBlock newBlock

/-- The loop over the successors of one block, `todo` of them from position `i` on. The
vector is read again in every round; if it has shrunk its iterators are invalid. -/
def replaceSuccessors (blockMap : List (BlockPtr × BlockPtr)) (mbb : BlockPtr) :
    (todo i : Nat) → BlockHeap → Except LiftError BlockHeap
  | 0, _, heap => .ok heap
  | todo + 1, i, heap =>
    match (heap.succs mbb)[i]? with
    | none => .error .assertion
    | some succ =>
      match blockMap.lookup succ with
      | none => .error .outOfRange
      | some new => do
        let heap ← replaceUsesOfBlockWith heap mbb succ new
        replaceSuccessors blockMap mbb todo (i + 1) heap

/-- The second loop, over the new blocks. -/
def replaceBlocks (blockMap : List (BlockPtr × BlockPtr)) :
    List BlockPtr → BlockHeap → Except LiftError BlockHeap
  | [], heap => .ok heap
  | mbb :: rest, heap => do
    let heap ← replaceSuccessors blockMap mbb (heap.succs mbb).length 0 heap
    replaceBlocks blockMap rest heap

/-- The new function has no blocks yet, and its IR blocks no calls to redirect. -/
def createBasicBlocksForMfunc (src : List BlockPtr) (heap : BlockHeap) : Except LiftError CloneState := do
  let dst ← cloneBlocks src src { heap := heap }
  let heap ← replaceBlocks dst.blockMap dst.layout dst.heap
  if dst.layout.all fun mbb => (heap.succs mbb).all (· ∈ dst.layout) then .ok { dst with heap := heap }
  else .error .assertion

def BlockHeap.operands (heap : BlockHeap) (b : BlockPtr) : List MachineOperand :=
  (heap.instrs b).flatMap fun bundle => bundle.instrs.flatMap MachineInstr.operands

/-- A function whose blocks exist and whose edges cover the blocks its instructions name. -/
structure SourceFunction (heap : BlockHeap) (src : List BlockPtr) : Prop where
  nodup : src.Nodup
  exist : ∀ b ∈ src, b < heap.next
  succs_nodup : ∀ b ∈ src, (heap.succs b).Nodup
  succs : ∀ b ∈ src, ∀ s ∈ heap.succs b, s ∈ src
  covered : ∀ b ∈ src, ∀ p, .mbb p ∈ heap.operands b → p ∈ heap.succs b
  preds : ∀ b ∈ src, ∀ p ∈ heap.preds b, p < heap.next

/-- The clone is isomorphic to the source by `σ` and apart from it. -/
structure Isomorphic (heap : BlockHeap) (src : List BlockPtr) (σ : BlockPtr → BlockPtr)
    (dst : CloneState) : Prop where
  layout : dst.layout = src.map σ
  injective : ∀ a ∈ src, ∀ b ∈ src, σ a = σ b → a = b
  instrs : ∀ b ∈ src, dst.heap.instrs (σ b) = (heap.instrs b).map (.renameBlocks σ)
  succs : ∀ b ∈ src, dst.heap.succs (σ b) = (heap.succs b).map σ
  operands_apart : ∀ c ∈ dst.layout, ∀ p, .mbb p ∈ dst.heap.operands c → p ∉ src
  succs_apart : ∀ c ∈ dst.layout, ∀ s ∈ dst.heap.succs c, s ∉ src
  paired : dst.m2b.map Prod.fst = dst.layout ∧ dst.m2b.map Prod.snd = dst.irBlocks ∧
    dst.irBlocks.Nodup
  unchanged : ∀ b ∈ src, dst.heap.instrs b = heap.instrs b ∧ dst.heap.succs b = heap.succs b ∧
    dst.heap.preds b = heap.preds b

/-- Behind the head of a bundle no instruction names a block. -/
def HeadsName (heap : BlockHeap) (src : List BlockPtr) : Prop :=
  ∀ b ∈ src, ∀ bundle ∈ heap.instrs b, ∀ minst ∈ bundle.bundled, ∀ p, .mbb p ∉ minst.operands

theorem findSuccessors_absent {old new : BlockPtr} {succs : List BlockPtr} (i : Nat)
    (oldI : Option Nat) (noOld : old ∉ succs) (noNew : new ∉ succs) :
    BlockHeap.findSuccessors old new succs i oldI none = (oldI, none) := by
  induction succs generalizing i with
  | nil => rfl
  | cons s rest ih =>
    rw [List.mem_cons, not_or] at noOld noNew
    rw [BlockHeap.findSuccessors, if_neg (Ne.symm noOld.1), if_neg (Ne.symm noNew.1)]
    exact ih (i + 1) noOld.2 noNew.2

theorem findSuccessors_single {old new : BlockPtr} {before after : List BlockPtr} (i : Nat)
    (first : old ∉ before) (last : old ∉ after) (noNew : new ∉ before ++ old :: after) :
    BlockHeap.findSuccessors old new (before ++ old :: after) i none none =
      (some (i + before.length), none) := by
  induction before generalizing i with
  | nil =>
    simp only [List.nil_append, List.mem_cons, not_or] at noNew
    simpa [BlockHeap.findSuccessors] using findSuccessors_absent (i + 1) (some i) last noNew.2
  | cons s rest ih =>
    rw [List.mem_cons, not_or] at first
    rw [List.cons_append, List.mem_cons, not_or] at noNew
    rw [List.cons_append, BlockHeap.findSuccessors, if_neg (Ne.symm first.1), if_neg (Ne.symm noNew.1),
      ih (i + 1) first.2 noNew.2, List.length_cons, Nat.add_assoc, Nat.add_comm 1]

/-- One round of the loop over the successors. -/
theorem replaceUsesOfBlockWith_ok {heap : BlockHeap} {c old new : BlockPtr}
    {before after : List BlockPtr} (succs : heap.succs c = before ++ old :: after) (other : old ≠ new)
    (first : old ∉ before) (last : old ∉ after) (noNew : new ∉ before ++ old :: after)
    (linked : c ∈ heap.preds old) :
    replaceUsesOfBlockWith heap c old new = .ok {
      instrs := Function.update heap.instrs c
        ((heap.instrs c).map (·.mapHead (.replaceBlock old new)))
      succs := Function.update heap.succs c (before ++ new :: after)
      preds := Function.update (Function.update heap.preds old ((heap.preds old).erase c)) new
        (Function.update heap.preds old ((heap.preds old).erase c) new ++ [c])
      next := heap.next } := by
  have found := findSuccessors_single 0 first last noNew
  rw [← succs, Nat.zero_add] at found
  simp only [replaceUsesOfBlockWith, BlockHeap.replaceSuccessor, if_neg other, BlockHeap.setInstrs, found]
  refine bind_ok.mpr ⟨_, if_pos linked, ?_⟩
  simp only [BlockHeap.addPredecessor, BlockHeap.setSuccs, succs, List.set_append_right _ _ (Nat.le_refl _),
    Nat.sub_self, List.set_cons_zero]

theorem MachineOperand.rename_replace {σ ρ ρ' : BlockPtr → BlockPtr} {old : BlockPtr}
    (here : ρ' old = ρ (σ old)) (others : ∀ p, p ≠ old → ρ' p = ρ p) (op : MachineOperand) :
    (op.replaceBlock old (σ old)).renameBlocks ρ = op.renameBlocks ρ' := by
  cases op with
  | mbb p =>
    by_cases same : p = old
    · subst same
      simp [replaceBlock, renameBlocks, here]
    · simp [replaceBlock, renameBlocks, same, others p same]
  | _ => rfl

theorem Bundle.mapHead_mapHead (f g : MachineOperand → MachineOperand) (bundle : Bundle) :
    (bundle.mapHead f).mapHead g = bundle.mapHead (g ∘ f) := by
  simp [mapHead, MachineInstr.mapOperands]

theorem Bundle.mapHead_congr {f g : MachineOperand → MachineOperand} {bundle : Bundle}
    (same : ∀ op ∈ bundle.head.operands, f op = g op) : bundle.mapHead f = bundle.mapHead g := by
  simp only [mapHead, MachineInstr.mapOperands, List.map_congr_left same]

theorem Bundle.mapHead_id (bundle : Bundle) : bundle.mapHead id = bundle := by
  simp [mapHead, MachineInstr.mapOperands]

theorem MachineOperand.renameBlocks_id {ρ : BlockPtr → BlockPtr} (same : ∀ p, ρ p = p) :
    MachineOperand.renameBlocks ρ = id := by
  funext op
  cases op <;> simp [renameBlocks, same]

/-- What the loop over the successors `todo` makes of a block `p`. -/
def renamed (σ : BlockPtr → BlockPtr) (todo : List BlockPtr) (p : BlockPtr) : BlockPtr :=
  if p ∈ todo then σ p else p

/-- The loop when the successors in front of `todo` have been replaced. -/
theorem replaceSuccessors_ok {blockMap : List (BlockPtr × BlockPtr)} {σ : BlockPtr → BlockPtr}
    {base c : BlockPtr} {todo : List BlockPtr} {heap : BlockHeap} {before : List BlockPtr}
    (succs : heap.succs c = before ++ todo) (replaced : ∀ q ∈ before, base ≤ q)
    (old : ∀ s ∈ todo, s < base) (nodup : todo.Nodup) (fresh : ∀ s ∈ todo, base ≤ σ s)
    (apart : (before ++ todo.map σ).Nodup) (mapped : ∀ s ∈ todo, blockMap.lookup s = some (σ s))
    (linked : ∀ s ∈ todo, c ∈ heap.preds s) :
    ∃ heap', replaceSuccessors blockMap c todo.length before.length heap = .ok heap' ∧
      heap'.succs = Function.update heap.succs c (before ++ todo.map σ) ∧
      heap'.instrs = Function.update heap.instrs c
        ((heap.instrs c).map (·.mapHead (.renameBlocks (renamed σ todo)))) ∧
      ∀ p < base, heap'.preds p = if p ∈ todo then (heap.preds p).erase c else heap.preds p := by
  induction todo generalizing heap before with
  | nil =>
    refine ⟨heap, rfl, ?_, ?_, by simp⟩
    · rw [List.append_nil] at succs
      rw [List.map_nil, List.append_nil, ← succs, Function.update_eq_self]
    · have identity : (fun bundle : Bundle =>
          bundle.mapHead (.renameBlocks (renamed σ []))) = id := by
        funext bundle
        rw [MachineOperand.renameBlocks_id (by simp [renamed]), Bundle.mapHead_id, id]
      rw [identity, List.map_id, Function.update_eq_self]
  | cons s rest ih =>
    obtain ⟨oldHere, oldRest⟩ := List.forall_mem_cons.mp old
    obtain ⟨freshHere, freshRest⟩ := List.forall_mem_cons.mp fresh
    obtain ⟨mappedHere, mappedRest⟩ := List.forall_mem_cons.mp mapped
    obtain ⟨linkedHere, linkedRest⟩ := List.forall_mem_cons.mp linked
    obtain ⟨single, nodup⟩ := List.nodup_cons.mp nodup
    have first : s ∉ before := fun inside => Nat.not_le_of_lt oldHere (replaced s inside)
    have other : s ≠ σ s := (Nat.lt_of_lt_of_le oldHere freshHere).ne
    have noNew : σ s ∉ before ++ s :: rest := by
      rw [List.mem_append, List.mem_cons]
      rintro (inside | same | inside)
      · rw [List.map_cons, List.nodup_append] at apart
        exact apart.2.2 _ inside _ List.mem_cons_self rfl
      · exact other same.symm
      · exact Nat.not_le_of_lt (oldRest _ inside) freshHere
    have round := replaceUsesOfBlockWith_ok succs other first single noNew linkedHere
    have apart' : ((before ++ [σ s]) ++ rest.map σ).Nodup := by simpa using apart
    have replaced' : ∀ q ∈ before ++ [σ s], base ≤ q := fun q inside => by
      rcases List.mem_append.mp inside with early | here
      · exact replaced q early
      · exact (List.mem_singleton.mp here) ▸ freshHere
    have linked' : ∀ q ∈ rest, c ∈ Function.update (Function.update heap.preds s
        ((heap.preds s).erase c)) (σ s)
          (Function.update heap.preds s ((heap.preds s).erase c) (σ s) ++ [c]) q := fun q inside => by
      have other : q ≠ s := fun same => single (same ▸ inside)
      have apart : q ≠ σ s := (Nat.lt_of_lt_of_le (oldRest q inside) freshHere).ne
      rw [Function.update_of_ne apart, Function.update_of_ne other]
      exact linkedRest q inside
    obtain ⟨heap', run, succs', instrs', preds'⟩ := @ih {
        instrs := Function.update heap.instrs c
          ((heap.instrs c).map (·.mapHead (.replaceBlock s (σ s))))
        succs := Function.update heap.succs c (before ++ σ s :: rest)
        preds := Function.update (Function.update heap.preds s ((heap.preds s).erase c)) (σ s)
          (Function.update heap.preds s ((heap.preds s).erase c) (σ s) ++ [c])
        next := heap.next } (before ++ [σ s]) (by simp) replaced' oldRest nodup freshRest apart' mappedRest
      linked'
    refine ⟨heap', ?_, ?_, ?_, ?_⟩
    · rw [List.length_cons, replaceSuccessors, succs, List.getElem?_append_right (Nat.le_refl _),
        Nat.sub_self, List.getElem?_cons_zero]
      simp only [mappedHere]
      refine bind_ok.mpr ⟨_, round, ?_⟩
      rwa [List.length_append, List.length_singleton] at run
    · rw [succs', Function.update_idem]
      simp
    · rw [instrs']
      dsimp only
      rw [Function.update_idem, Function.update_self, List.map_map]
      refine congrArg _ (List.map_congr_left fun bundle _ => ?_)
      rw [Function.comp_apply, Bundle.mapHead_mapHead]
      apply Bundle.mapHead_congr
      intro op _
      apply MachineOperand.rename_replace
      · have later : σ s ∉ rest := fun inside => noNew (by simp [inside])
        simp [renamed, later]
      · intro p other
        simp [renamed, other]
    · intro p below
      have apart : p ≠ σ s := (Nat.lt_of_lt_of_le below freshHere).ne
      rw [preds' p below]
      dsimp only
      rw [Function.update_of_ne apart]
      by_cases same : p = s
      · subst same
        simp [single]
      · simp [same]

theorem copySuccessors_eq {c : BlockPtr} {todo : List BlockPtr} (nodup : todo.Nodup) (heap : BlockHeap) :
    todo.foldl (fun heap succ => heap.copySuccessor c succ) heap = {
      instrs := heap.instrs
      succs := Function.update heap.succs c (heap.succs c ++ todo)
      preds := fun p => heap.preds p ++ if p ∈ todo then [c] else []
      next := heap.next } := by
  induction todo generalizing heap with
  | nil => simp
  | cons s rest ih =>
    obtain ⟨single, nodup⟩ := List.nodup_cons.mp nodup
    rw [List.foldl_cons, ih nodup]
    simp only [BlockHeap.copySuccessor, BlockHeap.setSuccs, BlockHeap.addPredecessor, BlockHeap.mk.injEq,
      Function.update_idem, Function.update_self, List.append_assoc, List.singleton_append, true_and, and_true]
    funext p
    by_cases same : p = s
    · subst same
      simp [single]
    · simp [same]

theorem tryEmplace_new {K V : Type} [DecidableEq K] {m : List (K × V)} {k : K} (v : V)
    (new : k ∉ m.map Prod.fst) : tryEmplace m k v = m ++ [(k, v)] := by
  have absent : m.lookup k = none :=
    EntryList.lookup_none_iff.mpr fun v member => new (List.mem_map_of_mem (f := Prod.fst) member)
  simp [tryEmplace, absent]

/-- The clones of `src` stand in layout order from the first unused address on. -/
def cloneAt (heap : BlockHeap) (src : List BlockPtr) (b : BlockPtr) : BlockPtr :=
  heap.next + src.idxOf b

section
variable {heap : BlockHeap} {src : List BlockPtr}

theorem cloneAt_fresh (b : BlockPtr) : heap.next ≤ cloneAt heap src b := Nat.le_add_right _ _

theorem cloneAt_apart {p : BlockPtr} (old : p < heap.next) (b : BlockPtr) : p ≠ cloneAt heap src b :=
  (Nat.lt_of_lt_of_le old (cloneAt_fresh b)).ne

theorem cloneAt_injective {a b : BlockPtr} (inside : a ∈ src)
    (same : cloneAt heap src a = cloneAt heap src b) : a = b :=
  (List.idxOf_inj inside).mp (Nat.add_left_cancel same)

theorem cloneAt_nodup {bs : List BlockPtr} (inside : ∀ b ∈ bs, b ∈ src) (nodup : bs.Nodup) :
    (bs.map (cloneAt heap src)).Nodup :=
  List.Nodup.map_on (fun a member _ _ same => cloneAt_injective (inside a member) same) nodup

/-- After the first loop over `done`: the old blocks have gained clones as predecessors
and nothing else, and the edges of the clones still lead into the source. -/
structure BlockCloning (heap : BlockHeap) (src done : List BlockPtr) (dst : CloneState) : Prop where
  next : dst.heap.next = heap.next + done.length
  layout : dst.layout = done.map (cloneAt heap src)
  blockMap : dst.blockMap = done.map fun b => (b, cloneAt heap src b)
  nextIr : dst.nextIr = 2 * done.length
  irBlocks : dst.irBlocks = (List.range done.length).map (2 * ·)
  m2b : dst.m2b = dst.layout.zip dst.irBlocks
  old : ∀ p < heap.next, dst.heap.instrs p = heap.instrs p ∧ dst.heap.succs p = heap.succs p ∧
    dst.heap.preds p = heap.preds p ++ (done.filter (p ∈ heap.succs ·)).map (cloneAt heap src)
  new : ∀ b ∈ done, dst.heap.succs (cloneAt heap src b) = heap.succs b ∧
    dst.heap.instrs (cloneAt heap src b) = copyInstructions (heap.instrs b) b (cloneAt heap src b)

theorem BlockCloning.start : BlockCloning heap src [] { heap := heap } where
  next := rfl
  layout := rfl
  blockMap := rfl
  nextIr := rfl
  irBlocks := rfl
  m2b := rfl
  old _ _ := by simp
  new _ none := absurd none List.not_mem_nil

theorem cloneBasicBlock_ok {b : BlockPtr} {dst : CloneState} (nodup : (dst.heap.succs b).Nodup)
    (old : b ≠ dst.heap.next) (even : dst.nextIr + 1 ∉ dst.irBlocks) :
    cloneBasicBlock b dst = (dst.heap.next, dst.nextIr, { dst with
      heap := {
        instrs := Function.update dst.heap.instrs dst.heap.next
          (copyInstructions (dst.heap.instrs b) b dst.heap.next)
        succs := Function.update dst.heap.succs dst.heap.next (dst.heap.succs b)
        preds := fun p => Function.update dst.heap.preds dst.heap.next [] p ++
          if p ∈ dst.heap.succs b then [dst.heap.next] else []
        next := dst.heap.next + 1 }
      layout := dst.layout ++ [dst.heap.next]
      irBlocks := dst.irBlocks ++ [dst.nextIr]
      nextIr := dst.nextIr + 2 }) := by
  have erased : (dst.irBlocks ++ [dst.nextIr, dst.nextIr + 1]).erase (dst.nextIr + 1) =
      dst.irBlocks ++ [dst.nextIr] := by
    rw [List.erase_append_right _ even]
    simp
  simp only [cloneBasicBlock, BlockHeap.createMachineBasicBlock, BlockHeap.setInstrs, erased]
  rw [copySuccessors_eq (by rwa [Function.update_of_ne old])]
  simp only [Function.update_idem, Function.update_self, Function.update_of_ne old, List.nil_append]

theorem BlockCloning.step (source : SourceFunction heap src) {done rest : List BlockPtr} {b : BlockPtr}
    (order : src = done ++ b :: rest) {dst : CloneState} (cloning : BlockCloning heap src done dst) :
    BlockCloning heap src (done ++ [b]) (
      let (newMblock, newBlock, dst) := cloneBasicBlock b dst
      { dst with
        m2b := tryEmplace dst.m2b newMblock newBlock
        blockMap := tryEmplace dst.blockMap b newMblock }) := by
  have inside : b ∈ src := by simp [order]
  have single : b ∉ done := fun member => by
    have nodup := source.nodup
    rw [order, List.nodup_append] at nodup
    exact nodup.2.2 _ member _ List.mem_cons_self rfl
  have here : dst.heap.next = cloneAt heap src b := by
    rw [cloning.next, cloneAt, order, List.idxOf_append_of_notMem single, List.idxOf_cons_self, Nat.add_zero]
  have older := source.exist b inside
  obtain ⟨instrs, succs, -⟩ := cloning.old b older
  have even : dst.nextIr + 1 ∉ dst.irBlocks := by
    rw [cloning.irBlocks, cloning.nextIr, List.mem_map]
    rintro ⟨k, -, same⟩
    have parity : 2 * k = 2 * done.length + 1 := same
    omega
  have lengths : dst.layout.length = dst.irBlocks.length := by simp [cloning.layout, cloning.irBlocks]
  have newKey : cloneAt heap src b ∉ dst.m2b.map Prod.fst := by
    rw [cloning.m2b, List.map_fst_zip lengths.le, cloning.layout, List.mem_map]
    rintro ⟨a, member, same⟩
    have known : a ∈ src := by simp [order, member]
    exact single (cloneAt_injective known same ▸ member)
  have newBlock : b ∉ dst.blockMap.map Prod.fst := by simpa [cloning.blockMap] using single
  rw [cloneBasicBlock_ok (succs ▸ source.succs_nodup b inside) (here ▸ cloneAt_apart older b) even]
  dsimp only
  rw [here, tryEmplace_new _ newKey, tryEmplace_new _ newBlock, instrs, succs]
  constructor
  · simp [← here, cloning.next, Nat.add_assoc]
  · simp [cloning.layout]
  · simp [cloning.blockMap]
  · simp [cloning.nextIr, Nat.mul_add]
  · simp [cloning.irBlocks, cloning.nextIr, List.range_succ]
  · rw [cloning.m2b, List.zip_append lengths]
    rfl
  · intro p below
    obtain ⟨instrs, succs, preds⟩ := cloning.old p below
    have apart : p ≠ cloneAt heap src b := cloneAt_apart below b
    simp only [Function.update_of_ne apart, instrs, succs, preds, true_and, List.append_assoc,
      List.filter_append, List.map_append]
    by_cases named : p ∈ heap.succs b <;> simp [named]
  · intro a member
    rcases List.mem_append.mp member with early | last
    · have known : a ∈ src := by simp [order, early]
      have apart : cloneAt heap src a ≠ cloneAt heap src b := fun same =>
        single (cloneAt_injective known same ▸ early)
      simpa only [Function.update_of_ne apart] using cloning.new a early
    · obtain rfl := List.mem_singleton.mp last
      simp only [Function.update_self, and_self]

theorem BlockCloning.run (source : SourceFunction heap src) {rest done : List BlockPtr}
    (order : src = done ++ rest) {dst : CloneState} (cloning : BlockCloning heap src done dst) :
    ∃ dst', cloneBlocks src rest dst = .ok dst' ∧ BlockCloning heap src src dst' := by
  induction rest generalizing done dst with
  | nil =>
    obtain rfl : src = done := by simpa using order
    exact ⟨dst, rfl, cloning⟩
  | cons b rest ih =>
    have inside : b ∈ src := by simp [order]
    have stays : (dst.heap.succs b).all (· ∈ src) = true := by
      rw [(cloning.old b (source.exist b inside)).2.1, List.all_eq_true]
      exact fun s member => decide_eq_true (source.succs b inside s member)
    obtain ⟨dst', run, all⟩ := ih (by simpa using order) (cloning.step source order)
    exact ⟨dst', (if_pos stays).trans run, all⟩

/-- One new block, whose edges still lead into the source, gets its own. -/
theorem replaceSuccessors_clone (source : SourceFunction heap src) {dst : BlockHeap}
    {blockMap : List (BlockPtr × BlockPtr)}
    (mapped : ∀ s ∈ src, blockMap.lookup s = some (cloneAt heap src s)) {b c : BlockPtr} (inside : b ∈ src)
    (succs : dst.succs c = heap.succs b) (linked : ∀ s ∈ heap.succs b, c ∈ dst.preds s) :
    ∃ dst', replaceSuccessors blockMap c (dst.succs c).length 0 dst = .ok dst' ∧
      dst'.succs = Function.update dst.succs c ((heap.succs b).map (cloneAt heap src)) ∧
      dst'.instrs = Function.update dst.instrs c
        ((dst.instrs c).map (·.mapHead (.renameBlocks (renamed (cloneAt heap src) (heap.succs b))))) ∧
      ∀ p < heap.next, dst'.preds p =
        if p ∈ heap.succs b then (dst.preds p).erase c else dst.preds p := by
  have stays := source.succs b inside
  rw [succs]
  exact @replaceSuccessors_ok _ _ heap.next _ _ dst [] succs (fun _ none => absurd none List.not_mem_nil)
    (fun s member => source.exist s (stays s member)) (source.succs_nodup b inside)
    (fun s _ => cloneAt_fresh s) (cloneAt_nodup stays (source.succs_nodup b inside))
    (fun s member => mapped s (stays s member)) linked

/-- The loop from the clone of the first block of `rest` on. -/
theorem replaceBlocks_ok (source : SourceFunction heap src) {blockMap : List (BlockPtr × BlockPtr)}
    (mapped : ∀ s ∈ src, blockMap.lookup s = some (cloneAt heap src s)) {rest : List BlockPtr}
    (inside : ∀ b ∈ rest, b ∈ src) (nodup : rest.Nodup) {dst : BlockHeap}
    (succs : ∀ b ∈ rest, dst.succs (cloneAt heap src b) = heap.succs b)
    (preds : ∀ p < heap.next, dst.preds p =
      heap.preds p ++ (rest.filter (p ∈ heap.succs ·)).map (cloneAt heap src)) :
    ∃ dst', replaceBlocks blockMap (rest.map (cloneAt heap src)) dst = .ok dst' ∧
      (∀ b ∈ rest, dst'.succs (cloneAt heap src b) = (heap.succs b).map (cloneAt heap src) ∧
        dst'.instrs (cloneAt heap src b) = (dst.instrs (cloneAt heap src b)).map
          (·.mapHead (.renameBlocks (renamed (cloneAt heap src) (heap.succs b))))) ∧
      (∀ c ∉ rest.map (cloneAt heap src), dst'.succs c = dst.succs c ∧ dst'.instrs c = dst.instrs c) ∧
      ∀ p ∈ src, dst'.preds p = heap.preds p := by
  induction rest generalizing dst with
  | nil =>
    refine ⟨dst, rfl, fun _ none => absurd none List.not_mem_nil, fun _ _ => ⟨rfl, rfl⟩, fun p member => ?_⟩
    simpa using preds p (source.exist p member)
  | cons b rest ih =>
    obtain ⟨insideHere, insideRest⟩ := List.forall_mem_cons.mp inside
    obtain ⟨succsHere, succsRest⟩ := List.forall_mem_cons.mp succs
    obtain ⟨single, nodupRest⟩ := List.nodup_cons.mp nodup
    have linked : ∀ s ∈ heap.succs b, cloneAt heap src b ∈ dst.preds s := fun s member => by
      rw [preds s (source.exist s (source.succs b insideHere s member))]
      simp [member]
    obtain ⟨dst₁, here, succs₁, instrs₁, preds₁⟩ :=
      replaceSuccessors_clone source mapped insideHere succsHere linked
    have other : ∀ a ∈ rest, cloneAt heap src a ≠ cloneAt heap src b := fun a member same =>
      single (cloneAt_injective (insideRest a member) same ▸ member)
    have succsNow : ∀ a ∈ rest, dst₁.succs (cloneAt heap src a) = heap.succs a := fun a member => by
      rw [succs₁, Function.update_of_ne (other a member), succsRest a member]
    have predsNow : ∀ p < heap.next, dst₁.preds p =
        heap.preds p ++ (rest.filter (p ∈ heap.succs ·)).map (cloneAt heap src) := fun p old => by
      rw [preds₁ p old, preds p old, List.filter_cons]
      by_cases named : p ∈ heap.succs b
      · have known : cloneAt heap src b ∉ heap.preds p := fun member => Nat.not_le_of_lt
          (source.preds p (source.succs b insideHere p named) _ member) (cloneAt_fresh b)
        simp [named, List.erase_append_right _ known]
      · simp [named]
    obtain ⟨dst', run, clones, others, restored⟩ := ih insideRest nodupRest succsNow predsNow
    have absent : cloneAt heap src b ∉ rest.map (cloneAt heap src) := by
      rw [List.mem_map]
      rintro ⟨a, member, same⟩
      exact other a member same
    refine ⟨dst', bind_ok.mpr ⟨dst₁, here, run⟩, ?_, ?_, restored⟩
    · refine List.forall_mem_cons.mpr ⟨?_, fun a member => ?_⟩
      · rw [(others _ absent).1, (others _ absent).2, succs₁, instrs₁, Function.update_self,
          Function.update_self]
        exact ⟨rfl, rfl⟩
      · rw [(clones a member).1, (clones a member).2, instrs₁, Function.update_of_ne (other a member)]
        exact ⟨rfl, rfl⟩
    · intro c outside
      rw [List.map_cons, List.mem_cons, not_or] at outside
      rw [(others c outside.2).1, (others c outside.2).2, succs₁, instrs₁, Function.update_of_ne outside.1,
        Function.update_of_ne outside.1]
      exact ⟨rfl, rfl⟩

/-- Of the blocks named by a copied head both loops together leave none of the source. -/
theorem copied_head (source : SourceFunction heap src) {b : BlockPtr} (inside : b ∈ src) {bundle : Bundle}
    (member : bundle ∈ heap.instrs b) :
    (if bundle.isBranch then bundle.mapHead (.replaceBlock b (cloneAt heap src b)) else bundle).mapHead
        (.renameBlocks (renamed (cloneAt heap src) (heap.succs b))) =
      bundle.mapHead (.renameBlocks (cloneAt heap src)) := by
  have covered : ∀ p, .mbb p ∈ bundle.head.operands → p ∈ heap.succs b := fun p named =>
    source.covered b inside p (List.mem_flatMap.mpr ⟨bundle, member,
      List.mem_flatMap.mpr ⟨bundle.head, List.mem_cons_self, named⟩⟩)
  have later : cloneAt heap src b ∉ heap.succs b := fun edge =>
    Nat.not_le_of_lt (source.exist _ (source.succs b inside _ edge)) (cloneAt_fresh b)
  have named : ∀ op ∈ bundle.head.operands,
      op.renameBlocks (renamed (cloneAt heap src) (heap.succs b)) = op.renameBlocks (cloneAt heap src) := by
    intro op operand
    cases op with
    | mbb p => simp [MachineOperand.renameBlocks, renamed, covered p operand]
    | _ => rfl
  split
  · rw [Bundle.mapHead_mapHead]
    refine Bundle.mapHead_congr fun op operand => ?_
    rw [Function.comp_apply, ← named op operand]
    cases op with
    | mbb p =>
      have edge := covered p operand
      by_cases self : p = b
      · subst self
        simp [MachineOperand.replaceBlock, MachineOperand.renameBlocks, renamed, later, edge]
      · simp [MachineOperand.replaceBlock, self]
    | _ => rfl
  · exact Bundle.mapHead_congr named

/-- What the two loops make of a source function, bundles and all. -/
structure Cloned (heap : BlockHeap) (src : List BlockPtr) (dst : CloneState) : Prop where
  layout : dst.layout = src.map (cloneAt heap src)
  irBlocks : dst.irBlocks = (List.range src.length).map (2 * ·)
  m2b : dst.m2b = dst.layout.zip dst.irBlocks
  instrs : ∀ b ∈ src, dst.heap.instrs (cloneAt heap src b) =
    (heap.instrs b).map (·.mapHead (.renameBlocks (cloneAt heap src)))
  succs : ∀ b ∈ src, dst.heap.succs (cloneAt heap src b) = (heap.succs b).map (cloneAt heap src)
  unchanged : ∀ b ∈ src, dst.heap.instrs b = heap.instrs b ∧ dst.heap.succs b = heap.succs b ∧
    dst.heap.preds b = heap.preds b

theorem createBasicBlocksForMfunc_ok (source : SourceFunction heap src) :
    ∃ dst, createBasicBlocksForMfunc src heap = .ok dst ∧ Cloned heap src dst := by
  obtain ⟨dst, copied, cloning⟩ := BlockCloning.start.run source (List.nil_append src).symm
  have mapped : ∀ s ∈ src, dst.blockMap.lookup s = some (cloneAt heap src s) := by
    intro s member
    rw [cloning.blockMap]
    refine EntryList.lookup_of_mem (List.mem_map_of_mem member) fun c entry => ?_
    obtain ⟨b, -, same⟩ := List.mem_map.mp entry
    obtain ⟨rfl, rfl⟩ := Prod.mk.inj same
    rfl
  obtain ⟨heap', renamed, clones, others, restored⟩ := replaceBlocks_ok source mapped (fun _ => id)
    source.nodup (fun b member => (cloning.new b member).1) (fun p old => (cloning.old p old).2.2)
  have cloned : Cloned heap src { dst with heap := heap' } := by
    refine ⟨cloning.layout, cloning.irBlocks, cloning.m2b, fun b member => ?_,
      fun b member => (clones b member).1, fun b member => ?_⟩
    · rw [(clones b member).2, (cloning.new b member).2, copyInstructions, List.map_map]
      exact List.map_congr_left fun bundle here => copied_head source member here
    · have older := source.exist b member
      have apart : b ∉ src.map (cloneAt heap src) := by
        rw [List.mem_map]
        rintro ⟨a, -, same⟩
        exact cloneAt_apart older a same.symm
      rw [(others b apart).1, (others b apart).2, (cloning.old b older).1, (cloning.old b older).2.1,
        restored b member]
      exact ⟨rfl, rfl, rfl⟩
  have closed : dst.layout.all (fun mbb => (heap'.succs mbb).all (· ∈ dst.layout)) = true := by
    simp only [List.all_eq_true, decide_eq_true_eq, cloning.layout, List.mem_map]
    rintro _ ⟨b, member, rfl⟩ s edge
    rw [(clones b member).1, List.mem_map] at edge
    obtain ⟨t, edge, rfl⟩ := edge
    exact ⟨t, source.succs b member t edge, rfl⟩
  refine ⟨_, ?_, cloned⟩
  rw [createBasicBlocksForMfunc]
  refine bind_ok.mpr ⟨dst, copied, bind_ok.mpr ⟨heap', ?_, if_pos closed⟩⟩
  rw [cloning.layout]
  exact renamed

/-- A function as the lifter goes on to read it: bundles by their heads, blocks by their
positions in the layout. -/
def functionOf (name : String) (heap : BlockHeap) (layout : List BlockPtr) : MachineFunction :=
  ⟨name, layout.map fun b => (heap.instrs b).map fun bundle =>
    bundle.head.mapOperands (.renameBlocks (layout.idxOf ·))⟩

theorem idxOf_map {σ : BlockPtr → BlockPtr} {layout : List BlockPtr} {p : BlockPtr}
    (injective : ∀ a ∈ layout, σ a = σ p → a = p) : (layout.map σ).idxOf (σ p) = layout.idxOf p := by
  induction layout with
  | nil => rfl
  | cons a rest ih =>
    obtain ⟨here, later⟩ := List.forall_mem_cons.mp injective
    by_cases same : a = p
    · simp [same]
    · have other : σ a ≠ σ p := fun equal => same (here equal)
      rw [List.map_cons, List.idxOf_cons_ne _ other, List.idxOf_cons_ne _ same, ih later]

/-- By positions the clone is the function it was made from. -/
theorem Cloned.functionOf {dst : CloneState} (cloned : Cloned heap src dst) (name : String) :
    functionOf name dst.heap dst.layout = functionOf name heap src := by
  rw [Bleach.functionOf, Bleach.functionOf, cloned.layout, List.map_map]
  refine congrArg (MachineFunction.mk name) (List.map_congr_left fun b inside => ?_)
  rw [Function.comp_apply, cloned.instrs b inside, List.map_map]
  refine List.map_congr_left fun bundle _ => ?_
  simp only [Function.comp_apply, Bundle.mapHead, MachineInstr.mapOperands, List.map_map]
  refine congrArg (MachineInstr.mk _) (List.map_congr_left fun op _ => ?_)
  cases op with
  | mbb p => exact congrArg MachineOperand.mbb (idxOf_map fun a other same => cloneAt_injective other same)
  | _ => rfl

theorem Bundle.renameBlocks_eq {σ : BlockPtr → BlockPtr} {bundle : Bundle}
    (heads : ∀ minst ∈ bundle.bundled, ∀ p, .mbb p ∉ minst.operands) :
    bundle.mapHead (.renameBlocks σ) = bundle.renameBlocks σ := by
  have unnamed : ∀ minst ∈ bundle.bundled, minst.mapOperands (.renameBlocks σ) = minst := by
    intro minst member
    have same : ∀ op ∈ minst.operands, op.renameBlocks σ = op := fun op operand => by
      cases op with
      | mbb p => exact absurd operand (heads minst member p)
      | _ => rfl
    rw [MachineInstr.mapOperands, List.map_congr_left same, List.map_id']
  rw [mapHead, Bundle.renameBlocks, List.map_congr_left unnamed, List.map_id']

theorem Bundle.renameBlocks_names {σ : BlockPtr → BlockPtr} {bundle : Bundle} {minst : MachineInstr}
    (member : minst ∈ (bundle.renameBlocks σ).instrs) {p : BlockPtr} (named : .mbb p ∈ minst.operands) :
    ∃ q, p = σ q := by
  have renamed : ∃ original, minst = MachineInstr.mapOperands (.renameBlocks σ) original := by
    rcases List.mem_cons.mp member with head | tail
    · exact ⟨_, head⟩
    · obtain ⟨original, -, same⟩ := List.mem_map.mp tail
      exact ⟨original, same.symm⟩
  obtain ⟨original, rfl⟩ := renamed
  obtain ⟨op, -, same⟩ := List.mem_map.mp named
  cases op with
  | mbb q => exact ⟨q, (MachineOperand.mbb.inj same).symm⟩
  | _ => cases same

/-- A block named behind the head of a bundle is named by the clone as well. -/
theorem Cloned.not_isomorphic (source : SourceFunction heap src) {dst : CloneState}
    (cloned : Cloned heap src dst) {b : BlockPtr} (inside : b ∈ src) {bundle : Bundle}
    (member : bundle ∈ heap.instrs b) {minst : MachineInstr} (tail : minst ∈ bundle.bundled) {p : BlockPtr}
    (named : .mbb p ∈ minst.operands) (σ : BlockPtr → BlockPtr) : ¬ Isomorphic heap src σ dst := by
  intro iso
  have edge : p ∈ heap.succs b := source.covered b inside p (List.mem_flatMap.mpr ⟨bundle, member,
    List.mem_flatMap.mpr ⟨minst, List.mem_cons_of_mem _ tail, named⟩⟩)
  have copy : cloneAt heap src b ∈ dst.layout := by
    rw [cloned.layout]
    exact List.mem_map_of_mem inside
  refine iso.operands_apart _ copy p ?_ (source.succs b inside p edge)
  rw [BlockHeap.operands, cloned.instrs b inside]
  exact List.mem_flatMap.mpr ⟨_, List.mem_map_of_mem member,
    List.mem_flatMap.mpr ⟨minst, List.mem_cons_of_mem _ tail, named⟩⟩

theorem Cloned.isomorphic (source : SourceFunction heap src) {dst : CloneState}
    (cloned : Cloned heap src dst) (heads : HeadsName heap src) :
    Isomorphic heap src (cloneAt heap src) dst := by
  have instrs : ∀ b ∈ src, dst.heap.instrs (cloneAt heap src b) =
      (heap.instrs b).map (.renameBlocks (cloneAt heap src)) := fun b inside => by
    rw [cloned.instrs b inside]
    exact List.map_congr_left fun bundle member => Bundle.renameBlocks_eq (heads b inside bundle member)
  have new : ∀ q, cloneAt heap src q ∉ src := fun q member =>
    Nat.not_le_of_lt (source.exist _ member) (cloneAt_fresh q)
  refine ⟨cloned.layout, fun a inside b _ same => cloneAt_injective inside same, instrs, cloned.succs,
    ?_, ?_, ⟨?_, ?_, ?_⟩, cloned.unchanged⟩
  · intro c copy p named
    rw [cloned.layout] at copy
    obtain ⟨b, inside, rfl⟩ := List.mem_map.mp copy
    rw [BlockHeap.operands, instrs b inside] at named
    obtain ⟨bundle, member, named⟩ := List.mem_flatMap.mp named
    obtain ⟨original, -, rfl⟩ := List.mem_map.mp member
    obtain ⟨minst, within, named⟩ := List.mem_flatMap.mp named
    obtain ⟨q, rfl⟩ := Bundle.renameBlocks_names within named
    exact new q
  · intro c copy s edge
    rw [cloned.layout] at copy
    obtain ⟨b, inside, rfl⟩ := List.mem_map.mp copy
    rw [cloned.succs b inside] at edge
    obtain ⟨q, -, rfl⟩ := List.mem_map.mp edge
    exact new q
  · rw [cloned.m2b, List.map_fst_zip (by simp [cloned.layout, cloned.irBlocks])]
  · rw [cloned.m2b, List.map_snd_zip (by simp [cloned.layout, cloned.irBlocks])]
  · rw [cloned.irBlocks]
    exact List.nodup_range.map fun a b same => Nat.eq_of_mul_eq_mul_left Nat.two_pos same

/-- The clone is the source with its blocks renamed exactly when a block is never named
behind the head of a bundle. -/
theorem clone_isomorphic_iff (source : SourceFunction heap src) :
    ∃ dst, createBasicBlocksForMfunc src heap = .ok dst ∧
      ((∃ σ, Isomorphic heap src σ dst) ↔ HeadsName heap src) := by
  obtain ⟨dst, created, cloned⟩ := createBasicBlocksForMfunc_ok source
  refine ⟨dst, created, ?_, fun heads => ⟨_, cloned.isomorphic source heads⟩⟩
  rintro ⟨σ, iso⟩ b inside bundle member minst tail p named
  exact cloned.not_isomorphic source inside member tail named σ iso

end

namespace RiscV

/-- A block that branches to itself or falls through to a second one. -/
def selfLoop (body : List Bundle) : BlockHeap where
  instrs b := if b = 0 then body else if b = 1 then [⟨ret, []⟩] else []
  succs b := if b = 0 then [0, 1] else []
  preds b := if b ≤ 1 then [0] else []
  next := 2

theorem selfLoop_source {body : List Bundle}
    (named : ∀ p, .mbb p ∈ (selfLoop body).operands 0 → p = 0 ∨ p = 1) :
    SourceFunction (selfLoop body) [0, 1] where
  nodup := by decide
  exist := by simp [selfLoop]
  succs_nodup := by simp [selfLoop]
  succs := by simp [selfLoop]
  covered := by simpa [selfLoop, BlockHeap.operands, Bundle.instrs, ret] using named
  preds := by simp [selfLoop]

def unbundledLoop : List Bundle := [⟨addi X10 X10 1, []⟩, ⟨beq X10 X11 0, []⟩, ⟨br 1, []⟩]

theorem unbundledLoop_clone : ∃ dst, createBasicBlocksForMfunc [0, 1] (selfLoop unbundledLoop) = .ok dst ∧
    ∃ σ, Isomorphic (selfLoop unbundledLoop) [0, 1] σ dst := by
  have source : SourceFunction (selfLoop unbundledLoop) [0, 1] := selfLoop_source (by
    simp [selfLoop, unbundledLoop, BlockHeap.operands, Bundle.instrs, addi, beq, br, dst, use])
  have heads : HeadsName (selfLoop unbundledLoop) [0, 1] := by
    simp [HeadsName, selfLoop, unbundledLoop]
  obtain ⟨dst, created, exactly⟩ := clone_isomorphic_iff source
  exact ⟨dst, created, exactly.mpr heads⟩

/-- The branch back is bundled to the addition in front of it. -/
def bundledLoop : List Bundle := [⟨addi X10 X10 1, [beq X10 X11 0]⟩, ⟨br 1, []⟩]

theorem bundledLoop_clone : SourceFunction (selfLoop bundledLoop) [0, 1] ∧
    ∃ dst, createBasicBlocksForMfunc [0, 1] (selfLoop bundledLoop) = .ok dst ∧
      ¬ ∃ σ, Isomorphic (selfLoop bundledLoop) [0, 1] σ dst := by
  have source : SourceFunction (selfLoop bundledLoop) [0, 1] := selfLoop_source (by
    simp [selfLoop, bundledLoop, BlockHeap.operands, Bundle.instrs, addi, beq, br, dst, use])
  obtain ⟨dst, created, cloned⟩ := createBasicBlocksForMfunc_ok source
  refine ⟨source, dst, created, ?_⟩
  rintro ⟨σ, iso⟩
  have inside : 0 ∈ [0, 1] := by decide
  have member : ⟨addi X10 X10 1, [beq X10 X11 0]⟩ ∈ (selfLoop bundledLoop).instrs 0 := by
    simp [selfLoop, bundledLoop]
  have tail : beq X10 X11 0 ∈ [beq X10 X11 0] := List.mem_singleton_self _
  have named : .mbb 0 ∈ (beq X10 X11 0).operands := by simp [beq, use]
  exact cloned.not_isomorphic source inside member tail named σ iso

end RiscV

end Bleach
