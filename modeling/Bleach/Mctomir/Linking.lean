import Bleach.Mctomir.AddressMap

/-! The last two passes: the instructions built into each block, and the edges and
blocks `link_machine_basic_blocks` adds. -/
namespace Bleach.Mctomir
variable (mia : MCInstrAnalysis) {map : AddressMap} {f : FuncId}

variable {mia}

theorem translateInsts_ok {current : BlockRef} {insts : List TranslatedInst} {built built' : BuiltBlock} :
    translateInsts mia map current insts built = .ok built' ↔
      ∃ made, List.Forall₂ (fun t m => createMachineInstr mia map current t = .ok m) insts made ∧
        built' = ⟨built.instrs ++ made.map Prod.fst, built.successors ++ made.filterMap Prod.snd⟩ := by
  induction insts generalizing built with
  | nil =>
    simp only [translateInsts, Except.ok.injEq, List.forall₂_nil_left_iff]
    constructor
    · rintro rfl
      exact ⟨[], rfl, by simp⟩
    · rintro ⟨made, rfl, rfl⟩
      simp
  | cons t rest ih =>
    rw [translateInsts, bind_ok]
    constructor
    · rintro ⟨⟨instr, successor⟩, here, done⟩
      obtain ⟨made, all, rfl⟩ := ih.mp done
      refine ⟨(instr, successor) :: made, .cons here all, ?_⟩
      cases successor <;> simp
    · rintro ⟨made, all, rfl⟩
      cases all with
      | @cons _ m _ made here later =>
        refine ⟨m, here, ih.mpr ⟨made, later, ?_⟩⟩
        obtain ⟨instr, successor⟩ := m
        cases successor <;> simp

/-- The blocks got the machine blocks from `base` on. -/
def Placed (f : FuncId) (base : Nat) (blocks : List TranslatedBlock) : Prop :=
  ∀ (j : Nat) (block : TranslatedBlock), blocks[j]? = some block → block.mbb = some ⟨f, base + j⟩

theorem Placed.head {base : Nat} {block : TranslatedBlock} {blocks : List TranslatedBlock}
    (placed : Placed f base (block :: blocks)) : block.mbb = some ⟨f, base⟩ := placed 0 block rfl

theorem Placed.tail {base : Nat} {block : TranslatedBlock} {blocks : List TranslatedBlock}
    (placed : Placed f base (block :: blocks)) : Placed f (base + 1) blocks := by
  intro j block' found
  rw [placed (j + 1) block' found, Nat.add_assoc, Nat.add_comm 1 j]

/-- Each block is filled with its own instructions. -/
theorem translateBlocks_ok {blocks : List TranslatedBlock} {before mfunc : List BuiltBlock}
    (placed : Placed f before.length blocks)
    (run : translateBlocks mia map blocks
      (before ++ List.replicate blocks.length emptyBlock) = .ok mfunc) :
    ∃ made, mfunc = before ++ made ∧ made.length = blocks.length ∧
      ∀ j block, blocks[j]? = some block → ∃ built,
        translateInsts mia map ⟨f, before.length + j⟩ block.instrs emptyBlock = .ok built ∧
          made[j]? = some built := by
  induction blocks generalizing before with
  | nil =>
    cases run
    exact ⟨[], by simp, rfl, by simp⟩
  | cons block blocks ih =>
    simp only [translateBlocks, placed.head] at run
    obtain ⟨built, here, run⟩ := bind_ok.mp run
    simp only [List.length_cons, List.replicate_succ, List.getElem?_append_right (Nat.le_refl _),
      Nat.sub_self, List.getElem?_cons_zero, Option.getD_some, List.set_append_right,
      List.set_cons_zero, Nat.le_refl] at here run
    have start : before ++ built :: List.replicate blocks.length emptyBlock =
        before ++ [built] ++ List.replicate blocks.length emptyBlock := by simp
    have shift : (before ++ [built]).length = before.length + 1 := by simp
    rw [start] at run
    obtain ⟨made, rfl, length, all⟩ := ih (by rw [shift]; exact placed.tail) run
    refine ⟨built :: made, by simp, by simp [length], fun j block' found => ?_⟩
    cases j with
    | zero =>
      cases found
      exact ⟨built, here, rfl⟩
    | succ j =>
      obtain ⟨built', there, at_j⟩ := all j block' found
      rw [shift, Nat.add_assoc, Nat.add_comm 1 j] at there
      exact ⟨built', there, at_j⟩

variable (mia)

/-- Control can run on behind the instruction. -/
def fallsThrough (t : TranslatedInst) : Bool :=
  if mia.isBranch t.inst then !mia.isUnconditionalBranch t.inst else !mia.isReturn t.inst

/-- The fallthrough edge of a block; a branch to the next block already has it. -/
def fallthroughEdge (next : Option BlockRef) (block : TranslatedBlock) (successors : List BlockRef) :
    List BlockRef :=
  match block.instrs.getLast? with
  | some last =>
    if fallsThrough mia last then
      next.toList.filter fun next => !(mia.isBranch last.inst && successors.contains next)
    else []
  | none => []

/-- The target the pass looks up for a block. -/
def blockTarget (block : TranslatedBlock) : Option Address :=
  block.instrs.getLast?.bind fun last => if mia.isBranch last.inst then branchTarget mia last else none

def withEdges (edges : List BlockRef) (built : BuiltBlock) : BuiltBlock :=
  { built with successors := built.successors ++ edges }

/-- The entries of blocks created for addresses without one, from block `base` on. -/
def createdEntries (f : FuncId) (base : Nat) (addresses : List Address) : AddressMap :=
  (addresses.mapIdx fun j a => (a, ⟨f, base + j⟩)).reverse

def unresolved (map : AddressMap) (targets : List Address) : List Address :=
  EntryList.fresh (fun a => (map.lookup a).isSome) targets

variable {mia}

@[simp] theorem withEdges_nil (built : BuiltBlock) : withEdges [] built = built := by
  simp [withEdges]

theorem modify_withEdges_nil (mfunc : List BuiltBlock) (i : Nat) :
    mfunc.modify i (withEdges []) = mfunc := by
  have nothing : withEdges [] = id := funext withEdges_nil
  rw [nothing, List.modify_id]

theorem addSuccessor_eq (mfunc : List BuiltBlock) (i : Nat) (r : BlockRef) :
    addSuccessor mfunc i r = mfunc.modify i (withEdges [r]) := rfl

theorem getOrCreateMbbForAddress_eq (target : Address) (map : AddressMap) (mfunc : List BuiltBlock) :
    getOrCreateMbbForAddress f target map mfunc =
      (createdEntries f mfunc.length (unresolved map [target]) ++ map,
        mfunc ++ List.replicate (unresolved map [target]).length emptyBlock) := by
  unfold getOrCreateMbbForAddress unresolved
  cases found : map.lookup target <;> simp [EntryList.fresh, found, createdEntries]

/-- A block of its own is created only for a target no block starts at. -/
theorem linkTarget_eq (current : BlockRef) (last : TranslatedInst) (map : AddressMap)
    (mfunc : List BuiltBlock) :
    linkTarget mia f current last map mfunc =
      (createdEntries f mfunc.length (unresolved map (branchTarget mia last).toList) ++ map,
        mfunc ++ List.replicate (unresolved map (branchTarget mia last).toList).length emptyBlock) := by
  unfold linkTarget
  cases branchTarget mia last with
  | none => simp [unresolved, EntryList.fresh, createdEntries]
  | some target =>
    cases found : map.lookup target with
    | none => simp only [found, getOrCreateMbbForAddress_eq, Option.toList_some]
    | some r =>
      have known : unresolved map [target] = [] := by simp [unresolved, EntryList.fresh, found]
      simp only [found, getOrCreateMbbForAddress_eq, Option.toList_some, known]
      split <;> simp [createdEntries]

theorem modify_append_left {α : Type} (g : α → α) {l l' : List α} {i : Nat} (inside : i < l.length) :
    (l ++ l').modify i g = l.modify i g ++ l' := by
  induction l generalizing i with
  | nil => simp at inside
  | cons a l ih =>
    cases i with
    | zero => rfl
    | succ i => simpa using ih (Nat.lt_of_succ_lt_succ inside)

theorem modify_append_here {α : Type} (g : α → α) (before : List α) (a : α) (after : List α) :
    (before ++ a :: after).modify before.length g = before ++ g a :: after := by
  induction before with
  | nil => rfl
  | cons b before ih => simpa using ih

theorem linkNext_eq {current : BlockRef} {next : Option BlockRef} {skip : Bool}
    {mfunc created : List BuiltBlock} (inside : current.idx < mfunc.length) :
    linkNext current next skip (mfunc ++ created) =
      mfunc.modify current.idx (withEdges (next.toList.filter fun next =>
        !(skip && ((mfunc[current.idx]?).getD emptyBlock).successors.contains next))) ++ created := by
  unfold linkNext
  cases next with
  | none => simp [modify_withEdges_nil]
  | some next =>
    simp only [List.getElem?_append_left inside, addSuccessor_eq, modify_append_left _ inside,
      Option.toList_some]
    by_cases present : (skip && ((mfunc[current.idx]?).getD emptyBlock).successors.contains next) = true
    · rw [if_pos present, List.filter_cons_of_neg (by simpa using present), List.filter_nil,
        modify_withEdges_nil]
    · rw [if_neg present]
      rw [Bool.not_eq_true] at present
      rw [List.filter_cons_of_pos (by rw [present]; rfl), List.filter_nil]

theorem linkBlock_eq {i : Nat} {next : Option BlockRef} {block : TranslatedBlock} {mfunc : List BuiltBlock}
    (placed : block.mbb = some ⟨f, i⟩) (inside : i < mfunc.length) :
    linkBlock mia f next block map mfunc =
      (createdEntries f mfunc.length (unresolved map (blockTarget mia block).toList) ++ map,
        mfunc.modify i (withEdges (fallthroughEdge mia next block
            ((mfunc[i]?).getD emptyBlock).successors)) ++
          List.replicate (unresolved map (blockTarget mia block).toList).length emptyBlock) := by
  have whole : mfunc = mfunc ++ [] := (List.append_nil _).symm
  unfold linkBlock blockTarget fallthroughEdge
  cases ends : block.instrs.getLast? with
  | none => simp [placed, modify_withEdges_nil, unresolved, EntryList.fresh, createdEntries]
  | some last =>
    simp only [placed, Option.bind_some, fallsThrough]
    by_cases branch : mia.isBranch last.inst = true
    · simp only [branch, if_true, linkTarget_eq, Bool.true_and]
      by_cases always : mia.isUnconditionalBranch last.inst = true
      · simp [always, modify_withEdges_nil]
      · have sometimes : (!mia.isUnconditionalBranch last.inst) = true := by simpa using always
        rw [if_pos sometimes, if_pos sometimes, @linkNext_eq ⟨f, i⟩ _ _ _ _ inside]
        simp
    · rw [Bool.not_eq_true] at branch
      simp only [branch, if_false, Bool.false_eq_true, Option.toList_none, Bool.false_and]
      by_cases returns : mia.isReturn last.inst = true
      · simp [returns, modify_withEdges_nil, unresolved, EntryList.fresh, createdEntries]
      · rw [if_neg returns, whole, @linkNext_eq ⟨f, i⟩ _ _ _ _ inside]
        simp [returns, unresolved, EntryList.fresh, createdEntries]

variable (mia)

/-- The built blocks with their fallthrough edges; `base` is the first one's position. -/
def withFallthrough (f : FuncId) : Nat → List TranslatedBlock → List BuiltBlock → List BuiltBlock
  | base, block :: rest, built :: made =>
    let next := if rest.isEmpty then none else some ⟨f, base + 1⟩
    withEdges (fallthroughEdge mia next block built.successors) built ::
      withFallthrough f (base + 1) rest made
  | _, _, _ => []

variable {mia}

theorem createdEntries_append (base : Nat) (xs ys : List Address) :
    createdEntries f base (xs ++ ys) =
      createdEntries f (base + xs.length) ys ++ createdEntries f base xs := by
  have shift : ∀ j, base + (j + xs.length) = base + xs.length + j := by omega
  simp only [createdEntries, List.mapIdx_append, List.reverse_append, shift]

theorem lookup_createdEntries {base : Nat} {new : List Address} {a : Address} :
    ((createdEntries f base new ++ map).lookup a).isSome = (a ∈ new || (map.lookup a).isSome) := by
  rw [List.lookup_append, Option.isSome_or]
  congr 1
  rw [Bool.eq_iff_iff, Option.isSome_iff_ne_none, Ne, EntryList.lookup_none_iff, decide_eq_true_iff]
  simp only [createdEntries, List.mem_reverse, List.mem_mapIdx, Prod.mk.injEq, not_forall, not_not]
  constructor
  · rintro ⟨r, j, bound, rfl, -⟩
    exact List.getElem_mem bound
  · intro member
    obtain ⟨j, bound, here⟩ := List.mem_iff_getElem.mp member
    exact ⟨_, j, bound, here, rfl⟩

theorem unresolved_append (base : Nat) (xs ys : List Address) :
    unresolved map (xs ++ ys) =
      unresolved map xs ++ unresolved (createdEntries f base (unresolved map xs) ++ map) ys := by
  unfold unresolved
  rw [EntryList.fresh_append]
  congr 2
  funext a
  rw [lookup_createdEntries, Bool.or_comm]

theorem next_of_placed {base : Nat} {rest : List TranslatedBlock} (placed : Placed f (base + 1) rest) :
    rest.head?.bind TranslatedBlock.mbb = if rest.isEmpty then none else some ⟨f, base + 1⟩ := by
  cases rest with
  | nil => rfl
  | cons block rest => exact placed.head

theorem linkBlocks_eq {blocks : List TranslatedBlock} {before made created : List BuiltBlock}
    (placed : Placed f before.length blocks) (length : made.length = blocks.length) :
    linkBlocks mia f blocks map (before ++ made ++ created) =
      (createdEntries f (before ++ made ++ created).length
          (unresolved map (blocks.filterMap (blockTarget mia))) ++ map,
        before ++ withFallthrough mia f before.length blocks made ++ created ++
          List.replicate (unresolved map (blocks.filterMap (blockTarget mia))).length emptyBlock) := by
  induction blocks generalizing before made created map with
  | nil =>
    obtain rfl := List.length_eq_zero_iff.mp length
    simp [linkBlocks, withFallthrough, unresolved, EntryList.fresh, createdEntries]
  | cons block rest ih =>
    obtain ⟨built, made, rfl⟩ := List.exists_cons_of_length_eq_add_one length
    have length : made.length = rest.length := Nat.succ.inj length
    have inside : before.length < (before ++ built :: made ++ created).length := by
      simp only [List.length_append, List.length_cons]
      omega
    have at_start : (before ++ built :: made ++ created)[before.length]? = some built := by
      simp
    have targets : (block :: rest).filterMap (blockTarget mia) =
        (blockTarget mia block).toList ++ rest.filterMap (blockTarget mia) := by
      cases found : blockTarget mia block <;> simp [found]
    rw [linkBlocks, linkBlock_eq placed.head inside, next_of_placed placed.tail, at_start,
      Option.getD_some]
    set next : Option BlockRef := if rest.isEmpty then none else some ⟨f, before.length + 1⟩ with next_eq
    set new := unresolved map (blockTarget mia block).toList with new_eq
    set here := withEdges (fallthroughEdge mia next block built.successors) built with here_eq
    have shape : (before ++ built :: made ++ created).modify before.length
        (withEdges (fallthroughEdge mia next block built.successors)) ++
          List.replicate new.length emptyBlock =
        before ++ [here] ++ made ++ (created ++ List.replicate new.length emptyBlock) := by
      rw [List.append_assoc before, List.cons_append, modify_append_here]
      simp [here_eq]
    have shift : (before ++ [here]).length = before.length + 1 := by simp
    have sizes : (before ++ [here] ++ made ++ (created ++ List.replicate new.length emptyBlock)).length =
        (before ++ built :: made ++ created).length + new.length := by
      simp only [List.length_append, List.length_cons, List.length_replicate, List.length_nil]
      omega
    dsimp only
    rw [shape, ih (by rw [shift]; exact placed.tail) length, sizes, targets,
      unresolved_append (f := f) (before ++ built :: made ++ created).length, ← new_eq,
      createdEntries_append, withFallthrough]
    simp [next_eq, here_eq]

end Bleach.Mctomir
