import Bleach.Base.Positions
import Bleach.Mctomir.Disassembly

/-! Translating a function beside more functions: its result is the same, up to the
positions of the functions, exactly when the same functions own its targets. An
alias of its code takes them over. -/
namespace Bleach.Mctomir

section Rename
variable (σ : FuncId → FuncId)

def BlockRef.rename (r : BlockRef) : BlockRef := { r with func := σ r.func }

def Operand.rename : Operand → Operand
  | .mbb r => .mbb (r.rename σ)
  | .global f => .global (σ f)
  | op => op

def BuiltInstr.rename (instr : BuiltInstr) : BuiltInstr :=
  { instr with operands := instr.operands.map (Operand.rename σ) }

def BuiltBlock.rename (built : BuiltBlock) : BuiltBlock :=
  ⟨built.instrs.map (BuiltInstr.rename σ), built.successors.map (BlockRef.rename σ)⟩

def TranslatedBlock.rename (block : TranslatedBlock) : TranslatedBlock :=
  { block with mbb := block.mbb.map (BlockRef.rename σ) }

/-- The second result is the first one, with the functions at their new positions. -/
def SameTranslation (func func' : TranslatedFunction) : Prop :=
  func'.blocks = func.blocks.map (TranslatedBlock.rename σ) ∧
    func'.mfunc = func.mfunc.map (BuiltBlock.rename σ)

/-- The same functions own the targets of the function's direct transfers. -/
def OwnersKept (mia : MCInstrAnalysis) (funcs funcs' : List DecodedFunction) (d : DecodedFunction) : Prop :=
  ∀ t ∈ d.insts, ∀ a, operandTarget mia t = some a →
    (owner mia funcs' a).map BlockRef.func = (owner mia funcs a).map fun r => σ r.func

end Rename

variable {σ : FuncId → FuncId} {mia : MCInstrAnalysis} {map map' : AddressMap} {current : BlockRef}
  {t : TranslatedInst}

theorem BlockRef.rename_injective (inj : Function.Injective σ) : Function.Injective (BlockRef.rename σ) := by
  rintro ⟨f, i⟩ ⟨g, j⟩ same
  simp only [BlockRef.rename, BlockRef.mk.injEq] at same
  rw [inj same.1, same.2]

theorem Operand.rename_plain {op : Operand} (plain : op.isPlain = true) : op.rename σ = op := by
  cases op with
  | mbb r => cases plain
  | global f => cases plain
  | _ => rfl

theorem Operand.isPlain_rename (σ : FuncId → FuncId) (op : Operand) :
    (op.rename σ).isPlain = op.isPlain := by
  cases op <;> rfl

theorem map_rename_plain {operands : List Operand} (plain : ∀ op ∈ operands, op.isPlain = true) :
    operands.map (Operand.rename σ) = operands := by
  rw [List.map_congr_left fun op member => Operand.rename_plain (plain op member)]
  exact List.map_id _

theorem isCall_rename (inj : Function.Injective σ) (inst : MCInst) (found : BlockRef) :
    isCall mia inst (current.rename σ) (found.rename σ) = isCall mia inst current found ∧
      isTailCall mia inst (current.rename σ) (found.rename σ) = isTailCall mia inst current found := by
  have same : (σ found.func != σ current.func) = (found.func != current.func) := by
    rw [Bool.eq_iff_iff, bne_iff_ne, bne_iff_ne, Ne, inj.eq_iff]
  simp [isCall, isTailCall, BlockRef.rename, same]

/-- With its target owned by the same block, an instruction is built the same way. -/
theorem createMachineInstr_rename (inj : Function.Injective σ)
    (kept : ∀ a, operandTarget mia t = some a → map'.lookup a = (map.lookup a).map (BlockRef.rename σ))
    {instr : BuiltInstr} {successor : Option BlockRef}
    (made : createMachineInstr mia map current t = .ok (instr, successor)) :
    createMachineInstr mia map' (current.rename σ) t =
      .ok (instr.rename σ, successor.map (BlockRef.rename σ)) := by
  unfold createMachineInstr at made ⊢
  cases target : operandTarget mia t with
  | none =>
    simp only [target] at made ⊢
    obtain ⟨operands, filled, made⟩ := bind_ok.mp made
    cases made
    refine bind_ok.mpr ⟨operands, filled, ?_⟩
    simp [BuiltInstr.rename, map_rename_plain (fillOperands_plain filled)]
  | some a =>
    simp only [target] at made ⊢
    split at made
    · next shape =>
      rw [if_pos shape]
      cases found : map.lookup a with
      | none =>
        simp only [found, kept a target, Option.map_none] at made ⊢
        obtain ⟨operands, filled, made⟩ := bind_ok.mp made
        cases made
        refine bind_ok.mpr ⟨operands, filled, ?_⟩
        simp [BuiltInstr.rename, map_rename_plain (fillOperands_plain filled)]
      | some r =>
        simp only [found, kept a target, Option.map_some, (isCall_rename inj _ r).1,
          (isCall_rename inj _ r).2] at made ⊢
        split at made
        · next call =>
          rw [if_pos call]
          split at made
          · next tail =>
            rw [if_pos tail]
            cases made
            rfl
          · next tail =>
            rw [if_neg tail]
            obtain ⟨operands, filled, made⟩ := bind_ok.mp made
            cases made
            refine bind_ok.mpr ⟨operands, filled, ?_⟩
            simp [BuiltInstr.rename, map_rename_plain (fillOperands_plain filled), Operand.rename,
              BlockRef.rename]
        · next call =>
          rw [if_neg call]
          obtain ⟨operands, filled, made⟩ := bind_ok.mp made
          cases made
          refine bind_ok.mpr ⟨operands, filled, ?_⟩
          simp [BuiltInstr.rename, map_rename_plain (fillOperands_plain filled), Operand.rename]
    · cases made

theorem translateInsts_rename (inj : Function.Injective σ) {insts : List TranslatedInst}
    (kept : ∀ t ∈ insts, ∀ a, operandTarget mia t = some a →
      map'.lookup a = (map.lookup a).map (BlockRef.rename σ)) {built built' : BuiltBlock}
    (run : translateInsts mia map current insts built = .ok built') :
    translateInsts mia map' (current.rename σ) insts (built.rename σ) = .ok (built'.rename σ) := by
  induction insts generalizing built with
  | nil =>
    cases run
    rfl
  | cons t rest ih =>
    obtain ⟨⟨instr, successor⟩, here, run⟩ := bind_ok.mp run
    refine bind_ok.mpr ⟨_, createMachineInstr_rename inj (kept t List.mem_cons_self) here, ?_⟩
    have later := ih (fun u inside => kept u (List.mem_cons_of_mem _ inside)) run
    rw [← later]
    cases successor <;> simp [BuiltBlock.rename]

theorem fallthroughEdge_rename (inj : Function.Injective σ) (next : Option BlockRef)
    (block : TranslatedBlock) (successors : List BlockRef) :
    fallthroughEdge mia (next.map (BlockRef.rename σ)) (block.rename σ)
        (successors.map (BlockRef.rename σ)) =
      (fallthroughEdge mia next block successors).map (BlockRef.rename σ) := by
  have member : ∀ r : BlockRef, (successors.map (BlockRef.rename σ)).contains (r.rename σ) =
      successors.contains r := by
    intro r
    rw [Bool.eq_iff_iff, List.contains_iff_mem, List.contains_iff_mem,
      List.mem_map_of_injective (BlockRef.rename_injective inj)]
  have same : (block.rename σ).instrs = block.instrs := rfl
  rw [fallthroughEdge, fallthroughEdge, same]
  cases block.instrs.getLast? with
  | none => rfl
  | some last =>
    simp only
    split
    · cases next with
      | none => rfl
      | some r =>
        simp only [Option.map_some, Option.toList_some, List.filter_cons, List.filter_nil, member]
        split <;> rfl
    · rfl

def Operand.function? : Operand → Option FuncId
  | .mbb r => some r.func
  | .global f => some f
  | _ => none

theorem Operand.function?_rename (op : Operand) : (op.rename σ).function? = op.function?.map σ := by
  cases op <;> rfl

theorem transfer_isPlain {op : Operand} (target : transfer mia map current t = some op) :
    op.isPlain = false := by
  obtain ⟨a, -, found⟩ := Option.bind_eq_some_iff.mp target
  obtain ⟨r, -, rfl⟩ := Option.map_eq_some_iff.mp found
  split <;> rfl

theorem transfer_function (map : AddressMap) (current : BlockRef) {a : Address}
    (target : operandTarget mia t = some a) :
    (transfer mia map current t).bind Operand.function? = (map.lookup a).map BlockRef.func := by
  rw [transfer, target, Option.bind_some]
  cases map.lookup a with
  | none => rfl
  | some r =>
    rw [Option.map_some, Option.map_some, Option.bind_some]
    split <;> rfl

theorem transfer_of_rename {current' : BlockRef} {instr : BuiltInstr}
    {successor successor' : Option BlockRef}
    (made : createMachineInstr mia map current t = .ok (instr, successor))
    (made' : createMachineInstr mia map' current' t = .ok (instr.rename σ, successor')) :
    transfer mia map' current' t = (transfer mia map current t).map (Operand.rename σ) := by
  cases here : transfer mia map current t with
  | some op =>
    have member := (mem_operands made (transfer_isPlain here)).mpr here
    exact (mem_operands made' ((Operand.isPlain_rename σ op).trans (transfer_isPlain here))).mp
      (List.mem_map_of_mem member)
  | none =>
    rw [Option.map_none, Option.eq_none_iff_forall_not_mem]
    intro op' there
    have member := (mem_operands made' (transfer_isPlain there)).mpr there
    obtain ⟨op, inside, rfl⟩ := List.mem_map.mp member
    have reference := (Operand.isPlain_rename σ op).symm.trans (transfer_isPlain there)
    rw [(mem_operands made reference).mp inside] at here
    cases here

section Runs
variable {funcs funcs' : List DecodedFunction} {k : FuncId} {d : DecodedFunction}
  {func func' : TranslatedFunction}

/-- Within a function the block at an address is fixed, so its owner's function determines it. -/
theorem owner_rename {a : Address} (embeds : Embeds σ funcs funcs')
    (distinct : ∀ d ∈ funcs, (blockStarts mia d).Nodup)
    (same : (owner mia funcs' a).map BlockRef.func = (owner mia funcs a).map fun r => σ r.func) :
    owner mia funcs' a = (owner mia funcs a).map (BlockRef.rename σ) := by
  cases owned : owner mia funcs a with
  | none =>
    rw [owned, Option.map_none, Option.map_eq_none_iff] at same
    rw [same, Option.map_none]
  | some r =>
    rw [owned, Option.map_some] at same
    obtain ⟨r', owned', here⟩ := Option.map_eq_some_iff.mp same
    obtain ⟨d, found, start⟩ := owner_some owned
    obtain ⟨d', found', start'⟩ := owner_some owned'
    rw [here, embeds.kept _ d found] at found'
    obtain rfl := Option.some.inj found'
    have index : r'.idx = r.idx :=
      (List.getElem?_inj (List.getElem?_eq_some_iff.mp start').1
        (distinct d (List.mem_of_getElem? found))).mp (start'.trans start.symm)
    rw [owned', Option.map_some, BlockRef.rename, ← here, ← index]

theorem Finalized.owners_kept (result : Finalized mia funcs k d func)
    (result' : Finalized mia funcs' (σ k) d func') (same : SameTranslation σ func func') :
    OwnersKept σ mia funcs funcs' d := by
  intro t inside a target
  obtain ⟨block, member, at_t⟩ := result.split.mem_iff.mp inside
  obtain ⟨i, at_block⟩ := List.mem_iff_getElem?.mp member
  obtain ⟨j, at_j⟩ := List.mem_iff_getElem?.mp at_t
  obtain ⟨built, at_built⟩ : ∃ built, func.mfunc[i]? = some built :=
    have ⟨_, _, at_built⟩ := result.built i block at_block
    ⟨_, at_built⟩
  have at_block' : func'.blocks[i]? = some (block.rename σ) := by
    rw [same.1, List.getElem?_map, at_block]
    rfl
  have at_built' : func'.mfunc[i]? = some (built.rename σ) := by
    rw [same.2, List.getElem?_map, at_built]
    rfl
  obtain ⟨instr, at_instr, _, made⟩ := forall₂_get (result.instrs_built at_block at_built) at_j
  obtain ⟨instr', at_instr', _, made'⟩ := forall₂_get (result'.instrs_built at_block' at_built') at_j
  obtain rfl : instr.rename σ = instr' := by
    rw [BuiltBlock.rename, List.getElem?_map, at_instr] at at_instr'
    exact Option.some.inj at_instr'
  have transfers := transfer_of_rename made made'
  have owners := transfer_function (blockMap mia funcs) ⟨k, i⟩ target
  have owners' := transfer_function (blockMap mia funcs') ⟨σ k, i⟩ target
  change _ = (owner mia funcs a).map BlockRef.func at owners
  change _ = (owner mia funcs' a).map BlockRef.func at owners'
  have split : ((owner mia funcs a).map fun r => σ r.func) =
      ((owner mia funcs a).map BlockRef.func).map σ := by
    rw [Option.map_map]
    rfl
  rw [split, ← owners', ← owners, transfers]
  cases transfer mia (blockMap mia funcs) ⟨k, i⟩ t with
  | none => rfl
  | some op => exact Operand.function?_rename op

theorem placedBlocks_rename (f : FuncId) (blocks : List TranslatedBlock) :
    placedBlocks (σ f) blocks = (placedBlocks f blocks).map (TranslatedBlock.rename σ) := by
  apply List.ext_getElem?
  intro i
  simp only [placedBlocks, List.getElem?_mapIdx, List.getElem?_map, Option.map_map]
  rfl

theorem nextRef_rename (f : FuncId) (n i : Nat) :
    nextRef (σ f) n i = (nextRef f n i).map (BlockRef.rename σ) := by
  unfold nextRef
  split <;> rfl

theorem withEdges_rename (edges : List BlockRef) (built : BuiltBlock) :
    (withEdges edges built).rename σ = withEdges (edges.map (BlockRef.rename σ)) (built.rename σ) := by
  simp [withEdges, BuiltBlock.rename]

theorem Finalized.blocks_rename (result : Finalized mia funcs k d func)
    (result' : Finalized mia funcs' (σ k) d func') :
    func'.blocks = func.blocks.map (TranslatedBlock.rename σ) := by
  obtain ⟨blocks, identified, same⟩ := result.identified
  obtain ⟨blocks', identified', same'⟩ := result'.identified
  obtain rfl := Except.ok.inj (identified.symm.trans identified')
  rw [same, same', placedBlocks_rename]

theorem Finalized.mfunc_rename (inj : Function.Injective σ)
    (result : Finalized mia funcs k d func) (result' : Finalized mia funcs' (σ k) d func')
    (owners : ∀ t ∈ d.insts, ∀ a, operandTarget mia t = some a →
      owner mia funcs' a = (owner mia funcs a).map (BlockRef.rename σ))
    (sizes : (created mia funcs' (σ k) d).length = (created mia funcs k d).length) :
    func'.mfunc = func.mfunc.map (BuiltBlock.rename σ) := by
  have blocks := result.blocks_rename result'
  have same_blocks : func'.blocks.length = func.blocks.length := by rw [blocks, List.length_map]
  have same_length : func'.mfunc.length = func.mfunc.length := by
    rw [result.length, result'.length, same_blocks, sizes]
  apply List.ext_getElem?
  intro i
  rw [List.getElem?_map]
  rcases Nat.lt_or_ge i func.blocks.length with inside | behind
  · have at_block := List.getElem?_eq_getElem inside
    have at_block' : func'.blocks[i]? = some (func.blocks[i].rename σ) := by
      rw [blocks, List.getElem?_map, at_block]
      rfl
    obtain ⟨built, run, at_built⟩ := result.built i _ at_block
    obtain ⟨built', run', at_built'⟩ := result'.built i _ at_block'
    have kept : ∀ t ∈ func.blocks[i].instrs, ∀ a, operandTarget mia t = some a →
        (blockMap mia funcs').lookup a = ((blockMap mia funcs).lookup a).map (BlockRef.rename σ) :=
      fun t at_t => owners t (result.split.mem_iff.mpr ⟨_, List.mem_of_getElem? at_block, at_t⟩)
    have renamed := translateInsts_rename inj kept run
    obtain rfl : built.rename σ = built' := Except.ok.inj (renamed.symm.trans run')
    rw [at_built, at_built', Option.map_some, withEdges_rename, ← fallthroughEdge_rename inj,
      same_blocks, nextRef_rename]
    rfl
  · rcases Nat.lt_or_ge i func.mfunc.length with created | outside
    · rw [result.appended i behind created,
        result'.appended i (by rwa [same_blocks]) (by rwa [same_length])]
      rfl
    · rw [List.getElem?_eq_none outside, List.getElem?_eq_none (by rwa [same_length]), Option.map_none]

theorem same_translation_of_embeds {tr tr' : Translation} (embeds : Embeds σ funcs funcs')
    (sorted : ∀ d ∈ funcs, d.insts.Pairwise fun t u => t.address < u.address)
    (done : finalize mia funcs = .ok tr) (done' : finalize mia funcs' = .ok tr')
    (found : funcs[k]? = some d) (at_k : tr.funcs[k]? = some func)
    (at_k' : tr'.funcs[σ k]? = some func') :
    SameTranslation σ func func' ↔ OwnersKept σ mia funcs funcs' d ∧
      (created mia funcs' (σ k) d).length = (created mia funcs k d).length := by
  obtain ⟨g, at_g, result⟩ := (finalize_ok done).2 k d found
  obtain rfl := Option.some.inj (at_g.symm.trans at_k)
  obtain ⟨g', at_g', result'⟩ := (finalize_ok done').2 (σ k) d (embeds.kept k d found)
  obtain rfl := Option.some.inj (at_g'.symm.trans at_k')
  constructor
  · intro same
    refine ⟨result.owners_kept result' same, ?_⟩
    have blocks := congrArg List.length same.1
    have sizes := congrArg List.length same.2
    rw [List.length_map] at blocks sizes
    rw [result.length, result'.length] at sizes
    omega
  · rintro ⟨owners, sizes⟩
    have distinct : ∀ d ∈ funcs, (blockStarts mia d).Nodup := fun d member =>
      blockStarts_nodup (sorted d member)
    exact ⟨result.blocks_rename result', result.mfunc_rename embeds.injective result'
      (fun t inside a target => owner_rename embeds distinct (owners t inside a target)) sizes⟩

end Runs

section Tables
variable {dis : MCDisassembler} {order : StartSort} {n : Nat} {sec : Section}
  {symbols symbols' : List Symbol} {s : Symbol} {funcs funcs' : List DecodedFunction}

/-- Functions are decoded one by one, so a further symbol only moves them. -/
theorem processDisassembly_embeds (added : symbols'.Perm (s :: symbols))
    (run : processDisassembly dis order n sec symbols = .ok funcs)
    (run' : processDisassembly dis order n sec symbols' = .ok funcs') :
    ∃ σ, Embeds σ funcs funcs' := by
  obtain ⟨σ, whole⟩ := Embeds.of_perm (order.perm (symbols.filterMap Symbol.function?))
  obtain ⟨τ, inside⟩ : ∃ τ, Embeds τ (symbols.filterMap Symbol.function?)
      ((s :: symbols).filterMap Symbol.function?) := by
    cases here : s.function? with
    | none =>
      rw [List.filterMap_cons_none here]
      exact ⟨id, .refl _⟩
    | some func =>
      rw [List.filterMap_cons_some here]
      exact ⟨_, .add func _⟩
  obtain ⟨ρ, back⟩ := Embeds.of_perm
    ((added.filterMap Symbol.function?).symm.trans (order.perm (symbols'.filterMap Symbol.function?)).symm)
  exact ⟨_, ((whole.trans inside).trans back).mapM run run'⟩

/-- The result for a function is independent of a further symbol exactly when that
takes over no target of the function and changes nothing about the blocks the
function gets for unresolved targets. -/
theorem same_translation_iff {tr tr' : Translation} (added : symbols'.Perm (s :: symbols))
    (run : processDisassembly dis order n sec symbols = .ok funcs)
    (run' : processDisassembly dis order n sec symbols' = .ok funcs')
    (done : finalize mia funcs = .ok tr) (done' : finalize mia funcs' = .ok tr') :
    (∃ σ, Embeds σ funcs funcs') ∧ ∀ σ, Embeds σ funcs funcs' →
      ∀ (k : Nat) (d : DecodedFunction) (func func' : TranslatedFunction), funcs[k]? = some d →
        tr.funcs[k]? = some func → tr'.funcs[σ k]? = some func' →
          (SameTranslation σ func func' ↔ OwnersKept σ mia funcs funcs' d ∧
            (created mia funcs' (σ k) d).length = (created mia funcs k d).length) := by
  refine ⟨processDisassembly_embeds added run run', fun σ embeds k d func func' found at_k at_k' => ?_⟩
  have sorted := fun d member => (processDisassembly_ordered run d member).2
  exact same_translation_of_embeds embeds sorted done done' found at_k at_k'

end Tables

def startSort : StartSort where
  sort := List.insertionSort fun d e => d.start ≤ e.start
  perm funcs := List.perm_insertionSort _ funcs
  sorted funcs :=
    have : Std.Total fun d e : DecodedFunction => d.start ≤ e.start :=
      ⟨fun d e => BitVec.le_total d.start e.start⟩
    have : IsTrans DecodedFunction fun d e => d.start ≤ e.start :=
      ⟨fun _ _ _ => BitVec.le_trans⟩
    List.pairwise_insertionSort _ funcs

/-- An instruction, a branch back to it and a return. -/
def countdownSection : Section := ⟨0x1000, [0, 10, 0, 0, 1, 10, 0xfc, 0, 4, 0, 0, 0], by decide⟩

def countdown : Symbol := ⟨some "countdown", some .function, some 0x1000, 12, some 0⟩

/-- A second name for the code of `countdown`. -/
def weakCountdown : Symbol := { countdown with name := some "weak_countdown" }

/-- With the alias behind it, the loop of `countdown` goes to a block of the alias. -/
theorem alias_takes_branch : ∃ funcs funcs' tr tr' func func',
    processDisassembly smallDisassembler startSort 0 countdownSection [countdown] = .ok funcs ∧
      processDisassembly smallDisassembler startSort 0 countdownSection [countdown, weakCountdown] =
        .ok funcs' ∧
      finalize smallTarget funcs = .ok tr ∧ finalize smallTarget funcs' = .ok tr' ∧
        Embeds id funcs funcs' ∧ tr.funcs[0]? = some func ∧ tr'.funcs[0]? = some func' ∧
          ¬SameTranslation id func func' := by
  refine ⟨_, _, _, _, _, _, rfl, rfl, rfl, rfl, ⟨Function.injective_id, ?_⟩, rfl, rfl, fun same => ?_⟩
  · rintro (_ | k) d found
    · exact found
    · cases found
  · have mfunc := same.2
    revert mfunc
    decide

theorem same_translation_weak : ∃ funcs funcs' tr tr',
    processDisassembly smallDisassembler startSort 0 countdownSection [countdown] = .ok funcs ∧
      processDisassembly smallDisassembler startSort 0 countdownSection [countdown, weakCountdown] =
        .ok funcs' ∧
      finalize smallTarget funcs = .ok tr ∧ finalize smallTarget funcs' = .ok tr' ∧
      (∃ σ, Embeds σ funcs funcs') ∧ ∀ σ, Embeds σ funcs funcs' →
        ∀ (k : Nat) (d : DecodedFunction) (func func' : TranslatedFunction), funcs[k]? = some d →
          tr.funcs[k]? = some func → tr'.funcs[σ k]? = some func' →
            (SameTranslation σ func func' ↔ OwnersKept σ smallTarget funcs funcs' d ∧
              (created smallTarget funcs' (σ k) d).length = (created smallTarget funcs k d).length) := by
  obtain ⟨funcs, run⟩ : ∃ funcs, processDisassembly smallDisassembler startSort 0 countdownSection
      [countdown] = .ok funcs := ⟨_, rfl⟩
  obtain ⟨tr, done⟩ : ∃ tr, finalize smallTarget funcs = .ok tr := by
    cases run
    exact ⟨_, rfl⟩
  obtain ⟨funcs', run'⟩ : ∃ funcs', processDisassembly smallDisassembler startSort 0 countdownSection
      [countdown, weakCountdown] = .ok funcs' := ⟨_, rfl⟩
  obtain ⟨tr', done'⟩ : ∃ tr', finalize smallTarget funcs' = .ok tr' := by
    cases run'
    exact ⟨_, rfl⟩
  have added : [countdown, weakCountdown].Perm (weakCountdown :: [countdown]) := .swap _ _ _
  exact ⟨funcs, funcs', tr, tr', run, run', done, done', same_translation_iff added run run' done done'⟩

end Bleach.Mctomir
