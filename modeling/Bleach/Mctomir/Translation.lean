import Bleach.Mctomir.Linking

/-! What `finalize` makes of the decoded functions, function by function. -/
namespace Bleach.Mctomir
variable (mia : MCInstrAnalysis)

/-- The targets `link_machine_basic_blocks` looks up for a function: those of its branches. -/
def linkTargets (insts : List TranslatedInst) : List Address :=
  (insts.filter fun t => mia.isBranch t.inst).filterMap (branchTarget mia)

/-- The functions before `k` branch to the address. -/
def targetedBefore (funcs : List DecodedFunction) (k : FuncId) (a : Address) : Bool :=
  (funcs.take k).any fun d => a ∈ linkTargets mia d.insts

/-- The addresses function `k` gets a block of its own for: its unresolved branch
targets no earlier function branches to. -/
def created (funcs : List DecodedFunction) (k : FuncId) (d : DecodedFunction) : List Address :=
  EntryList.fresh (fun a => (owner mia funcs a).isSome || targetedBefore mia funcs k a)
    (linkTargets mia d.insts)

def nextRef (f : FuncId) (n i : Nat) : Option BlockRef := if i + 1 < n then some ⟨f, i + 1⟩ else none

/-- The result of `finalize` for function `k`. -/
structure Finalized (funcs : List DecodedFunction) (k : FuncId) (d : DecodedFunction)
    (func : TranslatedFunction) : Prop where
  decoded : func.toDecodedFunction = d
  identified : ∃ blocks, identifyBlocks mia d.insts = .ok blocks ∧ func.blocks = placedBlocks k blocks
  split : Split (leaders mia d.insts) d.insts func.blocks
  placed : Placed k 0 func.blocks
  built : ∀ i block, func.blocks[i]? = some block → ∃ built,
    translateInsts mia (blockMap mia funcs) ⟨k, i⟩ block.instrs emptyBlock = .ok built ∧
      func.mfunc[i]? = some (withEdges
        (fallthroughEdge mia (nextRef k func.blocks.length i) block built.successors) built)
  length : func.mfunc.length = func.blocks.length + (created mia funcs k d).length
  appended : ∀ i, func.blocks.length ≤ i → i < func.mfunc.length → func.mfunc[i]? = some emptyBlock

variable {mia}

theorem nextRef_eq_some {f : FuncId} {n i : Nat} {r : BlockRef} :
    nextRef f n i = some r ↔ i + 1 < n ∧ r = ⟨f, i + 1⟩ := by
  unfold nextRef
  split
  · next inside => simp [inside, eq_comm]
  · next outside => simp [outside]

/-- Branches end their blocks, so the targets looked up are those of all branches. -/
theorem Split.targets {insts : List TranslatedInst} {blocks : List TranslatedBlock}
    (split : Split (leaders mia insts) insts blocks) :
    blocks.filterMap (blockTarget mia) = linkTargets mia insts := by
  have each : ∀ block ∈ blocks, (block.instrs.filter fun t => mia.isBranch t.inst).filterMap
      (branchTarget mia) = (blockTarget mia block).toList := by
    intro block member
    obtain ⟨before, last, shape⟩ := List.eq_nil_or_concat block.instrs |>.resolve_left
      (split.nonempty member)
    rw [List.concat_eq_append] at shape
    have straight : before.filter (fun t => mia.isBranch t.inst) = [] := by
      rw [List.filter_eq_nil_iff]
      intro t inside branch
      obtain ⟨pre, post, rfl⟩ := List.append_of_mem inside
      have nothing := @Split.ends _ _ _ split _ member pre (post ++ [last]) t (by simp [shape]) (.inl branch)
      simp at nothing
    rw [shape, List.filter_append, straight, List.nil_append, blockTarget, shape]
    by_cases branch : mia.isBranch last.inst = true
    · cases found : branchTarget mia last <;> simp [branch, found]
    · simp [branch]
  rw [linkTargets, ← split.instrs, List.filter_flatMap, List.filterMap_flatMap]
  clear split
  induction blocks with
  | nil => rfl
  | cons block blocks ih =>
    have here := each block List.mem_cons_self
    rw [List.flatMap_cons, here, ← ih fun b member => each b (List.mem_cons_of_mem _ member)]
    cases found : blockTarget mia block <;> simp [found]

theorem mem_linkTargets {insts : List TranslatedInst} {a : Address} :
    a ∈ linkTargets mia insts ↔
      ∃ t ∈ insts, mia.isBranch t.inst = true ∧ branchTarget mia t = some a := by
  simp only [linkTargets, List.mem_filterMap, List.mem_filter]
  constructor
  · rintro ⟨t, ⟨inside, branch⟩, found⟩
    exact ⟨t, inside, branch, found⟩
  · rintro ⟨t, inside, branch, found⟩
    exact ⟨t, ⟨inside, branch⟩, found⟩

theorem mem_created {funcs : List DecodedFunction} {k : FuncId} {d : DecodedFunction} {a : Address} :
    a ∈ created mia funcs k d ↔
      a ∈ linkTargets mia d.insts ∧ owner mia funcs a = none ∧ targetedBefore mia funcs k a = false := by
  rw [created, EntryList.mem_fresh, Bool.or_eq_false_iff, Option.isSome_eq_false_iff,
    Option.isNone_iff_eq_none]

theorem withFallthrough_get {f : FuncId} {base j : Nat} {blocks : List TranslatedBlock}
    {made : List BuiltBlock} {block : TranslatedBlock} {built : BuiltBlock}
    (at_block : blocks[j]? = some block) (at_built : made[j]? = some built) :
    (withFallthrough mia f base blocks made)[j]? = some (withEdges (fallthroughEdge mia
      (if j + 1 < blocks.length then some ⟨f, base + j + 1⟩ else none) block built.successors) built) := by
  induction blocks generalizing base j made with
  | nil => simp at at_block
  | cons first rest ih =>
    cases made with
    | nil => simp at at_built
    | cons m made =>
      cases j with
      | zero =>
        cases at_block
        cases at_built
        cases rest <;> simp [withFallthrough]
      | succ j =>
        have shift : base + 1 + j + 1 = base + (j + 1) + 1 := by omega
        rw [withFallthrough, List.getElem?_cons_succ, ih at_block at_built, shift]
        simp only [List.length_cons, Nat.add_lt_add_iff_right]

theorem withFallthrough_length {f : FuncId} {base : Nat} {blocks : List TranslatedBlock}
    {made : List BuiltBlock} (length : made.length = blocks.length) :
    (withFallthrough mia f base blocks made).length = blocks.length := by
  induction blocks generalizing base made with
  | nil => rfl
  | cons first rest ih =>
    obtain ⟨m, made, rfl⟩ := List.exists_cons_of_length_eq_add_one length
    simp [withFallthrough, ih (Nat.succ.inj length)]

/-- What `translate_instructions` leaves of function `f`. -/
structure Filled (mia : MCInstrAnalysis) (map : AddressMap) (f : FuncId) (d : DecodedFunction)
    (func : TranslatedFunction) : Prop where
  decoded : func.toDecodedFunction = d
  identified : ∃ blocks, identifyBlocks mia d.insts = .ok blocks ∧ func.blocks = placedBlocks f blocks
  split : Split (leaders mia d.insts) d.insts func.blocks
  placed : Placed f 0 func.blocks
  length : func.mfunc.length = func.blocks.length
  built : ∀ (i : Nat) (block : TranslatedBlock), func.blocks[i]? = some block → ∃ built,
    translateInsts mia map ⟨f, i⟩ block.instrs emptyBlock = .ok built ∧ func.mfunc[i]? = some built

theorem Identified.placed {d : DecodedFunction} {func : TranslatedFunction} {f : FuncId}
    (identified : Identified mia d func) :
    (Mctomir.placed f func).toDecodedFunction = d ∧
      Split (leaders mia d.insts) d.insts (Mctomir.placed f func).blocks ∧
      Placed f 0 (Mctomir.placed f func).blocks := by
  refine ⟨identified.decoded, ⟨?_, ?_⟩, ?_⟩
  · rw [← identified.split.instrs]
    simp only [Mctomir.placed, placedBlocks, List.mapIdx_eq_zipIdx_map, List.flatMap_map]
    rw [← List.flatMap_map (f := Prod.fst) (g := TranslatedBlock.instrs), List.zipIdx_map_fst]
  · intro block member
    obtain ⟨i, bound, rfl⟩ := List.mem_mapIdx.mp member
    exact (identified.split.headed _ (List.getElem_mem bound)).congr rfl rfl
  · intro i block found
    rw [Mctomir.placed, placedBlocks, List.getElem?_mapIdx] at found
    obtain ⟨block', here, rfl⟩ := Option.map_eq_some_iff.mp found
    rw [Nat.zero_add]

theorem Identified.filled {d : DecodedFunction} {func : TranslatedFunction} {f : FuncId}
    {map : AddressMap} {mfunc : List BuiltBlock} (identified : Identified mia d func)
    (run : translateBlocks mia map (Mctomir.placed f func).blocks (Mctomir.placed f func).mfunc =
      .ok mfunc) :
    Filled mia map f d { Mctomir.placed f func with mfunc := mfunc } := by
  obtain ⟨decoded, split, placed⟩ := identified.placed (f := f)
  have start : (Mctomir.placed f func).mfunc =
      [] ++ List.replicate (Mctomir.placed f func).blocks.length emptyBlock := by
    simp [Mctomir.placed, placedBlocks]
  rw [start] at run
  obtain ⟨made, rfl, length, built⟩ := @translateBlocks_ok _ _ _ _ [] _ placed run
  refine ⟨decoded, ⟨_, identified.identified, rfl⟩, split, placed, length, ?_⟩
  simpa using built

/-- Earlier functions only take targets away from a function. -/
theorem known_succ (map : AddressMap) (f : FuncId) (base : Nat) (d : DecodedFunction)
    (ds : List DecodedFunction) (k : Nat) (a : Address) :
    (((createdEntries f base (unresolved map (linkTargets mia d.insts)) ++ map).lookup a).isSome ||
        targetedBefore mia ds k a) =
      ((map.lookup a).isSome || targetedBefore mia (d :: ds) (k + 1) a) := by
  rw [lookup_createdEntries, targetedBefore, targetedBefore, List.take_succ_cons, List.any_cons,
    unresolved]
  simp only [EntryList.mem_fresh]
  cases (map.lookup a).isSome <;> simp

theorem linkMachineBasicBlocks_get {ds : List DecodedFunction} {funcs : List TranslatedFunction}
    {f : FuncId} {built map : AddressMap}
    (filled : ∀ (k : Nat) (d : DecodedFunction), ds[k]? = some d →
      ∃ func, funcs[k]? = some func ∧ Filled mia built (f + k) d func)
    {k : Nat} {d : DecodedFunction} {func : TranslatedFunction} (at_d : ds[k]? = some d)
    (at_func : funcs[k]? = some func) :
    (linkMachineBasicBlocks mia funcs f map).1[k]? = some { func with
      mfunc := withFallthrough mia (f + k) 0 func.blocks func.mfunc ++ List.replicate
        (EntryList.fresh (fun a => (map.lookup a).isSome || targetedBefore mia ds k a)
          (linkTargets mia d.insts)).length emptyBlock } := by
  induction ds generalizing funcs f map k with
  | nil => simp at at_d
  | cons first ds ih =>
    obtain ⟨func', at_zero, here⟩ := filled 0 first rfl
    obtain ⟨rest, rfl⟩ : ∃ rest, funcs = func' :: rest := by
      cases funcs with
      | nil => simp at at_zero
      | cons g rest =>
        cases at_zero
        exact ⟨rest, rfl⟩
    rw [Nat.add_zero] at here
    have linked := @linkBlocks_eq mia map f func'.blocks [] func'.mfunc [] here.placed here.length
    simp only [List.nil_append, List.append_nil, here.split.targets, List.length_nil] at linked
    rw [linkMachineBasicBlocks, linked]
    cases k with
    | zero =>
      cases at_d
      cases at_func
      simp [targetedBefore, unresolved]
    | succ k =>
      have shift : ∀ j, f + 1 + j = f + (j + 1) := Nat.succ_add_eq_add_succ f
      have later := @ih rest (f + 1)
        (createdEntries f func'.mfunc.length (unresolved map (linkTargets mia first.insts)) ++ map)
        (fun j d found => by rw [shift]; exact filled (j + 1) d found) k at_d at_func
      simp only [known_succ, shift] at later
      simpa using later

theorem linkMachineBasicBlocks_length (funcs : List TranslatedFunction) (f : FuncId) (map : AddressMap) :
    (linkMachineBasicBlocks mia funcs f map).1.length = funcs.length := by
  induction funcs generalizing f map with
  | nil => rfl
  | cons func funcs ih => simp [linkMachineBasicBlocks, ih]

/-- `finalize` keeps the functions and their order. -/
theorem finalize_ok {funcs : List DecodedFunction} {tr : Translation} (done : finalize mia funcs = .ok tr) :
    tr.funcs.length = funcs.length ∧ ∀ (k : Nat) (d : DecodedFunction), funcs[k]? = some d →
      ∃ func, tr.funcs[k]? = some func ∧ Finalized mia funcs k d func := by
  obtain ⟨identified, run, each⟩ := identifyBasicBlocks_ok mia funcs
  rw [finalize, run] at done
  obtain ⟨_, same, done⟩ := bind_ok.mp done
  cases same
  simp only [createMachineBasicBlocks_eq each, Nat.zero_add, List.append_nil] at done
  obtain ⟨filled, translated, done⟩ := bind_ok.mp done
  obtain rfl : _ = tr := Except.ok.inj done
  have all := mapM_ok.mp translated
  have built : ∀ (k : Nat) (d : DecodedFunction), funcs[k]? = some d →
      ∃ func, filled[k]? = some func ∧ Filled mia (blockMap mia funcs) (0 + k) d func := by
    intro k d found
    obtain ⟨func, at_k, here⟩ := forall₂_get each found
    have at_placed : (identified.mapIdx fun k func => placed k func)[k]? = some (placed k func) := by
      rw [List.getElem?_mapIdx, at_k]
      rfl
    obtain ⟨func', at_filled, made⟩ := forall₂_get all at_placed
    obtain ⟨mfunc, run, made⟩ := bind_ok.mp made
    cases made
    rw [Nat.zero_add]
    exact ⟨_, at_filled, here.filled run⟩
  have lengths : filled.length = funcs.length := by
    rw [← all.length_eq, List.length_mapIdx, each.length_eq]
  refine ⟨by simp only [linkMachineBasicBlocks_length, lengths], fun k d found => ?_⟩
  obtain ⟨func, at_k, here⟩ := built k d found
  rw [Nat.zero_add] at here
  have linked :=
    @linkMachineBasicBlocks_get mia funcs filled 0 _ (blockMap mia funcs) built k d func found at_k
  rw [Nat.zero_add] at linked
  refine ⟨_, linked, here.decoded, here.identified, here.split, here.placed, ?_, ?_, ?_⟩
  · intro i block at_i
    obtain ⟨made, run, at_made⟩ := here.built i block at_i
    refine ⟨made, run, ?_⟩
    have bound : i < (withFallthrough mia k 0 func.blocks func.mfunc).length := by
      rw [withFallthrough_length here.length]
      exact (List.getElem?_eq_some_iff.mp at_i).1
    rw [List.getElem?_append_left bound, withFallthrough_get at_i at_made, nextRef, Nat.zero_add]
  · rw [List.length_append, withFallthrough_length here.length, List.length_replicate]
    rfl
  · intro i behind inside
    change func.blocks.length ≤ i at behind
    rw [List.length_append, withFallthrough_length here.length, List.length_replicate] at inside
    rw [List.getElem?_append_right (by rwa [withFallthrough_length here.length]),
      withFallthrough_length here.length]
    exact List.getElem?_replicate_of_lt (by omega)

/-- Every function of the result is that of a decoded one. -/
theorem finalize_source {funcs : List DecodedFunction} {tr : Translation} (done : finalize mia funcs = .ok tr)
    {k : Nat} {func : TranslatedFunction} (at_k : tr.funcs[k]? = some func) :
    ∃ d, funcs[k]? = some d ∧ Finalized mia funcs k d func := by
  obtain ⟨length, all⟩ := finalize_ok done
  have bound := (List.getElem?_eq_some_iff.mp at_k).1
  have found := List.getElem?_eq_getElem (length ▸ bound)
  obtain ⟨func', at_k', result⟩ := all k _ found
  obtain rfl := Option.some.inj (at_k'.symm.trans at_k)
  exact ⟨_, found, result⟩

end Bleach.Mctomir
