import Bleach.Mctomir.Blocks
import Bleach.Base.EntryList

/-! `address_to_mbb` behind `create_machine_basic_blocks`: an entry for each block of
each function, and the last function with a block at an address owns it. -/
namespace Bleach.Mctomir
variable (mia : MCInstrAnalysis) {funcs : List DecodedFunction} {a : Address} {r : BlockRef}

/-- The start addresses of the blocks of a function, in order. -/
def blockStarts (d : DecodedFunction) : List Address :=
  (d.insts.filter fun t => t.address ∈ leaders mia d.insts).map TranslatedInst.address

def functionEntries (f : FuncId) (starts : List Address) : AddressMap :=
  starts.mapIdx fun i start => (start, ⟨f, i⟩)

def blockEntries : List DecodedFunction → FuncId → AddressMap
  | [], _ => []
  | d :: rest, f => functionEntries f (blockStarts mia d) ++ blockEntries rest (f + 1)

/-- `address_to_mbb` when the instructions are translated. -/
def blockMap (funcs : List DecodedFunction) : AddressMap := (blockEntries mia funcs 0).reverse

/-- The block a direct transfer to the address is resolved to. -/
def owner (funcs : List DecodedFunction) (a : Address) : Option BlockRef :=
  (blockMap mia funcs).lookup a

theorem mem_functionEntries {f : FuncId} {starts : List Address} :
    (a, r) ∈ functionEntries f starts ↔ r.func = f ∧ starts[r.idx]? = some a := by
  unfold functionEntries
  rw [List.mem_mapIdx]
  constructor
  · rintro ⟨i, bound, same⟩
    obtain ⟨rfl, rfl⟩ := Prod.mk.inj same
    exact ⟨rfl, List.getElem?_eq_getElem bound⟩
  · rintro ⟨rfl, found⟩
    obtain ⟨bound, here⟩ := List.getElem?_eq_some_iff.mp found
    exact ⟨r.idx, bound, by rw [here]⟩

theorem mem_blockEntries {f : FuncId} :
    (a, r) ∈ blockEntries mia funcs f ↔
      ∃ k d, r.func = f + k ∧ funcs[k]? = some d ∧ (blockStarts mia d)[r.idx]? = some a := by
  induction funcs generalizing f with
  | nil => simp [blockEntries]
  | cons d rest ih =>
    rw [blockEntries, List.mem_append, mem_functionEntries, ih]
    constructor
    · rintro (⟨rfl, here⟩ | ⟨k, d', at_k, found, here⟩)
      · exact ⟨0, d, rfl, rfl, here⟩
      · exact ⟨k + 1, d', at_k.trans (Nat.succ_add_eq_add_succ f k), found, here⟩
    · rintro ⟨k, d', at_k, found, here⟩
      cases k with
      | zero =>
        cases found
        exact .inl ⟨at_k, here⟩
      | succ k => exact .inr ⟨k, d', at_k.trans (Nat.succ_add_eq_add_succ f k).symm, found, here⟩

theorem mem_blockMap : (a, r) ∈ blockMap mia funcs ↔
    ∃ d, funcs[r.func]? = some d ∧ (blockStarts mia d)[r.idx]? = some a := by
  rw [blockMap, List.mem_reverse, mem_blockEntries]
  constructor
  · rintro ⟨k, d, at_k, found, here⟩
    rw [Nat.zero_add] at at_k
    exact ⟨d, by rwa [at_k], here⟩
  · rintro ⟨d, found, here⟩
    exact ⟨r.func, d, (Nat.zero_add _).symm, found, here⟩

variable {mia}

/-- An owner is a block that starts at the address. -/
theorem owner_some (found : owner mia funcs a = some r) :
    ∃ d, funcs[r.func]? = some d ∧ (blockStarts mia d)[r.idx]? = some a :=
  (mem_blockMap mia).mp (EntryList.mem_of_lookup found)

theorem owner_none : owner mia funcs a = none ↔ ∀ d ∈ funcs, a ∉ blockStarts mia d := by
  rw [owner, EntryList.lookup_none_iff]
  simp only [mem_blockMap]
  constructor
  · intro absent d member start
    obtain ⟨k, found⟩ := List.mem_iff_getElem?.mp member
    obtain ⟨i, here⟩ := List.mem_iff_getElem?.mp start
    exact absent ⟨k, i⟩ ⟨d, found, here⟩
  · rintro absent v ⟨d, found, here⟩
    exact absent d (List.mem_of_getElem? found) (List.mem_of_getElem? here)

/-- Where only one block starts at the address, that block is the owner. -/
theorem owner_of_unique {d : DecodedFunction} (found : funcs[r.func]? = some d)
    (start : (blockStarts mia d)[r.idx]? = some a)
    (unique : ∀ r' d', funcs[r'.func]? = some d' → (blockStarts mia d')[r'.idx]? = some a → r' = r) :
    owner mia funcs a = some r := by
  refine EntryList.lookup_of_mem ((mem_blockMap mia).mpr ⟨d, found, start⟩) fun r' member => ?_
  obtain ⟨d', found', start'⟩ := (mem_blockMap mia).mp member
  exact unique r' d' found' start'

theorem blockStarts_nodup {d : DecodedFunction}
    (sorted : d.insts.Pairwise fun t u => t.address < u.address) : (blockStarts mia d).Nodup := by
  have ordered : (blockStarts mia d).Pairwise (· < ·) := by
    rw [blockStarts, List.pairwise_map]
    exact sorted.filter _
  exact ordered.imp fun before same => absurd before (by rw [same]; exact BitVec.lt_irrefl _)

def placedBlocks (f : FuncId) (blocks : List TranslatedBlock) : List TranslatedBlock :=
  blocks.mapIdx fun i block => { block with mbb := some ⟨f, i⟩ }

def placed (f : FuncId) (func : TranslatedFunction) : TranslatedFunction :=
  { func with
      blocks := placedBlocks f func.blocks
      mfunc := List.replicate func.blocks.length emptyBlock }

theorem placeBlocks_eq (f : FuncId) (blocks : List TranslatedBlock) (i : Nat) (map : AddressMap) :
    placeBlocks f blocks i map =
      (blocks.mapIdx fun j block => { block with mbb := some ⟨f, i + j⟩ },
        (blocks.mapIdx fun j block => (block.startAddress, ⟨f, i + j⟩)).reverse ++ map) := by
  induction blocks generalizing i map with
  | nil => rfl
  | cons block blocks ih =>
    have shift : ∀ j, i + 1 + j = i + (j + 1) := by omega
    simp only [placeBlocks, ih, List.mapIdx_cons, Nat.add_zero, shift, List.reverse_cons,
      List.append_assoc, List.singleton_append]

theorem placeBlocks_fresh (f : FuncId) (blocks : List TranslatedBlock) (map : AddressMap) :
    placeBlocks f blocks 0 map = (placedBlocks f blocks,
      (functionEntries f (blocks.map TranslatedBlock.startAddress)).reverse ++ map) := by
  rw [placeBlocks_eq, functionEntries, placedBlocks]
  simp only [Nat.zero_add, List.mapIdx_eq_zipIdx_map, List.zipIdx_map, List.map_map]
  rfl

/-- What `identify_basic_blocks` leaves of a function. -/
structure Identified (mia : MCInstrAnalysis) (d : DecodedFunction) (func : TranslatedFunction) : Prop where
  decoded : func.toDecodedFunction = d
  identified : identifyBlocks mia d.insts = .ok func.blocks
  split : Split (leaders mia d.insts) d.insts func.blocks
  unplaced : func.mfunc = []

theorem identifyBasicBlocks_ok (mia : MCInstrAnalysis) (funcs : List DecodedFunction) :
    ∃ identified, identifyBasicBlocks mia funcs = .ok identified ∧
      List.Forall₂ (Identified mia) funcs identified := by
  induction funcs with
  | nil => exact ⟨[], rfl, .nil⟩
  | cons d funcs ih =>
    obtain ⟨blocks, found, split⟩ := identifyBlocks_split mia d.insts
    obtain ⟨rest, run, all⟩ := ih
    refine ⟨{ d with blocks := blocks } :: rest, ?_, .cons ⟨rfl, found, split, rfl⟩ all⟩
    rw [identifyBasicBlocks, List.mapM_cons]
    exact bind_ok.mpr ⟨_, bind_ok.mpr ⟨blocks, found, rfl⟩, bind_ok.mpr ⟨rest, run, rfl⟩⟩

theorem createMachineBasicBlocks_eq {identified : List TranslatedFunction} {f : FuncId}
    {map : AddressMap} (all : List.Forall₂ (Identified mia) funcs identified) :
    createMachineBasicBlocks identified f map =
      (identified.mapIdx fun k func => placed (f + k) func,
        (blockEntries mia funcs f).reverse ++ map) := by
  induction all generalizing f map with
  | nil => rfl
  | @cons d func rest identified here _ ih =>
    have starts : func.blocks.map TranslatedBlock.startAddress = blockStarts mia d := here.split.starts
    have shift : ∀ k, f + 1 + k = f + (k + 1) := Nat.succ_add_eq_add_succ f
    simp only [createMachineBasicBlocks, here.unplaced, List.length_nil, placeBlocks_fresh, starts,
      ih, List.mapIdx_cons, Nat.add_zero, shift, blockEntries, List.reverse_append,
      List.append_assoc, placedBlocks, List.length_mapIdx, List.nil_append, placed]

end Bleach.Mctomir
