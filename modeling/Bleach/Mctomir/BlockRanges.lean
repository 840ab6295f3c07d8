import Bleach.Mctomir.Disassembly
import Bleach.Mctomir.Partition
import Mathlib.Data.List.Chain

/-! The address ranges of blocks. All but the last end in front of the next block; the
last ends behind as many bytes as its last instruction has operands. -/
namespace Bleach.Mctomir

/-- The instructions are `size` bytes long, do not overlap and end in the address space. -/
structure Laid (size : TranslatedInst → Nat) (insts : List TranslatedInst) : Prop where
  positive : ∀ t ∈ insts, 0 < size t
  apart : insts.Pairwise fun t u => t.address.toNat + size t ≤ u.address.toNat
  fits : ∀ t ∈ insts, t.address.toNat + size t ≤ 2 ^ 64

/-- The byte at `a` is one of the instruction. -/
def Occupies (size : TranslatedInst → Nat) (t : TranslatedInst) (a : Address) : Prop :=
  t.address.toNat ≤ a.toNat ∧ a.toNat < t.address.toNat + size t

/-- The range of a block contains the address; both ends belong to it. -/
def TranslatedBlock.Covers (block : TranslatedBlock) (a : Address) : Prop :=
  block.startAddress ≤ a ∧ a ≤ block.endAddress

structure ExactRanges (size : TranslatedInst → Nat) (insts : List TranslatedInst)
    (blocks : List TranslatedBlock) : Prop where
  increasing : blocks.Pairwise fun b c => b.endAddress < c.startAddress
  ordered : ∀ block ∈ blocks, block.startAddress ≤ block.endAddress
  /-- What a range has besides the bytes of its block belongs to no instruction. -/
  bytes : ∀ block ∈ blocks, ∀ t ∈ insts, ∀ a, Occupies size t a →
    (block.Covers a ↔ t ∈ block.instrs)
  last : ∀ block t, blocks.getLast? = some block → insts.getLast? = some t →
    block.endAddress.toNat + 1 = t.address.toNat + size t

variable {mia : MCInstrAnalysis} {size : TranslatedInst → Nat} {leaders : List Address}
  {insts : List TranslatedInst} {blocks : List TranslatedBlock}

theorem Laid.sorted (laid : Laid size insts) :
    insts.Pairwise fun t u => t.address < u.address := by
  apply laid.apart.imp_of_mem
  intro t u inside _ apart
  have positive := laid.positive t inside
  rw [BitVec.lt_def]
  omega

/-- The bytes the disassembler took for an instruction of the section. -/
def decodedSize (dis : MCDisassembler) (sec : Section) (t : TranslatedInst) : Nat :=
  ((dis.getInstruction (sec.contents.drop (t.address - sec.address).toNat) t.address).map Prod.snd).getD 0

variable {dis : MCDisassembler} {sec : Section} {n : Nat}

/-- An instruction ends where the loop goes on. -/
theorem Steps.decodedSize {addr next : Address} {inst : MCInst}
    (step : Steps dis sec addr (some inst) next)
    (inside : (addr - sec.address).toNat ≤ sec.contents.length) :
    0 < decodedSize dis sec ⟨addr, inst⟩ ∧
      next.toNat = addr.toNat + Mctomir.decodedSize dis sec ⟨addr, inst⟩ := by
  have fits := sec.fits
  obtain ⟨above, offset⟩ := sec.address_le inside
  rw [BitVec.le_def] at above
  unfold Steps at step
  split at step
  · next inst' size found =>
    obtain ⟨-, rfl⟩ := step
    obtain ⟨positive, limit⟩ := dis.takes found
    rw [List.length_drop, offset] at limit
    have length : Mctomir.decodedSize dis sec ⟨addr, inst⟩ = size := by
      rw [Mctomir.decodedSize, found]
      rfl
    rw [length, BitVec.toNat_add, BitVec.toNat_ofNat]
    have small : size % 2 ^ 64 = size := Nat.mod_eq_of_lt (by omega)
    rw [small, Nat.mod_eq_of_lt (by omega)]
    exact ⟨positive, rfl⟩
  · cases step.1

theorem decodeLoop_laid {last addr : Address} {fuel : Nat} {visits : List Visit}
    (run : decodeLoop dis n sec last fuel addr = .ok visits) :
    Laid (decodedSize dis sec) (visits.filterMap Visit.translated) := by
  induction fuel generalizing addr visits with
  | zero =>
    rw [decodeLoop] at run
    split at run
    · cases run
    · cases run
      exact ⟨by simp, .nil, by simp⟩
  | succ fuel ih =>
    rcases decodeLoop_succ.mp run with ⟨-, rfl⟩ | ⟨before, inside, inst, next, rest, step, onward, rfl⟩
    · exact ⟨by simp, .nil, by simp⟩
    · have laid := ih onward
      cases inst with
      | none => exact laid
      | some inst =>
        obtain ⟨positive, ends⟩ := step.decodedSize inside
        have behind : ∀ u ∈ rest.filterMap Visit.translated, next.toNat ≤ u.address.toNat := by
          intro u member
          obtain ⟨v, here, translated⟩ := List.mem_filterMap.mp member
          obtain ⟨found, -, rfl⟩ := Option.map_eq_some_iff.mp translated
          exact (decodeLoop_ordered onward).1 v here |>.1
        constructor
        · exact List.forall_mem_cons.mpr ⟨positive, laid.positive⟩
        · exact List.pairwise_cons.mpr ⟨fun u member => ends ▸ behind u member, laid.apart⟩
        · exact List.forall_mem_cons.mpr ⟨ends ▸ Nat.le_of_lt next.isLt, laid.fits⟩

/-- Every function read from a section is laid out as the disassembler says. -/
theorem processDisassembly_laid {order : StartSort} {symbols : List Symbol}
    {funcs : List DecodedFunction} (done : processDisassembly dis order n sec symbols = .ok funcs)
    {func : DecodedFunction} (member : func ∈ funcs) : Laid (decodedSize dis sec) func.insts := by
  obtain ⟨d, -, made⟩ := forall₂_mem (mapM_ok.mp done).flip member
  obtain ⟨visits, run, same⟩ := bind_ok.mp made
  cases same
  exact decodeLoop_laid run

/-- Every block but the last ends in front of the next one. -/
def Abutting (blocks : List TranslatedBlock) : Prop :=
  blocks.IsChain fun b c => b.endAddress = c.startAddress - 1

/-- Whether blocks abut does not depend on the end of the last one. -/
theorem Abutting.replace_last (abutting : Abutting blocks) {current current' : TranslatedBlock}
    (last : blocks.getLast? = some current) (starts : current'.startAddress = current.startAddress) :
    Abutting (blocks.dropLast ++ [current']) := by
  unfold Abutting at abutting ⊢
  rw [dropLast_append last, List.isChain_append] at abutting
  rw [List.isChain_append]
  refine ⟨abutting.1, List.isChain_singleton _, ?_⟩
  intro b before c here
  cases here
  rw [starts]
  exact abutting.2.2 b before current rfl

theorem Abutting.open (abutting : Abutting blocks) {current : TranslatedBlock}
    (last : blocks.getLast? = some current) (t : TranslatedInst) :
    Abutting ((blocks.dropLast ++ [{ current with endAddress := t.address - 1 }]) ++
      [{ startAddress := t.address, instrs := [t] }]) := by
  unfold Abutting
  rw [List.isChain_append]
  refine ⟨abutting.replace_last last rfl, List.isChain_singleton _, ?_⟩
  intro b before c here
  cases here
  rw [List.getLast?_concat] at before
  cases before
  rfl

theorem Abutting.addInst (abutting : Abutting blocks) {t : TranslatedInst}
    {blocks' : List TranslatedBlock} (added : addInst leaders blocks t = .ok blocks') :
    Abutting blocks' := by
  unfold Mctomir.addInst at added
  split at added
  · cases last : blocks.getLast? with
    | none =>
      rw [last] at added
      cases added
      exact List.isChain_singleton _
    | some current =>
      rw [last] at added
      cases added
      exact abutting.open last t
  · cases last : blocks.getLast? with
    | none => simp [last] at added
    | some current =>
      rw [last] at added
      cases added
      exact abutting.replace_last last rfl

theorem Abutting.foldlM (abutting : Abutting blocks) {rest : List TranslatedInst}
    {blocks' : List TranslatedBlock} (run : rest.foldlM (Mctomir.addInst leaders) blocks = .ok blocks') :
    Abutting blocks' := by
  induction rest generalizing blocks with
  | nil =>
    cases run
    exact abutting
  | cons t rest ih =>
    rw [List.foldlM_cons] at run
    obtain ⟨middle, added, run⟩ := bind_ok.mp run
    exact ih (abutting.addInst added) run

/-- The end of the last block. -/
def LastEnd (insts : List TranslatedInst) (blocks : List TranslatedBlock) : Prop :=
  ∀ block t, blocks.getLast? = some block → insts.getLast? = some t →
    block.endAddress = t.address + BitVec.ofNat 64 t.inst.size

theorem Abutting.closeLast (abutting : Abutting blocks) :
    Abutting (closeLast insts blocks) ∧ LastEnd insts (closeLast insts blocks) := by
  unfold Mctomir.closeLast
  split
  · next current last here there =>
    refine ⟨abutting.replace_last here rfl, ?_⟩
    intro block t last' there'
    rw [List.getLast?_concat] at last'
    rw [there] at there'
    cases last'
    cases there'
    rfl
  · next missing =>
    refine ⟨abutting, ?_⟩
    intro block t here there
    exact (missing block t here there).elim

theorem identifyBlocks_ends (cut : identifyBlocks mia insts = .ok blocks) :
    Abutting blocks ∧ LastEnd insts blocks := by
  obtain ⟨blocks', run, closed⟩ := bind_ok.mp cut
  cases closed
  have start : Abutting [] := List.isChain_nil
  exact (start.foldlM run).closeLast

theorem Abutting.increasing (abutting : Abutting blocks)
    (sorted : blocks.Pairwise fun b c => b.startAddress < c.startAddress) :
    blocks.Pairwise fun b c => b.endAddress < c.startAddress := by
  induction blocks with
  | nil => exact List.Pairwise.nil
  | cons b rest ih =>
    obtain ⟨before, sorted⟩ := List.pairwise_cons.mp sorted
    refine List.pairwise_cons.mpr ⟨?_, ih abutting.tail sorted⟩
    intro c member
    cases rest with
    | nil => simp at member
    | cons next rest =>
      have closed : b.endAddress = next.startAddress - 1 := (List.isChain_cons_cons.mp abutting).1
      have below : b.endAddress < next.startAddress := by
        have above := before next List.mem_cons_self
        rw [closed]
        bv_omega
      rcases List.mem_cons.mp member with rfl | behind
      · exact below
      · exact BitVec.lt_trans below ((List.pairwise_cons.mp sorted).1 c behind)

theorem Split.sorted_blocks (split : Split leaders insts blocks) (laid : Laid size insts) :
    blocks.Pairwise fun b c => b.startAddress < c.startAddress :=
  List.pairwise_map.mp (split.starts_sorted laid.sorted)

/-- The last instruction is the one that ends last. -/
theorem Laid.last (laid : Laid size insts) {t last : TranslatedInst} (inside : t ∈ insts)
    (here : insts.getLast? = some last) :
    t.address.toNat + size t ≤ last.address.toNat + size last := by
  have shape := (List.dropLast_append_getLast? last here).symm
  rw [shape] at inside
  rcases List.mem_append.mp inside with inside | inside
  · have apart := laid.apart
    rw [shape, List.pairwise_append] at apart
    have above := apart.2.2 t inside last (by simp)
    omega
  · rw [List.mem_singleton.mp inside]

/-- An instruction of a block is not in front of the start of the block. -/
theorem Split.start_le (split : Split leaders insts blocks) (laid : Laid size insts)
    {block : TranslatedBlock} (member : block ∈ blocks) {t : TranslatedInst}
    (here : t ∈ block.instrs) : block.startAddress.toNat ≤ t.address.toNat := by
  obtain ⟨first, rest, shape, start, _⟩ := split.headed block member
  obtain ⟨before, after, whole⟩ := split.inside member
  rw [← start]
  rw [shape] at here
  rcases List.mem_cons.mp here with rfl | behind
  · exact Nat.le_refl _
  · have apart := laid.apart
    rw [whole, shape] at apart
    have above := (List.pairwise_cons.mp (List.pairwise_append.mp
      (List.pairwise_append.mp apart).1).2.1).1 t behind
    omega

/-- An instruction of a block ends in front of the next block. -/
theorem Split.le_next (split : Split leaders insts blocks) (laid : Laid size insts)
    {pre post : List TranslatedBlock} {block next : TranslatedBlock}
    (here : blocks = pre ++ block :: next :: post) {t : TranslatedInst} (inside : t ∈ block.instrs) :
    t.address.toNat + size t ≤ next.startAddress.toNat := by
  obtain ⟨first, rest, shape, start, _⟩ := split.headed next (by simp [here])
  have apart := laid.apart
  rw [← split.instrs, here, List.flatMap_append, List.flatMap_cons, List.flatMap_cons, shape] at apart
  have above := (List.pairwise_append.mp (List.pairwise_append.mp apart).2.1).2.2 t inside first
    (by simp)
  rw [← start]
  exact above

theorem Split.covers (split : Split leaders insts blocks) (laid : Laid size insts)
    (abutting : Abutting blocks)
    (last : ∀ block t, blocks.getLast? = some block → insts.getLast? = some t →
      block.endAddress.toNat + 1 = t.address.toNat + size t)
    {block : TranslatedBlock} (member : block ∈ blocks) {t : TranslatedInst}
    (here : t ∈ block.instrs) {a : Address} (occupied : Occupies size t a) : block.Covers a := by
  have below := split.start_le laid member here
  have inside : t ∈ insts := split.mem_iff.mpr ⟨block, member, here⟩
  obtain ⟨from_t, before_end⟩ := occupied
  constructor
  · rw [BitVec.le_def]
    omega
  · rw [BitVec.le_def]
    obtain ⟨pre, post, shape⟩ := List.append_of_mem member
    cases post with
    | nil =>
      obtain ⟨final, ends⟩ : ∃ final, insts.getLast? = some final :=
        ⟨_, List.getLast?_eq_some_getLast (List.ne_nil_of_mem inside)⟩
      have bound := last block final (by simp [shape]) ends
      have above := laid.last inside ends
      omega
    | cons next post =>
      have above := split.le_next laid shape here
      have closed : block.endAddress = next.startAddress - 1 :=
        List.isChain_iff_forall_rel_of_append_cons_cons.mp abutting shape
      rw [closed]
      bv_omega

/-- Ranges are exact as soon as the last one ends where it should. -/
theorem Split.exactRanges (split : Split leaders insts blocks) (laid : Laid size insts)
    (abutting : Abutting blocks)
    (last : ∀ block t, blocks.getLast? = some block → insts.getLast? = some t →
      block.endAddress.toNat + 1 = t.address.toNat + size t) :
    ExactRanges size insts blocks := by
  have increasing := abutting.increasing (split.sorted_blocks laid)
  have apart : blocks.Pairwise fun b c => ¬∃ a, b.Covers a ∧ c.Covers a := by
    apply increasing.imp
    rintro b c before ⟨a, covers, covers'⟩
    exact absurd (BitVec.le_trans covers'.1 covers.2) (BitVec.not_le.mpr before)
  constructor
  · exact increasing
  · intro block member
    obtain ⟨first, rest, shape, start, _⟩ := split.headed block member
    have here : first ∈ block.instrs := by simp [shape]
    have positive := laid.positive first (split.mem_iff.mpr ⟨block, member, here⟩)
    have covers := split.covers laid abutting last member here (a := first.address)
      ⟨Nat.le_refl _, by omega⟩
    exact BitVec.le_trans covers.1 covers.2
  · intro block member t inside a occupied
    constructor
    · intro covers
      obtain ⟨own, member', here⟩ := split.mem_iff.mp inside
      have covers' := split.covers laid abutting last member' here occupied
      by_contra other
      have different : block ≠ own := by
        rintro rfl
        exact other here
      have symmetric : Std.Symm fun b c : TranslatedBlock => ¬∃ a, b.Covers a ∧ c.Covers a :=
        ⟨fun b c none ⟨a, first, second⟩ => none ⟨a, second, first⟩⟩
      exact apart.forall member member' different ⟨a, covers, covers'⟩
    · intro here
      exact split.covers laid abutting last member here occupied
  · exact last

/-- Ranges are exact when the last instruction has one operand fewer than bytes. -/
theorem ranges_exact_iff {funcs : List DecodedFunction} {results : List TranslatedFunction}
    (done : identifyBasicBlocks mia funcs = .ok results) {func : TranslatedFunction}
    (member : func ∈ results) (laid : Laid size func.insts) :
    ExactRanges size func.insts func.blocks ↔
      ∀ t, func.insts.getLast? = some t → t.inst.size % 2 ^ 64 + 1 = size t := by
  obtain ⟨d, decoded, made⟩ := forall₂_mem (mapM_ok.mp done).flip member
  obtain ⟨blocks, cut, rfl⟩ : ∃ blocks, identifyBlocks mia d.insts = .ok blocks ∧
      func = { d with blocks := blocks } := by
    obtain ⟨blocks, cut, same⟩ := bind_ok.mp made
    cases same
    exact ⟨blocks, cut, rfl⟩
  obtain ⟨blocks', cut', split⟩ := identifyBlocks_split mia d.insts
  obtain rfl := Except.ok.inj (cut.symm.trans cut')
  obtain ⟨abutting, ends⟩ := identifyBlocks_ends cut
  have bounds : ∀ t, d.insts.getLast? = some t → 0 < size t ∧ t.address.toNat + size t ≤ 2 ^ 64 := by
    intro t here
    exact ⟨laid.positive t (List.mem_of_getLast? here), laid.fits t (List.mem_of_getLast? here)⟩
  constructor
  · intro exact t here
    obtain ⟨block, final⟩ : ∃ block, blocks.getLast? = some block := by
      have nonempty : blocks ≠ [] := by
        rintro rfl
        have empty : d.insts = [] := split.instrs.symm
        simp [empty] at here
      exact ⟨_, List.getLast?_eq_some_getLast nonempty⟩
    have ended := exact.last block t final here
    obtain ⟨positive, fits⟩ := bounds t here
    rw [ends block t final here, BitVec.toNat_add, BitVec.toNat_ofNat] at ended
    omega
  · intro counted
    apply split.exactRanges laid abutting
    intro block t final here
    have bytes := counted t here
    obtain ⟨positive, fits⟩ := bounds t here
    rw [ends block t final here, BitVec.toNat_add, BitVec.toNat_ofNat]
    omega

/-- A function that ends in a jump: four bytes, two operands. -/
def spin : DecodedFunction :=
  ⟨"spin", 0x1000, 0x1008, [inst 0x1000 0 [.reg 10, .reg 10, .imm 1], inst 0x1004 2 [.reg 0, .imm (-4)]]⟩

theorem spin_laid : Laid (fun _ => 4) spin.insts := by
  constructor
  · simp
  · decide
  · decide

theorem spin_misses_last_byte : ∃ results, identifyBasicBlocks smallTarget [spin] = .ok results ∧
    ∃ func ∈ results, Laid (fun _ => 4) func.insts ∧ ¬ExactRanges (fun _ => 4) func.insts func.blocks := by
  refine ⟨_, rfl, _, List.mem_cons_self, spin_laid, ?_⟩
  intro exact
  have ended := exact.last _ _ rfl rfl
  revert ended
  decide

/-- A function whose last instruction has three operands. -/
def spinWhile : DecodedFunction :=
  ⟨"while", 0x1000, 0x1008,
    [inst 0x1000 0 [.reg 10, .reg 10, .imm 1], inst 0x1004 1 [.reg 10, .reg 0, .imm (-4)]]⟩

theorem spinWhile_laid : Laid (fun _ => 4) spinWhile.insts := by
  constructor
  · simp
  · decide
  · decide

theorem spin_ranges_iff :
    (∃ results, identifyBasicBlocks smallTarget [spin] = .ok results ∧
      ∃ func ∈ results, (ExactRanges (fun _ => 4) func.insts func.blocks ↔
        ∀ t, func.insts.getLast? = some t → t.inst.size % 2 ^ 64 + 1 = 4)) ∧
    ∃ results, identifyBasicBlocks smallTarget [spinWhile] = .ok results ∧
      ∃ func ∈ results, ExactRanges (fun _ => 4) func.insts func.blocks := by
  refine ⟨⟨_, rfl, _, List.mem_cons_self,
    @ranges_exact_iff smallTarget (fun _ => 4) [spin] _ rfl _ List.mem_cons_self spin_laid⟩,
    _, rfl, _, List.mem_cons_self,
    (@ranges_exact_iff smallTarget (fun _ => 4) [spinWhile] _ rfl _ List.mem_cons_self spinWhile_laid).mpr ?_⟩
  rintro t ⟨⟩
  decide

end Bleach.Mctomir
