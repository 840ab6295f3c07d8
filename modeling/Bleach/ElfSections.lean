import Bleach.AddressLookup

/-! The sections of an ELF file in the section table. A section is as long as the bytes LLVM
reads for it, so that one without bytes in the file is mapped to nothing. -/
namespace Bleach
open ByteMemory (Memory)

def SHF_WRITE : BitVec 64 := 1

def SHF_ALLOC : BitVec 64 := 2

/-- A section header, and what LLVM's reader finds behind it. -/
structure ElfSection where
  name : Except String String
  address : BitVec 64
  flags : BitVec 64
  /-- The type is `SHT_NOBITS`. -/
  nobits : Bool
  size : BitVec 64
  fileBytes : Except String (List (BitVec 8))
  /-- As many bytes are read as the header says. -/
  sized : ∀ bytes, fileBytes = .ok bytes → bytes.length = size.toNat
  /-- `SectionRef::isData` -/
  isData : Bool

namespace ElfSection

/-- `SectionRef::getContents` -/
def getContents (sec : ElfSection) : Except String (List (BitVec 8)) :=
  if sec.nobits then .ok [] else sec.fileBytes

def isAlloc (sec : ElfSection) : Bool := sec.flags &&& SHF_ALLOC != 0

def isWritable (sec : ElfSection) : Bool := sec.flags &&& SHF_WRITE != 0

/-- The bytes of the section when the program starts. -/
def loadBytes (sec : ElfSection) : Except String (List (BitVec 8)) :=
  if sec.nobits then .ok (List.replicate sec.size.toNat 0) else sec.fileBytes

end ElfSection

/-- Whether the access has `w`; `r` it always has. -/
def getAccess (sec : ElfSection) : Bool := sec.flags &&& SHF_WRITE != 0

def isDataSection (sec : ElfSection) : Bool := if sec.isData then true else sec.flags &&& SHF_ALLOC != 0

def setSection (sections : List SectionInfo) (name : String) (contents : List (BitVec 8))
    (start : BitVec 64) (acc : Bool) : List SectionInfo :=
  sections ++ [{ data := contents, name := name, start := start, writable := acc }]

/-- The body of the loop. -/
def readSection (sections : List SectionInfo) (sec : ElfSection) : Except String (List SectionInfo) :=
  if isDataSection sec then do
    let contents ← sec.getContents
    let name ← sec.name
    .ok (setSection sections name contents sec.address (getAccess sec))
  else .ok sections

/-- The sections of the loaded file, if there is one. -/
def readSections : Option (List ElfSection) → Except String (List SectionInfo)
  | none => .error "No ELF file has been loaded"
  | some sections => sections.foldlM readSection []

/-- Contents and name can be read. -/
def ElfSection.Readable (sec : ElfSection) : Prop := sec.getContents.isOk ∧ sec.name.isOk

/-- What is passed on of a section. -/
def ElfSection.info (sec : ElfSection) : SectionInfo where
  data := sec.getContents.toOption.getD []
  name := sec.name.toOption.getD ""
  start := sec.address
  writable := sec.isWritable

theorem readSection_ok (read : List ElfSection) (sec : ElfSection) (sections : List SectionInfo) :
    readSection (read.map ElfSection.info) sec = .ok sections ↔
      (∀ s ∈ [sec].filter isDataSection, s.Readable) ∧
        sections = (read ++ [sec].filter isDataSection).map ElfSection.info := by
  unfold readSection
  by_cases data : isDataSection sec = true
  · rw [if_pos data, List.filter_cons_of_pos data, List.filter_nil, List.map_append]
    cases contents : sec.getContents with
    | error text => simp [ElfSection.Readable, contents, bind, Except.bind, Except.isOk, Except.toBool]
    | ok bytes =>
      cases name : sec.name with
      | error text => simp [ElfSection.Readable, name, bind, Except.bind, Except.isOk, Except.toBool]
      | ok text =>
        have readable : sec.Readable := by
          simp [ElfSection.Readable, contents, name, Except.isOk, Except.toBool]
        have info : sec.info = ⟨bytes, text, sec.address, getAccess sec⟩ := by
          simp [ElfSection.info, contents, name, getAccess, ElfSection.isWritable, Except.toOption]
        simp only [List.forall_mem_singleton, readable, true_and, List.map_cons, List.map_nil, info]
        change Except.ok (read.map ElfSection.info ++ [_]) = .ok sections ↔ _
        rw [Except.ok.injEq]
        exact eq_comm
  · rw [if_neg data, List.filter_cons_of_neg data, List.filter_nil, List.append_nil]
    simpa using eq_comm

/-- Every data section is passed on, in order, or reading fails. -/
theorem readSections_ok {elf : List ElfSection} {infos : List SectionInfo} :
    readSections (some elf) = .ok infos ↔
      (∀ sec ∈ elf.filter isDataSection, sec.Readable) ∧
        infos = (elf.filter isDataSection).map ElfSection.info := by
  have single : (elf.flatMap fun sec => [sec].filter isDataSection) = elf.filter isDataSection := by
    clear infos
    induction elf with
    | nil => rfl
    | cons sec rest ih =>
      rw [List.flatMap_cons, ih, ← List.filter_append]
      rfl
  have read := foldlM_ok_append readSection_ok elf [] (s := infos)
  rw [single] at read
  exact read

/-- A global holds the bytes, and lifted code may write them or not. -/
def StoredBytes (mod : IRGlobals) (g : GlobalId) (bytes : List (BitVec 8)) (writable : Bool) : Prop :=
  ∃ var, mod.globals[g]? = some var ∧ var.linkage.isLocal = true ∧ var.initializer = some (.bytes bytes) ∧
    var.isConstant = !writable

/-- Some row of the table has the start, the size and a global with the bytes. -/
def MappedAs (mod : IRGlobals) (table : GlobalId) (start size : BitVec 64) (bytes : List (BitVec 8))
    (writable : Bool) : Prop :=
  ∃ rows g, Settled mod table (.structs rows) ∧ [.addr g, .i64 start, .i64 size] ∈ rows ∧
    StoredBytes mod g bytes writable

variable {names : UniqueNames} {mod mod' mod'' : IRGlobals} {table g : GlobalId} {infos : List SectionInfo}
  {sections : List SectionGlobals} {bytes : List (BitVec 8)} {writable : Bool}

theorem StoredBytes.keep (stored : StoredBytes mod g bytes writable) (keeps : KeepsLocal mod mod') :
    StoredBytes mod' g bytes writable := by
  obtain ⟨var, found, here, rest⟩ := stored
  exact ⟨var, keeps g var found here, here, rest⟩

theorem StoredBytes.unique {bytes' : List (BitVec 8)} {writable' : Bool}
    (stored : StoredBytes mod g bytes writable) (stored' : StoredBytes mod g bytes' writable') :
    bytes = bytes' ∧ writable = writable' := by
  obtain ⟨var, found, -, init, const⟩ := stored
  obtain ⟨var', found', -, init', const'⟩ := stored'
  obtain rfl := Option.some.inj (found.symm.trans found')
  exact ⟨by simpa using init.symm.trans init', by simpa using const.symm.trans const'⟩

theorem Settled.unique {val val' : Constant} (settled : Settled mod g val) (settled' : Settled mod g val') :
    val = val' := by
  obtain ⟨var, found, -, init⟩ := settled
  obtain ⟨var', found', -, init'⟩ := settled'
  obtain rfl := Option.some.inj (found.symm.trans found')
  exact Option.some.inj (init.symm.trans init')

theorem createSectionGlobals_stored {info : SectionInfo} {globals : SectionGlobals}
    (done : createSectionGlobals names mod info = .ok (mod', globals)) :
    StoredBytes mod' globals.data info.data info.writable := by
  unfold createSectionGlobals at done
  obtain ⟨⟨mod₁, size⟩, made_size, done⟩ := bind_ok.mp done
  obtain ⟨⟨mod₂, start⟩, made_start, done⟩ := bind_ok.mp done
  obtain ⟨⟨mod₃, ptr⟩, made_ptr, done⟩ := bind_ok.mp done
  cases done
  have keeps := (createGlobal_ok made_size).1.trans
    ((createGlobal_ok made_start).1.trans (createGlobal_ok made_ptr).1)
  refine StoredBytes.keep ?_ keeps
  refine ⟨_, List.getElem?_concat_length, rfl, rfl, rfl⟩

theorem createAllSectionGlobals_stored
    (done : createAllSectionGlobals names mod infos = .ok (mod', sections)) :
    List.Forall₂ (fun info globals => StoredBytes mod' globals.data info.data info.writable)
      infos sections := by
  induction infos generalizing mod sections with
  | nil =>
    cases done
    exact .nil
  | cons info rest ih =>
    obtain ⟨⟨mod₁, globals⟩, made, done⟩ := bind_ok.mp done
    obtain ⟨⟨mod₂, others⟩, later, done⟩ := bind_ok.mp done
    cases done
    exact .cons ((createSectionGlobals_stored made).keep (createAllSectionGlobals_ok later).1) (ih later)

theorem createSectionsArrayGlobal_keeps
    (done : createSectionsArrayGlobal names mod' sections = .ok (mod'', table)) :
    KeepsLocal mod' mod'' := by
  obtain ⟨rows, -, done⟩ := bind_ok.mp done
  cases done
  exact newGlobal_keeps _

/-- The rows are those of the sections passed on. -/
theorem mappedAs_iff (made : createAllSectionGlobals names mod infos = .ok (mod', sections))
    (done : createSectionsArrayGlobal names mod' sections = .ok (mod'', table)) (start size : BitVec 64) :
    MappedAs mod'' table start size bytes writable ↔ ∃ info ∈ infos, info.start = start ∧
      BitVec.ofNat 64 info.data.length = size ∧ info.data = bytes ∧ info.writable = writable := by
  obtain ⟨mod₁, table₁, done', state⟩ := createSectionsArrayGlobal_ok made
  obtain ⟨rfl, rfl⟩ := Prod.mk.inj (Except.ok.inj (done.symm.trans done'))
  have keeps := createSectionsArrayGlobal_keeps done
  have stored := createAllSectionGlobals_stored made
  obtain ⟨rows, settled, length, entries⟩ := state.rows
  constructor
  · rintro ⟨rows', g, settled', row, bytes_stored⟩
    obtain rfl : rows = rows' := by simpa using settled.unique settled'
    obtain ⟨i, at_i⟩ := List.mem_iff_getElem?.mp row
    have bound := (List.getElem?_eq_some_iff.mp at_i).1
    have found : infos[i]? = some infos[i] := List.getElem?_eq_getElem (length ▸ bound)
    obtain ⟨globals, there, entry⟩ := entries i _ found
    obtain ⟨globals', there', here⟩ := forall₂_get stored found
    obtain rfl := Option.some.inj (there.symm.trans there')
    have same := Option.some.inj (at_i.symm.trans entry)
    simp only [tableEntry, List.cons.injEq, Scalar.addr.injEq, Scalar.i64.injEq, and_true] at same
    obtain ⟨rfl, start, size⟩ := same
    obtain ⟨same_bytes, same_access⟩ := (here.keep keeps).unique bytes_stored
    exact ⟨_, List.mem_of_getElem? found, start.symm, size.symm, same_bytes, same_access⟩
  · rintro ⟨info, member, rfl, rfl, rfl, rfl⟩
    obtain ⟨i, found⟩ := List.mem_iff_getElem?.mp member
    obtain ⟨globals, there, entry⟩ := entries i _ found
    obtain ⟨globals', there', here⟩ := forall₂_get stored found
    obtain rfl := Option.some.inj (there.symm.trans there')
    exact ⟨rows, globals.data, settled, List.mem_of_getElem? entry, here.keep keeps⟩

/-- A row has the start, the size and the bytes of the section, writable if it is. -/
def FullyMapped (mod : IRGlobals) (table : GlobalId) (sec : ElfSection) : Prop :=
  ∃ bytes, sec.loadBytes = .ok bytes ∧ MappedAs mod table sec.address sec.size bytes sec.isWritable

/-- The section has bytes in the file or no bytes at all. The last case is a section that happens
to repeat an empty one, zeros included. -/
def ElfSection.Backed (elf : List ElfSection) (sec : ElfSection) : Prop :=
  sec.nobits = false ∨ sec.size = 0 ∨ ∃ twin ∈ elf, isDataSection twin = true ∧ twin.nobits = false ∧
    twin.address = sec.address ∧ twin.isWritable = sec.isWritable ∧
    twin.fileBytes = .ok (List.replicate sec.size.toNat 0)

variable {elf : List ElfSection} {sec : ElfSection}

theorem isDataSection_of_alloc (alloc : sec.isAlloc = true) : isDataSection sec = true := by
  unfold isDataSection
  split_ifs
  · rfl
  · exact alloc

theorem ElfSection.Readable.contents (readable : sec.Readable) : sec.getContents = .ok sec.info.data := by
  obtain ⟨contents, -⟩ := readable
  unfold ElfSection.info
  cases read : sec.getContents with
  | error text => simp [read, Except.isOk, Except.toBool] at contents
  | ok bytes => rfl

theorem ElfSection.Readable.file (readable : sec.Readable) (kind : sec.nobits = false) :
    sec.fileBytes = .ok sec.info.data := by
  simpa [ElfSection.getContents, kind] using readable.contents

theorem ElfSection.Readable.empty (readable : sec.Readable) (kind : sec.nobits = true) :
    sec.info.data = [] := by
  simpa [ElfSection.getContents, kind] using readable.contents.symm

theorem fullyMapped_iff (read : readSections (some elf) = .ok infos)
    (made : createAllSectionGlobals names mod infos = .ok (mod', sections))
    (done : createSectionsArrayGlobal names mod' sections = .ok (mod'', table)) (member : sec ∈ elf)
    (alloc : sec.isAlloc = true) : FullyMapped mod'' table sec ↔ sec.Backed elf := by
  obtain ⟨readable, rfl⟩ := readSections_ok.mp read
  have listed : ∀ t ∈ elf, isDataSection t = true →
      t.info ∈ (elf.filter isDataSection).map ElfSection.info :=
    fun t inside data => List.mem_map_of_mem (List.mem_filter.mpr ⟨inside, data⟩)
  have own := listed sec member (isDataSection_of_alloc alloc)
  have readable_sec := readable sec (List.mem_filter.mpr ⟨member, isDataSection_of_alloc alloc⟩)
  simp only [FullyMapped, mappedAs_iff made done]
  cases kind : sec.nobits with
  | false =>
    have file := readable_sec.file kind
    refine iff_of_true ⟨_, ?_, sec.info, own, rfl, ?_, rfl, rfl⟩ (.inl kind)
    · simpa [ElfSection.loadBytes, kind] using file
    · rw [sec.sized _ file, BitVec.ofNat_toNat, BitVec.setWidth_eq]
  | true =>
    have zeros : sec.loadBytes = .ok (List.replicate sec.size.toNat 0) := by
      simp [ElfSection.loadBytes, kind]
    simp only [zeros, Except.ok.injEq, exists_eq_left', ElfSection.Backed, kind, Bool.true_eq_false,
      false_or]
    constructor
    · rintro ⟨info, member', start, size, same, access⟩
      obtain ⟨twin, inside, rfl⟩ := List.mem_map.mp member'
      obtain ⟨there, data⟩ := List.mem_filter.mp inside
      cases twin_kind : twin.nobits with
      | true =>
        rw [(readable twin inside).empty twin_kind] at size
        exact .inl size.symm
      | false =>
        have file := (readable twin inside).file twin_kind
        rw [same] at file
        exact .inr ⟨twin, there, data, twin_kind, start, access, file⟩
    · rintro (empty | ⟨twin, there, data, twin_kind, start, access, file⟩)
      · have nothing := readable_sec.empty kind
        refine ⟨sec.info, own, rfl, ?_, ?_, rfl⟩ <;> rw [nothing, empty] <;> rfl
      · have listed_twin := List.mem_filter.mpr ⟨there, data⟩
        have same : twin.info.data = List.replicate sec.size.toNat 0 :=
          Except.ok.inj (((readable twin listed_twin).file twin_kind).symm.trans file)
        refine ⟨twin.info, listed twin there data, start, ?_, same, access⟩
        rw [same, List.length_replicate, BitVec.ofNat_toNat, BitVec.setWidth_eq]

variable {addressOf : GlobalId → BitVec 64} {mem : Memory (BitVec 64)} {addr : BitVec 64}

/-- The address of a byte of a global that some row names. -/
def Owned (addressOf : GlobalId → BitVec 64) (mod : IRGlobals) (table : GlobalId) (p : BitVec 64) : Prop :=
  ∃ rows g start size bytes, Settled mod table (.structs rows) ∧ [.addr g, .i64 start, .i64 size] ∈ rows ∧
    Settled mod g (.bytes bytes) ∧ ∃ j < bytes.length, p = addressOf g + BitVec.ofNat 64 j

/-- The test of the lookup for a section with bytes in the file. -/
def ElfSection.Resolves (sec : ElfSection) (addr : BitVec 64) : Prop :=
  isDataSection sec = true ∧ sec.nobits = false ∧ sec.address ≤ addr ∧ addr < sec.address + sec.size

theorem offset_lt {start addr : BitVec 64} {n : Nat} (above : start ≤ addr)
    (below : addr < start + BitVec.ofNat 64 n) : (addr - start).toNat < n := by
  have offset : (addr - start).toNat = addr.toNat - start.toNat := BitVec.toNat_sub_of_le above
  have short := Nat.mod_le n (2 ^ 64)
  have bounds := start.isLt
  rw [BitVec.lt_def, BitVec.toNat_add, BitVec.toNat_ofNat] at below
  rw [BitVec.le_def] at above
  by_cases wraps : start.toNat + n % 2 ^ 64 < 2 ^ 64
  · rw [Nat.mod_eq_of_lt wraps] at below
    omega
  · rw [Nat.mod_eq_sub_mod (by omega), Nat.mod_eq_of_lt (by omega)] at below
    omega

theorem ElfSection.Readable.matches_iff (readable : sec.Readable) :
    (sec.address ≤ addr ∧ addr < sec.address + BitVec.ofNat 64 sec.info.data.length) ↔
      sec.nobits = false ∧ sec.address ≤ addr ∧ addr < sec.address + sec.size := by
  cases kind : sec.nobits with
  | true =>
    rw [readable.empty kind]
    simp [BitVec.le_def, BitVec.lt_def]
  | false =>
    rw [sec.sized _ (readable.file kind), BitVec.ofNat_toNat, BitVec.setWidth_eq]
    simp

theorem sectionsAt_shows {base : BitVec 64} (shown : HoldsTable addressOf mem base infos sections)
    {s : BleachSection} (member : s ∈ sectionsAt mem base infos.length) :
    ∃ (i : Nat) (info : SectionInfo) (globals : SectionGlobals), infos[i]? = some info ∧
      sections[i]? = some globals ∧ Shows addressOf info globals s := by
  obtain ⟨i, listed, rfl⟩ := List.mem_map.mp member
  have below : i < infos.length := List.mem_range.mp listed
  have found := List.getElem?_eq_getElem below
  obtain ⟨globals, there, shows⟩ := shown i _ found
  exact ⟨i, _, globals, found, there, shows⟩

theorem shows_sectionsAt {base : BitVec 64} (shown : HoldsTable addressOf mem base infos sections)
    {info : SectionInfo} (member : info ∈ infos) :
    ∃ s ∈ sectionsAt mem base infos.length, ∃ globals, Shows addressOf info globals s := by
  obtain ⟨i, found⟩ := List.mem_iff_getElem?.mp member
  obtain ⟨globals, -, shows⟩ := shown i info found
  have below := (List.getElem?_eq_some_iff.mp found).1
  exact ⟨_, List.mem_map_of_mem (List.mem_range.mpr below), globals, shows⟩

/-- Null aside, the lookup resolves an address exactly if a section with bytes in the file has it. -/
theorem owned_iff (read : readSections (some elf) = .ok infos)
    (made : createAllSectionGlobals names mod infos = .ok (mod', sections))
    (done : createSectionsArrayGlobal names mod' sections = .ok (mod'', table))
    (holds : HoldsGlobals addressOf mem mod'') (null : ¬Owned addressOf mod'' table 0) :
    Owned addressOf mod'' table (bleachTryGetRealAddr addressOf mem table infos.length addr) ↔
      ∃ sec ∈ elf, sec.Resolves addr := by
  obtain ⟨readable, infos_eq⟩ := readSections_ok.mp read
  obtain ⟨mod₁, table₁, done', state⟩ := createSectionsArrayGlobal_ok made
  obtain ⟨rfl, rfl⟩ := Prod.mk.inj (Except.ok.inj (done.symm.trans done'))
  have shown := state.holdsTable holds
  obtain ⟨rows, settled, -, entries⟩ := state.rows
  rw [bleachTryGetRealAddr, bleachTryGetRealAddrImpl, tryGetRealAddrFrom_eq_first, ← sectionsAt_eq,
    firstTranslated]
  cases first : (sectionsAt mem (addressOf table) infos.length).find? (·.Matches addr) with
  | none =>
    have nowhere : ∀ s ∈ sectionsAt mem (addressOf table) infos.length, ¬s.Matches addr := by
      simpa using first
    refine iff_of_false null ?_
    rintro ⟨sec, inside, data, resolves⟩
    have listed : sec ∈ elf.filter isDataSection := List.mem_filter.mpr ⟨inside, data⟩
    obtain ⟨s, member, globals, -, start, size⟩ :=
      shows_sectionsAt shown (infos_eq ▸ List.mem_map_of_mem (f := ElfSection.info) listed)
    apply nowhere s member
    rw [BleachSection.Matches, start, size]
    exact (readable sec listed).matches_iff.mpr resolves
  | some s =>
    have member := List.mem_of_find?_eq_some first
    have here : s.Matches addr := by simpa using List.find?_some first
    obtain ⟨i, info, globals, found, there, data, start, size⟩ := sectionsAt_shows shown member
    rw [BleachSection.Matches, start, size] at here
    obtain ⟨sec, listed, rfl⟩ := List.mem_map.mp (infos_eq ▸ List.mem_of_getElem? found)
    obtain ⟨inside, kind⟩ := List.mem_filter.mp listed
    refine iff_of_true ?_ ⟨sec, inside, kind, (readable sec listed).matches_iff.mp here⟩
    obtain ⟨globals', there', entry⟩ := entries i _ found
    obtain rfl := Option.some.inj (there.symm.trans there')
    refine ⟨rows, globals.data, _, _, sec.info.data, settled, List.mem_of_getElem? entry,
      state.data i _ _ found there, (addr - sec.info.start).toNat, offset_lt here.1 here.2, ?_⟩
    rw [Option.elim_some, BleachSection.translate, data, start, BitVec.ofNat_toNat, BitVec.setWidth_eq]

/-- A section is mapped exactly if it is backed by the file, and an address resolves exactly if
a section that is has it. -/
theorem sections_mapped_iff (read : readSections (some elf) = .ok infos)
    (made : createAllSectionGlobals names mod infos = .ok (mod', sections)) :
    ∃ mod'' table, createSectionsArrayGlobal names mod' sections = .ok (mod'', table) ∧
      (∀ sec ∈ elf, sec.isAlloc = true → (FullyMapped mod'' table sec ↔ sec.Backed elf)) ∧
      ∀ (addressOf : GlobalId → BitVec 64) (mem : Memory (BitVec 64)), HoldsGlobals addressOf mem mod'' →
        ¬Owned addressOf mod'' table 0 → ∀ addr : BitVec 64,
          (Owned addressOf mod'' table (bleachTryGetRealAddr addressOf mem table infos.length addr) ↔
            ∃ sec ∈ elf, sec.Resolves addr) := by
  obtain ⟨mod'', table, done, -⟩ := createSectionsArrayGlobal_ok made
  refine ⟨mod'', table, done, fun sec member alloc => fullyMapped_iff read made done member alloc, ?_⟩
  intro addressOf mem holds null addr
  exact owned_iff read made done holds null

/-- `.bss`, 16 bytes of zeros. -/
def bss : ElfSection where
  name := .ok ".bss"
  address := 0x2000
  flags := SHF_WRITE ||| SHF_ALLOC
  nobits := true
  size := 16
  fileBytes := .error "the section has no bytes"
  sized := nofun
  isData := false

/-- The row of `.bss` has size 0, and its addresses are not found. -/
theorem bss_not_mapped : ∃ infos mod' sections mod'' table,
    readSections (some [bss]) = .ok infos ∧
    createAllSectionGlobals dottedNames ⟨[], []⟩ infos = .ok (mod', sections) ∧
    createSectionsArrayGlobal dottedNames mod' sections = .ok (mod'', table) ∧
    bss.isAlloc = true ∧ ¬FullyMapped mod'' table bss ∧
    ∀ (addressOf : GlobalId → BitVec 64) (mem : Memory (BitVec 64)), HoldsGlobals addressOf mem mod'' →
      bleachTryGetRealAddr addressOf mem table infos.length 0x2008 = 0 := by
  have read : readSections (some [bss]) = .ok [⟨[], ".bss", 0x2000, true⟩] := rfl
  obtain ⟨⟨mod', sections⟩, made⟩ : ∃ made, createAllSectionGlobals dottedNames ⟨[], []⟩
    [⟨[], ".bss", 0x2000, true⟩] = .ok made := ⟨_, rfl⟩
  obtain ⟨mod'', table, done, state⟩ := createSectionsArrayGlobal_ok made
  refine ⟨_, mod', sections, mod'', table, read, made, done, rfl, fun mapped => ?_,
    fun addressOf mem holds => ?_⟩
  · obtain backed | empty | ⟨twin, member, -, file, -⟩ :=
      (fullyMapped_iff read made done List.mem_cons_self rfl).mp mapped
    · cases backed
    · exact absurd empty (by decide)
    · rw [List.mem_singleton.mp member] at file
      cases file
  · exact lookup_nowhere (state.holdsTable holds) (by decide) (by decide)

/-- The sections of `smallSections`, from a file. -/
def smallElf : List ElfSection :=
  [{ name := .ok ".data", address := 0x10, flags := SHF_WRITE ||| SHF_ALLOC, nobits := false, size := 2,
     fileBytes := .ok [0x11, 0x22], sized := by rintro _ ⟨⟩; rfl, isData := true },
   { name := .ok "data", address := 0x20, flags := SHF_ALLOC, nobits := false, size := 1,
     fileBytes := .ok [0x33], sized := by rintro _ ⟨⟩; rfl, isData := true }]

theorem smallElf_unowned {mod'' : IRGlobals} (state : TableMade mod'' 8 smallSections smallSectionGlobals) :
    ¬Owned smallAddress mod'' 8 0 := by
  rintro ⟨rows', g, start, size, bytes, settled', row, held, j, below, same⟩
  obtain ⟨rows, settled, length, entries⟩ := state.rows
  obtain rfl : rows = rows' := by simpa using settled.unique settled'
  obtain ⟨i, at_i⟩ := List.mem_iff_getElem?.mp row
  have bound := (List.getElem?_eq_some_iff.mp at_i).1
  have stored : ∀ (info : SectionInfo) (globals : SectionGlobals), smallSections[i]? = some info →
      smallSectionGlobals[i]? = some globals → g = globals.data ∧ bytes = info.data := by
    intro info globals found there
    obtain ⟨globals', there', entry⟩ := entries i info found
    obtain rfl := Option.some.inj (there.symm.trans there')
    have same_row := Option.some.inj (at_i.symm.trans entry)
    simp only [tableEntry, List.cons.injEq, Scalar.addr.injEq] at same_row
    obtain ⟨rfl, -⟩ := same_row
    exact ⟨rfl, by simpa using held.unique (state.data i info globals found there)⟩
  rw [length] at bound
  rcases i with _ | _ | i
  · obtain ⟨rfl, rfl⟩ := stored _ _ rfl rfl
    rcases j with _ | _ | j
    · exact absurd same (by decide)
    · exact absurd same (by decide)
    · exact absurd below (by simp)
  · obtain ⟨rfl, rfl⟩ := stored _ _ rfl rfl
    rcases j with _ | j
    · exact absurd same (by decide)
    · exact absurd below (by simp)
  · exact absurd bound (by simp [smallSections])

/-- Both sections are mapped, and the second byte of the first one resolves. -/
theorem small_sections_mapped : ∃ mod' mod'',
    readSections (some smallElf) = .ok smallSections ∧
    createAllSectionGlobals dottedNames smallGlobals smallSections = .ok (mod', smallSectionGlobals) ∧
    createSectionsArrayGlobal dottedNames mod' smallSectionGlobals = .ok (mod'', 8) ∧
    (∀ sec ∈ smallElf, FullyMapped mod'' 8 sec) ∧
    Owned smallAddress mod'' 8 (bleachTryGetRealAddr smallAddress smallMemory 8 2 0x11) := by
  obtain ⟨mod', made, mod'', done, holds⟩ := smallSections_made
  have read : readSections (some smallElf) = .ok smallSections := rfl
  obtain ⟨mod₁, table, done', mapped, resolves⟩ := sections_mapped_iff read made
  obtain ⟨rfl, rfl⟩ := Prod.mk.inj (Except.ok.inj (done.symm.trans done'))
  obtain ⟨mod₂, table₂, done₂, state⟩ := createSectionsArrayGlobal_ok made
  obtain ⟨rfl, rfl⟩ := Prod.mk.inj (Except.ok.inj (done.symm.trans done₂))
  refine ⟨mod', mod'', read, made, done, ?_, ?_⟩
  · intro sec member
    have kind : sec.nobits = false ∧ sec.isAlloc = true := by
      rcases List.mem_cons.mp member with rfl | member
      · exact ⟨rfl, rfl⟩
      · rw [List.mem_singleton.mp member]
        exact ⟨rfl, rfl⟩
    exact (mapped sec member kind.2).mpr (.inl kind.1)
  · refine (resolves smallAddress smallMemory holds (smallElf_unowned state) 0x11).mpr ?_
    exact ⟨_, List.mem_cons_self, rfl, rfl, by decide, by decide⟩

end Bleach
