import Bleach.Lifter.Sections
import Bleach.Base.Fallible
import Mathlib.Algebra.Order.BigOperators.Group.List
import Mathlib.Algebra.Order.Group.Nat

/-! The section table and the lookup agree with the sections: what was created for one
section is not changed for a later one, and the lookup reads the fields where the
table has them. -/
namespace Bleach
open ByteMemory
variable {names : UniqueNames} {mod mod' : IRGlobals} {g : GlobalId} {val : Constant}

/-- A global no later step looks up by name. -/
def Settled (mod : IRGlobals) (g : GlobalId) (val : Constant) : Prop :=
  ∃ var, mod.globals[g]? = some var ∧ var.linkage.isLocal = true ∧ var.initializer = some val

/-- Globals with local linkage stay as they are. -/
def KeepsLocal (mod mod' : IRGlobals) : Prop :=
  ∀ (g : GlobalId) (var : GlobalVariable), mod.globals[g]? = some var → var.linkage.isLocal = true →
    mod'.globals[g]? = some var

theorem KeepsLocal.refl (mod : IRGlobals) : KeepsLocal mod mod := fun _ _ found _ => found

theorem KeepsLocal.trans {mod'' : IRGlobals} (first : KeepsLocal mod mod') (second : KeepsLocal mod' mod'') :
    KeepsLocal mod mod'' :=
  fun g var found here => second g var (first g var found here) here

theorem Settled.keep (settled : Settled mod g val) (keeps : KeepsLocal mod mod') : Settled mod' g val := by
  obtain ⟨var, found, here, init⟩ := settled
  exact ⟨var, keeps g var found here, here, init⟩

theorem newGlobal_keeps (var : GlobalVariable) : KeepsLocal mod (mod.newGlobal names var).1 := by
  intro g var' found _
  rw [IRGlobals.newGlobal, List.getElem?_append_left (List.getElem?_eq_some_iff.mp found).1, found]

theorem newGlobal_settled {var : GlobalVariable} (here : var.linkage.isLocal = true)
    (init : var.initializer = some val) :
    Settled (mod.newGlobal names var).1 (mod.newGlobal names var).2 val := by
  refine ⟨{ var with
    name := names.unique (mod.globals.map GlobalVariable.name ++ mod.otherNames) var.name }, ?_, here, init⟩
  simp [IRGlobals.newGlobal]

/-- Only a global without local linkage is modified. -/
theorem getGlobalVariable_external {name : String} (found : mod.getGlobalVariable name = some g) :
    ∃ var, mod.globals[g]? = some var ∧ var.linkage.isLocal = false := by
  unfold IRGlobals.getGlobalVariable at found
  split at found
  · next g' _ =>
    split at found
    · next nonlocal =>
      cases found
      obtain ⟨var, at_g, here⟩ := (Option.any_eq_true _ _).mp nonlocal
      exact ⟨var, at_g, by simpa using here⟩
    · cases found
  · cases found

theorem createGlobal_ok {varname : String} (done : createGlobal names mod varname val = .ok (mod', g)) :
    KeepsLocal mod mod' ∧ Settled mod' g val := by
  unfold createGlobal at done
  split at done
  · next g' found =>
    split at done
    · cases done
      obtain ⟨var, at_g, nonlocal⟩ := getGlobalVariable_external found
      constructor
      · intro g' var' at_g' here
        have other : g ≠ g' := by
          rintro rfl
          rw [at_g] at at_g'
          cases at_g'
          rw [nonlocal] at here
          cases here
        simp only [List.getElem?_modify_ne _ _ other, at_g']
      · exact ⟨_, by simp only [List.getElem?_modify_eq, at_g]; rfl, rfl, rfl⟩
    · cases done
  · cases done
    exact ⟨newGlobal_keeps _, newGlobal_settled rfl rfl⟩

/-- The globals of a section, as the table needs them. -/
structure SectionSettled (mod : IRGlobals) (info : SectionInfo) (globals : SectionGlobals) : Prop where
  data : Settled mod globals.data (.bytes info.data)
  size : Settled mod globals.size (.scalar (.i64 (BitVec.ofNat 64 info.data.length)))
  start : Settled mod globals.start (.scalar (.i64 info.start))
  ptr : Settled mod globals.ptr (.scalar (.addr globals.data))

theorem SectionSettled.keep {info : SectionInfo} {globals : SectionGlobals}
    (settled : SectionSettled mod info globals) (keeps : KeepsLocal mod mod') :
    SectionSettled mod' info globals :=
  ⟨settled.data.keep keeps, settled.size.keep keeps, settled.start.keep keeps, settled.ptr.keep keeps⟩

theorem createSectionGlobals_ok {info : SectionInfo} {globals : SectionGlobals}
    (done : createSectionGlobals names mod info = .ok (mod', globals)) :
    KeepsLocal mod mod' ∧ SectionSettled mod' info globals := by
  unfold createSectionGlobals at done
  obtain ⟨⟨mod₁, size⟩, made_size, done⟩ := bind_ok.mp done
  obtain ⟨⟨mod₂, start⟩, made_start, done⟩ := bind_ok.mp done
  obtain ⟨⟨mod₃, ptr⟩, made_ptr, done⟩ := bind_ok.mp done
  cases done
  obtain ⟨keeps₁, size_settled⟩ := createGlobal_ok made_size
  obtain ⟨keeps₂, start_settled⟩ := createGlobal_ok made_start
  obtain ⟨keeps₃, ptr_settled⟩ := createGlobal_ok made_ptr
  refine ⟨(newGlobal_keeps _).trans (keeps₁.trans (keeps₂.trans keeps₃)), ?_, ?_, ?_, ptr_settled⟩
  · exact (newGlobal_settled rfl rfl).keep (keeps₁.trans (keeps₂.trans keeps₃))
  · exact size_settled.keep (keeps₂.trans keeps₃)
  · exact start_settled.keep keeps₃

theorem createAllSectionGlobals_ok {infos : List SectionInfo} {sections : List SectionGlobals}
    (done : createAllSectionGlobals names mod infos = .ok (mod', sections)) :
    KeepsLocal mod mod' ∧ List.Forall₂ (SectionSettled mod') infos sections := by
  induction infos generalizing mod sections with
  | nil =>
    cases done
    exact ⟨.refl _, .nil⟩
  | cons info rest ih =>
    obtain ⟨⟨mod₁, globals⟩, made, done⟩ := bind_ok.mp done
    obtain ⟨⟨mod₂, others⟩, later, done⟩ := bind_ok.mp done
    cases done
    obtain ⟨keeps₁, here⟩ := createSectionGlobals_ok made
    obtain ⟨keeps₂, all⟩ := ih later
    exact ⟨keeps₁.trans keeps₂, .cons (here.keep keeps₂) all⟩

/-- The table entry of a section: data, start, size. -/
def tableEntry (info : SectionInfo) (globals : SectionGlobals) : List Scalar :=
  [.addr globals.data, .i64 info.start, .i64 (BitVec.ofNat 64 info.data.length)]

theorem scalarInitializer_settled {val : Scalar} (settled : Settled mod g (.scalar val)) :
    scalarInitializer mod g = .ok val := by
  obtain ⟨var, found, -, init⟩ := settled
  simp [scalarInitializer, found, init]

theorem sectionRow_settled {info : SectionInfo} {globals : SectionGlobals}
    (settled : SectionSettled mod info globals) :
    sectionRow mod globals = .ok (tableEntry info globals) := by
  unfold sectionRow
  rw [scalarInitializer_settled settled.size, scalarInitializer_settled settled.start,
    scalarInitializer_settled settled.ptr]
  rfl

theorem sectionRows_settled {infos : List SectionInfo} {sections : List SectionGlobals}
    (all : List.Forall₂ (SectionSettled mod) infos sections) :
    sections.mapM (sectionRow mod) = .ok (List.zipWith tableEntry infos sections) := by
  induction all with
  | nil => rfl
  | cons here _ ih =>
    rw [List.mapM_cons, sectionRow_settled here, ih]
    rfl

/-- The addresses of a section. -/
def SectionInfo.Contains (info : SectionInfo) (addr : BitVec 64) : Prop :=
  info.start.toNat ≤ addr.toNat ∧ addr.toNat < info.start.toNat + info.data.length

instance (info : SectionInfo) (addr : BitVec 64) : Decidable (info.Contains addr) :=
  inferInstanceAs (Decidable (_ ∧ _))

/-- What the loop reads at the position of a section. -/
def Shows (addressOf : GlobalId → BitVec 64) (info : SectionInfo) (globals : SectionGlobals)
    (s : BleachSection) : Prop :=
  s.data = addressOf globals.data ∧ s.start = info.start ∧ s.size = BitVec.ofNat 64 info.data.length

variable {addressOf : GlobalId → BitVec 64} {mem : Memory (BitVec 64)}

/-- The fields are read where the table has them. -/
theorem bleachSection_shows {base : BitVec 64} {rows : List (List Scalar)}
    (holds : HoldsRows addressOf mem base rows) {i : Nat} {info : SectionInfo} {globals : SectionGlobals}
    (found : rows[i]? = some (tableEntry info globals)) :
    Shows addressOf info globals (bleachSection mem base i) := by
  have row := holds i _ found
  exact ⟨row 0 _ 0 rfl rfl, row 1 _ 8 rfl rfl, row 2 _ 16 rfl rfl⟩

theorem inside_iff {info : SectionInfo} {globals : SectionGlobals} {s : BleachSection}
    (shows : Shows addressOf info globals s) (fits : info.start.toNat + info.data.length < 2 ^ 64)
    (addr : BitVec 64) : (s.start ≤ addr ∧ addr < s.start + s.size) ↔ info.Contains addr := by
  obtain ⟨-, start, size⟩ := shows
  rw [start, size, BitVec.le_def, BitVec.lt_def, BitVec.toNat_add, BitVec.toNat_ofNat,
    Nat.mod_eq_of_lt (show info.data.length < 2 ^ 64 by omega), Nat.mod_eq_of_lt fits]
  rfl

/-- No section at the positions walked: null. -/
theorem tryGetRealAddrFrom_outside {base addr : BitVec 64} {n i : Nat}
    (outside : ∀ j, i ≤ j → j < i + n → ¬((bleachSection mem base j).start ≤ addr ∧
      addr < (bleachSection mem base j).start + (bleachSection mem base j).size)) :
    tryGetRealAddrFrom mem addr base n i = 0 := by
  induction n generalizing i with
  | zero => rfl
  | succ n ih =>
    rw [tryGetRealAddrFrom, if_neg (outside i (Nat.le_refl i) (by omega))]
    apply ih
    intro j above below
    exact outside j (by omega) (by omega)

/-- The first section that has the address settles the lookup. -/
theorem tryGetRealAddrFrom_inside {base addr : BitVec 64} {n i k : Nat} (above : i ≤ k) (below : k < i + n)
    (here : (bleachSection mem base k).start ≤ addr ∧
      addr < (bleachSection mem base k).start + (bleachSection mem base k).size)
    (before : ∀ j, i ≤ j → j < k → ¬((bleachSection mem base j).start ≤ addr ∧
      addr < (bleachSection mem base j).start + (bleachSection mem base j).size)) :
    tryGetRealAddrFrom mem addr base n i =
      (bleachSection mem base k).data + (addr - (bleachSection mem base k).start) := by
  induction n generalizing i with
  | zero => omega
  | succ n ih =>
    rcases Nat.eq_or_lt_of_le above with rfl | later
    · rw [tryGetRealAddrFrom, if_pos here]
    · rw [tryGetRealAddrFrom, if_neg (before i (Nat.le_refl i) later)]
      apply ih later (by omega)
      intro j above' below'
      exact before j (by omega) below'

/-- The end of the range is an address. -/
def SectionInfo.NonWrapping (info : SectionInfo) : Prop := info.start.toNat + info.data.length < 2 ^ 64

instance (info : SectionInfo) : Decidable info.NonWrapping := inferInstanceAs (Decidable (_ < _))

/-- No address is in two sections of the list. -/
def DisjointSections (infos : List SectionInfo) : Prop :=
  infos.Pairwise fun a b => ∀ addr, ¬(a.Contains addr ∧ b.Contains addr)

/-- The table in memory has the sections, in their order. -/
def HoldsTable (addressOf : GlobalId → BitVec 64) (mem : Memory (BitVec 64)) (base : BitVec 64)
    (infos : List SectionInfo) (sections : List SectionGlobals) : Prop :=
  ∀ (i : Nat) (info : SectionInfo), infos[i]? = some info →
    ∃ globals, sections[i]? = some globals ∧ Shows addressOf info globals (bleachSection mem base i)

variable {infos : List SectionInfo} {sections : List SectionGlobals} {base addr : BitVec 64}

theorem lookup_nowhere (table : HoldsTable addressOf mem base infos sections)
    (nonwrapping : ∀ info ∈ infos, info.NonWrapping) (nowhere : ∀ info ∈ infos, ¬info.Contains addr) :
    bleachTryGetRealAddrImpl mem addr base infos.length = 0 := by
  apply tryGetRealAddrFrom_outside
  intro j _ below inside
  obtain ⟨info, found⟩ : ∃ info, infos[j]? = some info :=
    ⟨_, List.getElem?_eq_getElem (show j < infos.length by omega)⟩
  obtain ⟨globals, -, shows⟩ := table j _ found
  have member := List.mem_of_getElem? found
  exact nowhere _ member ((inside_iff shows (nonwrapping _ member) addr).mp inside)

theorem lookup_section (table : HoldsTable addressOf mem base infos sections)
    (nonwrapping : ∀ info ∈ infos, info.NonWrapping) (disjoint : DisjointSections infos) {i : Nat}
    {info : SectionInfo} {globals : SectionGlobals} (found : infos[i]? = some info)
    (there : sections[i]? = some globals) (inside : info.Contains addr) :
    bleachTryGetRealAddrImpl mem addr base infos.length =
      addressOf globals.data + (addr - info.start) := by
  obtain ⟨globals', there', shows⟩ := table i info found
  rw [there] at there'
  cases there'
  have bound := (List.getElem?_eq_some_iff.mp found).1
  have here := (inside_iff shows (nonwrapping _ (List.mem_of_getElem? found)) addr).mpr inside
  have settled := tryGetRealAddrFrom_inside (Nat.zero_le i) (n := infos.length) (by omega) here
  obtain ⟨data, start, -⟩ := shows
  rw [data, start] at settled
  apply settled
  intro j _ before holds
  obtain ⟨info', earlier⟩ : ∃ info', infos[j]? = some info' :=
    ⟨_, List.getElem?_eq_getElem (show j < infos.length by omega)⟩
  obtain ⟨_, -, shows'⟩ := table j _ earlier
  have both := (inside_iff shows' (nonwrapping _ (List.mem_of_getElem? earlier)) addr).mp holds
  obtain ⟨_, rfl⟩ := List.getElem?_eq_some_iff.mp found
  obtain ⟨_, rfl⟩ := List.getElem?_eq_some_iff.mp earlier
  exact List.pairwise_iff_getElem.mp disjoint j i _ _ before addr ⟨both, inside⟩

/-- The byte of a section at an address. -/
def SectionInfo.byteAt (info : SectionInfo) (addr : BitVec 64) : Option (BitVec 8) :=
  info.data[(addr - info.start).toNat]?

theorem byteAt_of_contains {info : SectionInfo} (inside : info.Contains addr) :
    ∃ b, info.byteAt addr = some b := by
  obtain ⟨above, below⟩ := inside
  have offset : (addr - info.start).toNat = addr.toNat - info.start.toNat :=
    BitVec.toNat_sub_of_le (BitVec.le_def.mpr above)
  exact ⟨_, List.getElem?_eq_getElem (show (addr - info.start).toNat < info.data.length by omega)⟩

/-- What the module has after the table was made. -/
structure TableMade (mod : IRGlobals) (table : GlobalId) (infos : List SectionInfo)
    (sections : List SectionGlobals) : Prop where
  /-- Entry by entry. -/
  rows : ∃ rows, Settled mod table (.structs rows) ∧ rows.length = infos.length ∧
    ∀ (i : Nat) (info : SectionInfo), infos[i]? = some info →
      ∃ globals, sections[i]? = some globals ∧ rows[i]? = some (tableEntry info globals)
  /-- The data of every section. -/
  data : ∀ (i : Nat) (info : SectionInfo) (globals : SectionGlobals), infos[i]? = some info →
    sections[i]? = some globals → Settled mod globals.data (.bytes info.data)

theorem createSectionsArrayGlobal_ok
    (made : createAllSectionGlobals names mod infos = .ok (mod', sections)) :
    ∃ mod'' table, createSectionsArrayGlobal names mod' sections = .ok (mod'', table) ∧
      TableMade mod'' table infos sections := by
  obtain ⟨-, all⟩ := createAllSectionGlobals_ok made
  refine ⟨_, _, bind_ok.mpr ⟨_, sectionRows_settled all, rfl⟩, ?_, ?_⟩
  · refine ⟨_, newGlobal_settled rfl rfl, ?_, ?_⟩
    · simp [all.length_eq]
    · intro i info found
      obtain ⟨globals, there, -⟩ := forall₂_get all found
      exact ⟨globals, there, by simp [List.getElem?_zipWith, found, there]⟩
  · intro i info globals found there
    obtain ⟨globals', there', settled⟩ := forall₂_get all found
    rw [there] at there'
    cases there'
    exact settled.data.keep (newGlobal_keeps _)

theorem TableMade.holdsTable {table : GlobalId} (made : TableMade mod table infos sections)
    (holds : HoldsGlobals addressOf mem mod) :
    HoldsTable addressOf mem (addressOf table) infos sections := by
  intro i info found
  obtain ⟨rows, ⟨var, at_table, -, init⟩, -, entries⟩ := made.rows
  obtain ⟨globals, there, entry⟩ := entries i info found
  have stored := holds table var at_table
  rw [init] at stored
  exact ⟨globals, there, bleachSection_shows stored entry⟩

theorem TableMade.byte {table : GlobalId} (made : TableMade mod table infos sections)
    (holds : HoldsGlobals addressOf mem mod) {i : Nat} {info : SectionInfo} {globals : SectionGlobals}
    (found : infos[i]? = some info) (there : sections[i]? = some globals) (inside : info.Contains addr) :
    info.byteAt addr = some (mem (addressOf globals.data + (addr - info.start))) := by
  obtain ⟨b, here⟩ := byteAt_of_contains inside
  obtain ⟨var, at_data, -, init⟩ := made.data i info globals found there
  have stored := holds globals.data var at_data
  rw [init] at stored
  have value := stored _ b here
  rw [BitVec.ofNat_toNat, BitVec.setWidth_eq] at value
  rw [here, value]

/-- After the globals of every section and the table were made, entry `i` describes section
`i`, and the lookup takes every address of a section to the host address of its byte and
every other address to null, wherever the globals are placed. -/
theorem section_table_maps_addresses
    (made : createAllSectionGlobals names mod infos = .ok (mod', sections))
    (nonwrapping : ∀ info ∈ infos, info.NonWrapping) (disjoint : DisjointSections infos) :
    ∃ mod'' table, createSectionsArrayGlobal names mod' sections = .ok (mod'', table) ∧
      (∃ rows, Settled mod'' table (.structs rows) ∧ rows.length = infos.length ∧
        ∀ (i : Nat) (info : SectionInfo), infos[i]? = some info →
          ∃ globals, sections[i]? = some globals ∧ rows[i]? = some (tableEntry info globals)) ∧
      ∀ (addressOf : GlobalId → BitVec 64) (mem : Memory (BitVec 64)), HoldsGlobals addressOf mem mod'' →
        ∀ addr : BitVec 64,
          (∀ (i : Nat) (info : SectionInfo), infos[i]? = some info → info.Contains addr →
            ∃ globals, sections[i]? = some globals ∧
              bleachTryGetRealAddr addressOf mem table infos.length addr =
                addressOf globals.data + (addr - info.start) ∧
              info.byteAt addr = some (mem (addressOf globals.data + (addr - info.start)))) ∧
          ((∀ info ∈ infos, ¬info.Contains addr) →
            bleachTryGetRealAddr addressOf mem table infos.length addr = 0) := by
  obtain ⟨mod'', table, done, state⟩ := createSectionsArrayGlobal_ok made
  refine ⟨mod'', table, done, state.rows, ?_⟩
  intro addressOf mem holds addr
  have shown := state.holdsTable holds
  constructor
  · intro i info found inside
    obtain ⟨globals, there, -⟩ := shown i info found
    exact ⟨globals, there, lookup_section shown nonwrapping disjoint found there inside,
      state.byte holds found there inside⟩
  · exact lookup_nowhere shown nonwrapping

theorem length_le_sum {taken : List String} {name : String} (member : name ∈ taken) :
    name.length ≤ (taken.map String.length).sum :=
  List.single_le_sum (by simp) _ (List.mem_map_of_mem member)

/-- Taken names are made longer than every name of the module. -/
def dottedNames : UniqueNames where
  unique taken name :=
    if name ∈ taken then name ++ String.ofList (List.replicate ((taken.map String.length).sum + 1) '.')
    else name
  fresh taken name := by
    split
    · intro member
      have bound := length_le_sum member
      simp only [String.length_append, String.length_ofList, List.length_replicate] at bound
      omega
    · assumption
  kept taken name absent := if_neg absent

/-- An external `data_size` is there before. -/
def smallGlobals : IRGlobals where
  globals := [
    { name := "data_size", type := .i64, isConstant := false, linkage := .externalLinkage,
      initializer := none }]
  otherNames := ["bleach_data"]

def smallSections : List SectionInfo :=
  [{ data := [0x11, 0x22], name := ".data", start := 0x10, writable := true },
   { data := [0x33], name := "data", start := 0x20 }]

def smallSectionGlobals : List SectionGlobals := [⟨1, 0, 2, 3⟩, ⟨4, 5, 6, 7⟩]

def smallAddress : GlobalId → BitVec 64
  | 1 => 1
  | 4 => 3
  | 8 => 8
  | _ => 0

/-- The bytes of the sections, then the table. -/
def smallImage : List (BitVec 8) :=
  [0, 0x11, 0x22, 0x33, 0, 0, 0, 0,
   1, 0, 0, 0, 0, 0, 0, 0, 0x10, 0, 0, 0, 0, 0, 0, 0, 2, 0, 0, 0, 0, 0, 0, 0,
   3, 0, 0, 0, 0, 0, 0, 0, 0x20, 0, 0, 0, 0, 0, 0, 0, 1, 0, 0, 0, 0, 0, 0, 0]

def smallMemory : Memory (BitVec 64) := fun a => (smallImage[a.toNat]?).getD 0

theorem smallRows_held :
    HoldsRows smallAddress smallMemory 8 [[.addr 1, .i64 0x10, .i64 2], [.addr 4, .i64 0x20, .i64 1]] := by
  intro i row found j val offset here place
  rcases i with _ | _ | i <;> cases found <;> rcases j with _ | _ | _ | j <;> cases here <;>
    cases place <;> decide

/-- The globals of both sections and the table are made, and are in `smallMemory`. -/
theorem smallSections_made :
    ∃ mod', createAllSectionGlobals dottedNames smallGlobals smallSections = .ok (mod', smallSectionGlobals) ∧
      ∃ mod'', createSectionsArrayGlobal dottedNames mod' smallSectionGlobals = .ok (mod'', 8) ∧
        HoldsGlobals smallAddress smallMemory mod'' := by
  refine ⟨_, rfl, _, rfl, ?_⟩
  intro g var found
  rcases g with _ | _ | _ | _ | _ | _ | _ | _ | _ | g <;> cases found
  case succ.succ.succ.succ.succ.succ.succ.succ.zero => exact smallRows_held
  case succ.zero =>
    intro j b here
    rcases j with _ | _ | j <;> cases here <;> rfl
  case succ.succ.succ.succ.zero =>
    intro j b here
    rcases j with _ | j <;> cases here
    rfl
  all_goals trivial

theorem smallSections_disjoint : DisjointSections smallSections := by
  refine .cons ?_ (.cons (by simp) .nil)
  rintro _ here addr ⟨⟨above, below⟩, above', below'⟩
  cases List.mem_singleton.mp here
  simp at below above'
  omega

/-- An address of each section and one between them. -/
theorem section_table_maps_addresses_small :
    ∃ mod' mod'', createAllSectionGlobals dottedNames smallGlobals smallSections =
        .ok (mod', smallSectionGlobals) ∧
      createSectionsArrayGlobal dottedNames mod' smallSectionGlobals = .ok (mod'', 8) ∧
      HoldsGlobals smallAddress smallMemory mod'' ∧
      bleachTryGetRealAddr smallAddress smallMemory 8 2 0x11 = 2 ∧ smallMemory 2 = 0x22 ∧
      bleachTryGetRealAddr smallAddress smallMemory 8 2 0x20 = 3 ∧ smallMemory 3 = 0x33 ∧
      bleachTryGetRealAddr smallAddress smallMemory 8 2 0x12 = 0 := by
  obtain ⟨mod', made, mod'', done, holds⟩ := smallSections_made
  obtain ⟨_, table, done', -, lookup⟩ :=
    section_table_maps_addresses made (by decide) smallSections_disjoint
  rw [done] at done'
  cases done'
  refine ⟨mod', mod'', made, done, holds, ?_, rfl, ?_, rfl, ?_⟩
  · obtain ⟨_, there, here, -⟩ := (lookup smallAddress smallMemory holds 0x11).1 0 _ rfl (by decide)
    cases there
    exact here
  · obtain ⟨_, there, here, -⟩ := (lookup smallAddress smallMemory holds 0x20).1 1 _ rfl (by decide)
    cases there
    exact here
  · exact (lookup smallAddress smallMemory holds 0x12).2 (by decide)

end Bleach
