import Bleach.Base.ByteMemory

/-! The section table of a lifted module and the run-time lookup that walks it. The
globals of the module before the table is made are arbitrary. -/
namespace Bleach
open ByteMemory

/-- `mctomir::section_info`. -/
structure SectionInfo where
  data : List (BitVec 8)
  name : String
  start : BitVec 64
  writable : Bool := false
  deriving DecidableEq

inductive Linkage where
  | externalLinkage
  | internalLinkage
  | privateLinkage
  deriving DecidableEq

def Linkage.isLocal : Linkage → Bool
  | .externalLinkage => false
  | _ => true

abbrev GlobalId := Nat

inductive Scalar where
  | i64 (val : BitVec 64)
  /-- The address of a global. -/
  | addr (global : GlobalId)
  deriving DecidableEq

inductive GlobalType where
  | bytes (n : Nat)
  | i64
  | ptr
  | sections (n : Nat)
  | other (text : String)
  deriving DecidableEq

inductive Constant where
  | bytes (vals : List (BitVec 8))
  | scalar (val : Scalar)
  /-- An array of structs, field by field. -/
  | structs (rows : List (List Scalar))
  deriving DecidableEq

def Scalar.type : Scalar → GlobalType
  | .i64 _ => .i64
  | .addr _ => .ptr

def Constant.type : Constant → GlobalType
  | .bytes vals => .bytes vals.length
  | .scalar val => val.type
  | .structs rows => .sections rows.length

structure GlobalVariable where
  name : String
  type : GlobalType
  isConstant : Bool
  linkage : Linkage
  initializer : Option Constant
  align : Option Nat := none
  deriving DecidableEq

/-- The named values of an LLVM module; a global is its position. -/
structure IRGlobals where
  globals : List GlobalVariable
  otherNames : List String
  deriving DecidableEq

/-- How LLVM renames a value whose name is taken. -/
structure UniqueNames where
  unique : List String → String → String
  fresh : ∀ taken name, unique taken name ∉ taken
  kept : ∀ taken name, name ∉ taken → unique taken name = name

inductive SectionError where
  | assertion
  deriving DecidableEq

variable (names : UniqueNames)

namespace IRGlobals

/-- `Module::getGlobalVariable`: globals with local linkage are not returned. -/
def getGlobalVariable (mod : IRGlobals) (name : String) : Option GlobalId :=
  match mod.globals.findIdx? fun var => var.name = name with
  | some g => if (mod.globals[g]?).any fun var => !var.linkage.isLocal then some g else none
  | none => none

def newGlobal (mod : IRGlobals) (var : GlobalVariable) : IRGlobals × GlobalId :=
  let taken := mod.globals.map GlobalVariable.name ++ mod.otherNames
  ({ mod with globals := mod.globals ++ [{ var with name := names.unique taken var.name }] },
    mod.globals.length)

end IRGlobals

structure SectionGlobals where
  data : GlobalId
  size : GlobalId
  start : GlobalId
  ptr : GlobalId
  deriving DecidableEq

/-- Modify if declared else create; the type of an initializer is asserted. -/
def createGlobal (mod : IRGlobals) (varname : String) (val : Constant) :
    Except SectionError (IRGlobals × GlobalId) :=
  match mod.getGlobalVariable varname with
  | some g =>
    if (mod.globals[g]?).any fun var => var.type = val.type then
      .ok ({ mod with globals := mod.globals.modify g fun var =>
        { var with initializer := some val, isConstant := true, linkage := .privateLinkage, align := some 8 } }, g)
    else .error .assertion
  | none => .ok (mod.newGlobal names
      { name := varname, type := val.type, isConstant := true, linkage := .privateLinkage,
        initializer := some val })

/-- The section name without a leading dot. -/
def sectionName (name : String) : String :=
  match name.toList with
  | '.' :: rest => String.ofList rest
  | _ => name

def createSectionGlobals (mod : IRGlobals) (info : SectionInfo) :
    Except SectionError (IRGlobals × SectionGlobals) := do
  let name := sectionName info.name
  let (mod, data) := mod.newGlobal names
    { name := "bleach_" ++ name, type := .bytes info.data.length, isConstant := !info.writable,
      linkage := .privateLinkage, initializer := some (.bytes info.data) }
  let (mod, size) ← createGlobal names mod (name ++ "_size")
    (.scalar (.i64 (BitVec.ofNat 64 info.data.length)))
  let (mod, start) ← createGlobal names mod (name ++ "_start") (.scalar (.i64 info.start))
  let (mod, ptr) ← createGlobal names mod (name ++ "_ptr") (.scalar (.addr data))
  .ok (mod, ⟨data, size, start, ptr⟩)

/-- `create_section_globals` on each section in order. -/
def createAllSectionGlobals (mod : IRGlobals) :
    List SectionInfo → Except SectionError (IRGlobals × List SectionGlobals)
  | [] => .ok (mod, [])
  | info :: rest => do
    let (mod, globals) ← createSectionGlobals names mod info
    let (mod, others) ← createAllSectionGlobals mod rest
    .ok (mod, globals :: others)

def scalarInitializer (mod : IRGlobals) (g : GlobalId) : Except SectionError Scalar :=
  match (mod.globals[g]?).bind GlobalVariable.initializer with
  | some (.scalar val) => .ok val
  | _ => .error .assertion

/-- One `bleach_section_t` constant. -/
def sectionRow (mod : IRGlobals) (globals : SectionGlobals) : Except SectionError (List Scalar) := do
  let size ← scalarInitializer mod globals.size
  let start ← scalarInitializer mod globals.start
  let data ← scalarInitializer mod globals.ptr
  .ok [data, start, size]

def createSectionsArrayGlobal (mod : IRGlobals) (sections : List SectionGlobals) :
    Except SectionError (IRGlobals × GlobalId) := do
  let rows ← sections.mapM (sectionRow mod)
  .ok (mod.newGlobal names
    { name := "bleach_section_globals", type := .sections rows.length, isConstant := true,
      linkage := .internalLinkage, initializer := some (.structs rows), align := some 8 })

/-- Size and alignment of a field. -/
structure FieldLayout where
  size : Nat
  align : Nat

def alignTo (offset align : Nat) : Nat := (offset + align - 1) / align * align

/-- The offsets of the fields of a struct that is not packed. -/
def fieldOffsets : List FieldLayout → Nat → List Nat
  | [], _ => []
  | field :: rest, offset =>
    alignTo offset field.align :: fieldOffsets rest (alignTo offset field.align + field.size)

def structEnd : List FieldLayout → Nat → Nat
  | [], offset => offset
  | field :: rest, offset => structEnd rest (alignTo offset field.align + field.size)

def structSize (fields : List FieldLayout) : Nat :=
  alignTo (structEnd fields 0) (fields.foldl (fun m field => max m field.align) 1)

/-- `{ptr, i64, i64}` as LLVM lays it out on a 64-bit host. -/
def emittedFields : List FieldLayout := [⟨8, 8⟩, ⟨8, 8⟩, ⟨8, 8⟩]

variable (addressOf : GlobalId → BitVec 64)

def Scalar.value : Scalar → BitVec 64
  | .i64 val => val
  | .addr g => addressOf g

/-- The rows of the table are in host memory from `base` on. -/
def HoldsRows (mem : Memory (BitVec 64)) (base : BitVec 64) (rows : List (List Scalar)) : Prop :=
  ∀ (i : Nat) (row : List Scalar), rows[i]? = some row → ∀ (j : Nat) (val : Scalar) (offset : Nat),
    row[j]? = some val → (fieldOffsets emittedFields 0)[j]? = some offset →
      load mem (base + BitVec.ofNat 64 (structSize emittedFields * i + offset)) 8 = val.value addressOf

/-- The globals of the module are in host memory at their addresses. -/
def HoldsGlobals (mem : Memory (BitVec 64)) (mod : IRGlobals) : Prop :=
  ∀ (g : GlobalId) (var : GlobalVariable), mod.globals[g]? = some var → match var.initializer with
    | some (.bytes vals) => ∀ (j : Nat) (b : BitVec 8), vals[j]? = some b →
        mem (addressOf g + BitVec.ofNat 64 j) = b
    | some (.structs rows) => HoldsRows addressOf mem (addressOf g) rows
    | _ => True

/-- `{char *, uint64_t, uint64_t}` of the intrinsics. -/
def sectionFields : List FieldLayout := [⟨8, 8⟩, ⟨8, 8⟩, ⟨8, 8⟩]

structure BleachSection where
  data : BitVec 64
  start : BitVec 64
  size : BitVec 64

/-- Member `j` of `sections[i]`. -/
def sectionMember (mem : Memory (BitVec 64)) (sections : BitVec 64) (i j : Nat) : BitVec 64 :=
  load mem (sections +
    BitVec.ofNat 64 (structSize sectionFields * i + ((fieldOffsets sectionFields 0)[j]?).getD 0)) 8

def bleachSection (mem : Memory (BitVec 64)) (sections : BitVec 64) (i : Nat) : BleachSection where
  data := sectionMember mem sections i 0
  start := sectionMember mem sections i 1
  size := sectionMember mem sections i 2

/-- The loop from section `i` on, with `n` sections to go. -/
def tryGetRealAddrFrom (mem : Memory (BitVec 64)) (addr sections : BitVec 64) : Nat → Nat → BitVec 64
  | 0, _ => 0
  | n + 1, i =>
    let s := bleachSection mem sections i
    if s.start ≤ addr ∧ addr < s.start + s.size then s.data + (addr - s.start)
    else tryGetRealAddrFrom mem addr sections n (i + 1)

def bleachTryGetRealAddrImpl (mem : Memory (BitVec 64)) (addr sections : BitVec 64) (sectionCount : Nat) :
    BitVec 64 :=
  tryGetRealAddrFrom mem addr sections sectionCount 0

/-- The body `create_addr_lookup_func` emits for the table and the number of sections. -/
def bleachTryGetRealAddr (mem : Memory (BitVec 64)) (sectionsArray : GlobalId) (sectionsCount : Nat)
    (addr : BitVec 64) : BitVec 64 :=
  bleachTryGetRealAddrImpl mem addr (addressOf sectionsArray) sectionsCount

end Bleach
