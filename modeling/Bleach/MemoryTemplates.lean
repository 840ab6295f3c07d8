import Bleach.Lifter.Sections

/-! The loads and stores of the RISC-V template as config-gen instantiates them. Values
carry their IR types, so that an instruction at the wrong type is an error. -/
namespace Bleach.Templates
open ByteMemory

/-- The prefixes `rv.yaml` is used for. -/
inductive Arch where
  | rv32
  | rv64
  deriving DecidableEq

/-- `get_xlen`. -/
def Arch.xlen : Arch → Nat
  | .rv32 => 32
  | .rv64 => 64

inductive IRType where
  | int (w : Nat)
  | ptr
  | float
  | double
  deriving DecidableEq

/-- Floating-point values are their bits. -/
inductive IRValue where
  | int (w : Nat) (val : BitVec w)
  | ptr (addr : BitVec 64)
  | float (bits : BitVec 32)
  | double (bits : BitVec 64)
  deriving DecidableEq

inductive IRError where
  | typeMismatch
  deriving DecidableEq

/-- Host memory, and the addresses a template accessed. -/
structure HostState where
  mem : Memory (BitVec 64)
  accesses : List (BitVec 64)

abbrev Template := StateT HostState (Except IRError)

def typeMismatch {α : Type} : Template α := throw .typeMismatch

def asInt (w : Nat) : IRValue → Template (BitVec w)
  | .int w' val => if same : w' = w then pure (same ▸ val) else typeMismatch
  | _ => typeMismatch

def asPtr : IRValue → Template (BitVec 64)
  | .ptr addr => pure addr
  | _ => typeMismatch

def add (w : Nat) (a b : IRValue) : Template IRValue := do
  let a ← asInt w a
  let b ← asInt w b
  return .int w (a + b)

def or (w : Nat) (a b : IRValue) : Template IRValue := do
  let a ← asInt w a
  let b ← asInt w b
  return .int w (a ||| b)

def shl (w : Nat) (a b : IRValue) : Template IRValue := do
  let a ← asInt w a
  let b ← asInt w b
  return .int w (a <<< b)

def trunc (w : Nat) (a : IRValue) (dest : Nat) : Template IRValue := do
  let a ← asInt w a
  if dest < w then return .int dest (a.setWidth dest) else typeMismatch

def zext (w : Nat) (a : IRValue) (dest : Nat) : Template IRValue := do
  let a ← asInt w a
  if w < dest then return .int dest (a.setWidth dest) else typeMismatch

def sext (w : Nat) (a : IRValue) (dest : Nat) : Template IRValue := do
  let a ← asInt w a
  if w < dest then return .int dest (a.signExtend dest) else typeMismatch

def bitcast (a : IRValue) (dest : IRType) : Template IRValue :=
  match a, dest with
  | .float bits, .int 32 => return .int 32 bits
  | .double bits, .int 64 => return .int 64 bits
  | .int 32 bits, .float => return .float bits
  | .int 64 bits, .double => return .double bits
  | _, _ => typeMismatch

def icmpUgt (w : Nat) (a b : IRValue) : Template IRValue := do
  let a ← asInt w a
  let b ← asInt w b
  return .int 1 (BitVec.ofBool (b < a))

/-- `icmp ne` of pointers. -/
def icmpNe (a b : IRValue) : Template IRValue := do
  let a ← asPtr a
  let b ← asPtr b
  return .int 1 (BitVec.ofBool (a ≠ b))

def ptrtoint (a : IRValue) (dest : Nat) : Template IRValue := do
  let a ← asPtr a
  return .int dest (a.setWidth dest)

def inttoptr (w : Nat) (a : IRValue) : Template IRValue := do
  let a ← asInt w a
  return .ptr (a.setWidth 64)

/-- `select` of two pointers. -/
def selectPtr (c a b : IRValue) : Template IRValue := do
  let c ← asInt 1 c
  let a ← asPtr a
  let b ← asPtr b
  return .ptr (if c = 1 then a else b)

def load (type : IRType) (p : IRValue) : Template IRValue := do
  let p ← asPtr p
  let state ← get
  set { state with accesses := state.accesses ++ [p] }
  match type with
  | .int w => return .int w ((ByteMemory.load state.mem p ((w + 7) / 8)).setWidth w)
  | .ptr => return .ptr (ByteMemory.load state.mem p 8)
  | .float => return .float (ByteMemory.load state.mem p 4)
  | .double => return .double (ByteMemory.load state.mem p 8)

def store (type : IRType) (val p : IRValue) : Template Unit := do
  let p ← asPtr p
  let state ← get
  let mem ← match type, val with
    | .int w, .int w' val =>
      if w = w' then pure (ByteMemory.store state.mem p val ((w + 7) / 8)) else typeMismatch
    | .ptr, .ptr val => pure (ByteMemory.store state.mem p val 8)
    | .float, .float val => pure (ByteMemory.store state.mem p val 4)
    | .double, .double val => pure (ByteMemory.store state.mem p val 8)
    | _, _ => typeMismatch
  set (HostState.mk mem (state.accesses ++ [p]))

/-- The lookup in a table that is at hand: the first section decides. -/
def realAddr (table : List BleachSection) (addr : BitVec 64) : BitVec 64 :=
  match table.find? fun s => s.start ≤ addr ∧ addr < s.start + s.size with
  | some s => s.data + (addr - s.start)
  | none => 0

variable (table : List BleachSection)

/-- The call of `bleach_try_get_real_addr`. -/
def bleachTryGetRealAddr (addr : IRValue) : Template IRValue := do
  let addr ← asInt 64 addr
  return .ptr (realAddr table addr)

/-- `%addr` to `%actual_addr`: the host address of a section, else the guest address. -/
def actualAddr (base offset : IRValue) : Template IRValue := do
  let addr ← add 64 base offset
  let hostAddr ← bleachTryGetRealAddr table addr
  let hostAddrInt ← ptrtoint hostAddr 64
  let found ← icmpUgt 64 hostAddrInt (.int 64 0)
  let fallbackAddr ← inttoptr 64 addr
  selectPtr found hostAddr fallbackAddr

/-- `%addr` to `%actual_val`: a load where a host address was found, else `0`. -/
def loadIfFound (base offset : IRValue) (val : IRValue → Template IRValue) (default : IRValue) :
    Template IRValue := do
  let addr ← add 64 base offset
  let hostAddr ← bleachTryGetRealAddr table addr
  let found ← icmpNe hostAddr (.ptr 0)
  let found ← asInt 1 found
  if found = 1 then val hostAddr else return default

def SD (val rs1 offset : IRValue) : Template Unit := do
  let p ← actualAddr table rs1 offset
  store (.int 64) val p

def LD (rs1 offset : IRValue) : Template IRValue := do
  let p ← actualAddr table rs1 offset
  load (.int 64) p

def SW (xlen : Nat) (val rs1 offset : IRValue) : Template Unit := do
  let p ← actualAddr table rs1 offset
  let valTrunc ← trunc xlen val 32
  store (.int 32) valTrunc p

def LW (xlen : Nat) (rs1 offset : IRValue) : Template IRValue :=
  loadIfFound table rs1 offset (fun p => do
    let valInt ← load (.int 32) p
    sext 32 valInt xlen) (.int xlen 0)

def FSD (rs1 rs2 offset : IRValue) : Template Unit := do
  let p ← actualAddr table rs2 offset
  let valDouble ← bitcast rs1 .double
  store .double valDouble p

def FLD (rs1 offset : IRValue) : Template IRValue :=
  loadIfFound table rs1 offset (fun p => do
    let valFloat ← load .double p
    bitcast valFloat (.int 64)) (.int 64 0)

def FSW (rs1 rs2 offset : IRValue) : Template Unit := do
  let valTrunc ← trunc 64 rs1 32
  let p ← actualAddr table rs2 offset
  let val ← bitcast valTrunc .float
  store .float val p

def FLW (rs1 offset : IRValue) : Template IRValue := do
  let p ← actualAddr table rs1 offset
  let valFloat ← load .float p
  let val ← bitcast valFloat (.int 32)
  let valZext ← zext 32 val 64
  let ones ← shl 64 (.int 64 4294967295) (.int 64 32)
  or 64 valZext ones

inductive StoreTemplate where
  | SD
  | SW
  | FSD
  | FSW
  deriving DecidableEq

inductive LoadTemplate where
  | LD
  | LW
  | FLD
  | FLW
  deriving DecidableEq

/-- The width of the arguments. -/
def StoreTemplate.argWidth (arch : Arch) : StoreTemplate → Nat
  | .SW => arch.xlen
  | _ => 64

def LoadTemplate.argWidth (arch : Arch) : LoadTemplate → Nat
  | .LW => arch.xlen
  | _ => 64

/-- The instance for an architecture; `SD` and `LD` require `rv64`, and read nothing of it. -/
def StoreTemplate.func (arch : Arch) : StoreTemplate → IRValue → IRValue → IRValue → Template Unit
  | .SD => Templates.SD table
  | .SW => Templates.SW table arch.xlen
  | .FSD => Templates.FSD table
  | .FSW => Templates.FSW table

def LoadTemplate.func (arch : Arch) : LoadTemplate → IRValue → IRValue → Template IRValue
  | .LD => Templates.LD table
  | .LW => Templates.LW table arch.xlen
  | .FLD => Templates.FLD table
  | .FLW => Templates.FLW table

/-- The template called with register values. -/
def StoreTemplate.run (s : StoreTemplate) (arch : Arch) (mem : Memory (BitVec 64))
    (value base offset : BitVec 64) : Except IRError (Unit × HostState) :=
  let arg (x : BitVec 64) : IRValue := .int (s.argWidth arch) (x.setWidth _)
  s.func table arch (arg value) (arg base) (arg offset) ⟨mem, []⟩

def LoadTemplate.run (l : LoadTemplate) (arch : Arch) (mem : Memory (BitVec 64))
    (base offset : BitVec 64) : Except IRError (IRValue × HostState) :=
  let arg (x : BitVec 64) : IRValue := .int (l.argWidth arch) (x.setWidth _)
  l.func table arch (arg base) (arg offset) ⟨mem, []⟩

/-- The load of the same width. -/
def StoreTemplate.load : StoreTemplate → LoadTemplate
  | .SD => .LD
  | .SW => .LW
  | .FSD => .FLD
  | .FSW => .FLW

/-- What a load is to return of a stored value. -/
def LoadTemplate.result (arch : Arch) (value : BitVec 64) : LoadTemplate → IRValue
  | .LD => .int 64 value
  | .LW => .int arch.xlen ((value.setWidth 32).signExtend arch.xlen)
  | .FLD => .int 64 value
  | .FLW => .int 64 (BitVec.allOnes 32 ++ value.setWidth 32)

/-- The store and then the load run, at one host address, and where they are of the same
width the load returns what was stored. -/
def LoadSeesStore (arch : Arch) (s : StoreTemplate) (l : LoadTemplate) (mem : Memory (BitVec 64))
    (value base offset base' offset' : BitVec 64) : Prop :=
  ∃ p mem', s.run table arch mem value base offset = .ok ((), ⟨mem', [p]⟩) ∧
    ∃ v, l.run table arch mem' base' offset' = .ok (v, ⟨mem', [p]⟩) ∧
      (s.load = l → v = l.result arch value)

end Bleach.Templates
