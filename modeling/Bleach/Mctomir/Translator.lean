import Bleach.Machine

/-! The translation of decoded machine code to machine functions: `translator_t`
from the decoded instructions of each symbol on. The target's instruction tables
are a parameter. -/
namespace Bleach.Mctomir

abbrev Address := BitVec 64

scoped instance : LawfulBEq Address := inferInstance

inductive MCOperand where
  | reg (reg : Register)
  | imm (val : Int)
  /-- Floating-point immediates, expressions and the like. -/
  | other
  deriving DecidableEq

def MCOperand.isImm : MCOperand → Bool
  | .imm _ => true
  | _ => false

structure MCInst where
  opcode : Nat
  operands : List MCOperand
  deriving DecidableEq

/-- `MCInst::size`, the number of operands. -/
def MCInst.size (inst : MCInst) : Nat := inst.operands.length

structure MCInstrDesc where
  numDefs : Nat
  numOperands : Nat

/-- `MCInstrAnalysis` and `MCInstrInfo` of the target. -/
structure MCInstrAnalysis where
  isBranch : MCInst → Bool
  isUnconditionalBranch : MCInst → Bool
  isCall : MCInst → Bool
  isReturn : MCInst → Bool
  evaluateBranch : MCInst → Address → BitVec 64 → Option Address
  get : Nat → MCInstrDesc

/-- Block `idx` of the machine function of function `func`. -/
structure BlockRef where
  func : FuncId
  idx : Nat
  deriving DecidableEq

inductive Operand where
  | reg (reg : Register) (isDef isKill : Bool)
  | imm (val : Int)
  | mbb (block : BlockRef)
  | global (func : FuncId)
  deriving DecidableEq

inductive Opcode where
  | target (opcode : Nat)
  /-- `TargetOpcode::G_BR`. -/
  | gBr
  deriving DecidableEq

structure BuiltInstr where
  opcode : Opcode
  operands : List Operand
  deriving DecidableEq

structure BuiltBlock where
  instrs : List BuiltInstr
  successors : List BlockRef
  deriving DecidableEq

/-- A block as `CreateMachineBasicBlock` makes it. -/
def emptyBlock : BuiltBlock := ⟨[], []⟩

structure TranslatedInst where
  address : Address
  inst : MCInst
  deriving DecidableEq

structure TranslatedBlock where
  startAddress : Address
  endAddress : Address := 0
  mbb : Option BlockRef := none
  instrs : List TranslatedInst := []
  deriving DecidableEq

/-- A `translated_function` as the disassembly leaves it: no block is made yet. -/
structure DecodedFunction where
  name : String
  start : Address
  «end» : Address
  insts : List TranslatedInst := []
  deriving DecidableEq

structure TranslatedFunction extends DecodedFunction where
  blocks : List TranslatedBlock := []
  /-- The blocks of the machine function. -/
  mfunc : List BuiltBlock := []
  deriving DecidableEq

/-- `address_to_mbb`; the latest entry of an address is the one that counts. -/
abbrev AddressMap := List (Address × BlockRef)

inductive TranslateError where
  | failed (what : String)
  | assertion
  | unreachable
  /-- A loop of the source does not end. -/
  | diverges
  deriving DecidableEq

abbrev Translate := Except TranslateError

variable (mia : MCInstrAnalysis)

/-- The target `identify_basic_blocks` and `link_machine_basic_blocks` compute. -/
def branchTarget (t : TranslatedInst) : Option Address := mia.evaluateBranch t.inst t.address 0

/-- The leaders the instructions record: targets, and what stands behind a branch or
a return. -/
def recordedLeaders : List TranslatedInst → List Address
  | [] => []
  | t :: rest =>
    (if mia.isBranch t.inst || mia.isReturn t.inst then
      (if mia.isBranch t.inst then (branchTarget mia t).toList else []) ++
        (rest.head?.map TranslatedInst.address).toList
    else []) ++ recordedLeaders rest

def leaders (insts : List TranslatedInst) : List Address :=
  (insts.head?.map TranslatedInst.address).toList ++ recordedLeaders mia insts

/-- One round of the loop that fills the blocks; the last block is the current one. -/
def addInst (leaders : List Address) (blocks : List TranslatedBlock) (t : TranslatedInst) :
    Translate (List TranslatedBlock) :=
  if t.address ∈ leaders then
    let closed := match blocks.getLast? with
      | some current => blocks.dropLast ++ [{ current with endAddress := t.address - 1 }]
      | none => []
    .ok (closed ++ [{ startAddress := t.address, instrs := [t] }])
  else
    match blocks.getLast? with
    | some current => .ok (blocks.dropLast ++ [{ current with instrs := current.instrs ++ [t] }])
    | none => .error (.failed "Failed to create basic block")

/-- The last block ends behind the last instruction, whose size is taken to be the
number of its operands. -/
def closeLast (insts : List TranslatedInst) (blocks : List TranslatedBlock) : List TranslatedBlock :=
  match blocks.getLast?, insts.getLast? with
  | some block, some last => blocks.dropLast ++
      [{ block with endAddress := last.address + BitVec.ofNat 64 last.inst.size }]
  | _, _ => blocks

def identifyBlocks (insts : List TranslatedInst) : Translate (List TranslatedBlock) := do
  let blocks ← insts.foldlM (addInst (leaders mia insts)) []
  .ok (closeLast insts blocks)

def identifyBasicBlocks (funcs : List DecodedFunction) : Translate (List TranslatedFunction) :=
  funcs.mapM fun func => do
    let blocks ← identifyBlocks mia func.insts
    .ok { func with blocks := blocks }

/-- Append a machine block for each block to the machine function. -/
def placeBlocks (f : FuncId) :
    List TranslatedBlock → Nat → AddressMap → List TranslatedBlock × AddressMap
  | [], _, map => ([], map)
  | block :: rest, i, map =>
    let (blocks, map) := placeBlocks f rest (i + 1) ((block.startAddress, ⟨f, i⟩) :: map)
    ({ block with mbb := some ⟨f, i⟩ } :: blocks, map)

def createMachineBasicBlocks :
    List TranslatedFunction → FuncId → AddressMap → List TranslatedFunction × AddressMap
  | [], _, map => ([], map)
  | func :: rest, f, map =>
    let (blocks, map) := placeBlocks f func.blocks func.mfunc.length map
    let (funcs, map) := createMachineBasicBlocks rest (f + 1) map
    ({ func with
        blocks := blocks
        mfunc := func.mfunc ++ List.replicate blocks.length emptyBlock } :: funcs, map)

def isTailCall (inst : MCInst) (current target : BlockRef) : Bool :=
  mia.isUnconditionalBranch inst && target.func != current.func

def isCall (inst : MCInst) (current target : BlockRef) : Bool :=
  mia.isCall inst || isTailCall mia inst current target

def addOperandToMib (desc : MCInstrDesc) (op : MCOperand) (idx : Nat) : Translate Operand :=
  match op with
  | .reg r =>
    if idx < desc.numDefs then .ok (.reg r true false)
    else .ok (.reg r false (idx + 1 = desc.numOperands))
  | .imm v => .ok (.imm v)
  | .other => .error .unreachable

/-- The displacement of a branch is left out. -/
def fillOperands (desc : MCInstrDesc) (isBranch : Bool) : List MCOperand → Nat → Translate (List Operand)
  | [], _ => .ok []
  | op :: rest, idx =>
    if isBranch && rest.isEmpty && op.isImm then .ok []
    else do
      let operand ← addOperandToMib desc op idx
      let operands ← fillOperands desc isBranch rest (idx + 1)
      .ok (operand :: operands)

/-- The address `create_machine_instr` looks a target up under. -/
def operandTarget (t : TranslatedInst) : Option Address :=
  (mia.evaluateBranch t.inst 0 4).map fun target => target + t.address

/-- The instruction, and the successor it gives its block. -/
def createMachineInstr (map : AddressMap) (current : BlockRef) (t : TranslatedInst) :
    Translate (BuiltInstr × Option BlockRef) :=
  let inst := t.inst
  let desc := mia.get inst.opcode
  match operandTarget mia t with
  | some target =>
    if inst.operands.getLast?.any MCOperand.isImm then
      match map.lookup target with
      | some found =>
        if isCall mia inst current found then
          if isTailCall mia inst current found then .ok (⟨.gBr, [.global found.func]⟩, none)
          else do
            let operands ← fillOperands desc true inst.operands 0
            .ok (⟨.target inst.opcode, operands ++ [.global found.func]⟩, none)
        else do
          let operands ← fillOperands desc true inst.operands 0
          .ok (⟨.target inst.opcode, operands ++ [.mbb found]⟩, some found)
      | none => do
        -- only a warning
        let operands ← fillOperands desc true inst.operands 0
        .ok (⟨.target inst.opcode, operands⟩, none)
    else .error .assertion
  | none => do
    let operands ← fillOperands desc false inst.operands 0
    .ok (⟨.target inst.opcode, operands⟩, none)

def translateInsts (map : AddressMap) (current : BlockRef) :
    List TranslatedInst → BuiltBlock → Translate BuiltBlock
  | [], built => .ok built
  | t :: rest, built => do
    let (instr, successor) ← createMachineInstr mia map current t
    translateInsts map current rest
      ⟨built.instrs ++ [instr], built.successors ++ successor.toList⟩

def conversionFailed (t : TranslatedInst) : TranslateError :=
  .failed ("Failed to convert instruction at 0x" ++ String.ofList (Nat.toDigits 16 t.address.toNat))

def translateBlocks (map : AddressMap) : List TranslatedBlock → List BuiltBlock → Translate (List BuiltBlock)
  | [], mfunc => .ok mfunc
  | block :: rest, mfunc =>
    match block.mbb, block.instrs with
    | some current, insts => do
      let built ← translateInsts mia map current insts ((mfunc[current.idx]?).getD emptyBlock)
      translateBlocks map rest (mfunc.set current.idx built)
    | none, [] => translateBlocks map rest mfunc
    | none, t :: _ => .error (conversionFailed t)

def translateInstructions (map : AddressMap) (funcs : List TranslatedFunction) :
    Translate (List TranslatedFunction) :=
  funcs.mapM fun func => do
    let mfunc ← translateBlocks mia map func.blocks func.mfunc
    .ok { func with mfunc := mfunc }

def getOrCreateMbbForAddress (f : FuncId) (address : Address) (map : AddressMap)
    (mfunc : List BuiltBlock) : AddressMap × List BuiltBlock :=
  match map.lookup address with
  | some _ => (map, mfunc)
  | none => ((address, ⟨f, mfunc.length⟩) :: map, mfunc ++ [emptyBlock])

def addSuccessor (mfunc : List BuiltBlock) (i : Nat) (successor : BlockRef) : List BuiltBlock :=
  mfunc.modify i fun built => { built with successors := built.successors ++ [successor] }

/-- The lookup of a branch target; the branch itself got its edge when it was built. -/
def linkTarget (f : FuncId) (current : BlockRef) (last : TranslatedInst) (map : AddressMap)
    (mfunc : List BuiltBlock) : AddressMap × List BuiltBlock :=
  match branchTarget mia last with
  | none => (map, mfunc)
  | some target =>
    match map.lookup target with
    | some found =>
      if !isCall mia last.inst current found then (map, mfunc)
      else getOrCreateMbbForAddress f target map mfunc
    | none => getOrCreateMbbForAddress f target map mfunc

def linkNext (current : BlockRef) (next : Option BlockRef) (skipPresent : Bool)
    (mfunc : List BuiltBlock) : List BuiltBlock :=
  match next with
  | some next =>
    if skipPresent && ((mfunc[current.idx]?).getD emptyBlock).successors.contains next then mfunc
    else addSuccessor mfunc current.idx next
  | none => mfunc

def linkBlock (f : FuncId) (next : Option BlockRef) (block : TranslatedBlock) (map : AddressMap)
    (mfunc : List BuiltBlock) : AddressMap × List BuiltBlock :=
  match block.mbb, block.instrs.getLast? with
  | some current, some last =>
    if mia.isBranch last.inst then
      let (map, mfunc) := linkTarget mia f current last map mfunc
      if !mia.isUnconditionalBranch last.inst then (map, linkNext current next true mfunc)
      else (map, mfunc)
    else if mia.isReturn last.inst then (map, mfunc)
    else (map, linkNext current next false mfunc)
  | _, _ => (map, mfunc)

def linkBlocks (f : FuncId) :
    List TranslatedBlock → AddressMap → List BuiltBlock → AddressMap × List BuiltBlock
  | [], map, mfunc => (map, mfunc)
  | block :: rest, map, mfunc =>
    let (map, mfunc) := linkBlock mia f (rest.head?.bind TranslatedBlock.mbb) block map mfunc
    linkBlocks f rest map mfunc

def linkMachineBasicBlocks :
    List TranslatedFunction → FuncId → AddressMap → List TranslatedFunction × AddressMap
  | [], _, map => ([], map)
  | func :: rest, f, map =>
    let (map, mfunc) := linkBlocks mia f func.blocks map func.mfunc
    let (funcs, map) := linkMachineBasicBlocks rest (f + 1) map
    ({ func with mfunc := mfunc } :: funcs, map)

/-- The functions and `address_to_mbb` behind the four passes. -/
structure Translation where
  funcs : List TranslatedFunction
  addressToMbb : AddressMap

def finalize (funcs : List DecodedFunction) : Translate Translation := do
  let funcs ← identifyBasicBlocks mia funcs
  let (funcs, map) := createMachineBasicBlocks funcs 0 []
  let funcs ← translateInstructions mia map funcs
  let (funcs, map) := linkMachineBasicBlocks mia funcs 0 map
  .ok ⟨funcs, map⟩

end Bleach.Mctomir
