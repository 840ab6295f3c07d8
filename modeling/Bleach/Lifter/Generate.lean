import Bleach.Lifter.Registers
import Bleach.Lifter.Dispatch
import Bleach.IRExec

/-! The translation of one machine instruction, block and function. Code is
appended to blocks; operands are loaded at the end of the block that belongs to
the machine block, everything else goes to the builder's insertion point, and
the two differ behind a conditional branch. -/
namespace Bleach
variable {W : Type}

abbrev Lift := Except LiftError

structure Builder where
  blocks : Label → List Inst
  /-- The builder inserts at the end of this block. -/
  cur : Label
  sptrack : StackPointerTracker

namespace Builder

def insert (st : Builder) (l : Label) (code : List Inst) : Builder :=
  { st with blocks := Function.update st.blocks l (st.blocks l ++ code) }

def emit (st : Builder) (code : List Inst) : Builder := st.insert st.cur code

end Builder

/-- Where in its function an instruction stands. -/
structure Site where
  numBlocks : Nat
  block : BlockId
  mbb : MachineBasicBlock
  idx : Nat

namespace Site

/-- The IR block of the machine block. -/
def label (s : Site) : Label := .mbb s.block

/-- `m2b`: one IR block for each machine block of the function. -/
def m2b (s : Site) (b : BlockId) : Lift Label :=
  if b < s.numBlocks then .ok (.mbb b)
  else .error (.invalidArgument "Attempt to get Basic Block for unknown MBB")

def prev (s : Site) : Option MachineInstr := if s.idx = 0 then none else s.mbb[s.idx - 1]?

def next (s : Site) : Option MachineInstr := s.mbb[s.idx + 1]?

end Site

namespace Context

def rmap (cx : Context W) : Reg2Vals := registerMap cx.stats

def save (cx : Context W) : List Inst := saveRegisters cx.rmap cx.stats

def reload (cx : Context W) : List Inst := loadRegisters cx.rmap cx.stats

def stackPointer? (cx : Context W) : Option Register :=
  findRegisterByName cx.tm cx.instrs.stackPointer

end Context

def noStackPointer (cx : Context W) : LiftError :=
  .runtimeError ("Could not find stack pointer under the name \"" ++ cx.instrs.stackPointer ++ "\"")

def getStackPointer (cx : Context W) : Lift Register :=
  match cx.stackPointer? with
  | some reg => .ok reg
  | none => .error (noStackPointer cx)

def getRegisterClassFor (cx : Context W) (reg : Register) : Lift RegisterClass :=
  match cx.stats.getRegisterClassFor reg with
  | some rclass => .ok rclass
  | none => .error (.invalidArgument "Unknown register encountered")

/-- `rmap.at(reg)`. -/
def regAddr (cx : Context W) (reg : Register) : Lift Cell :=
  match cx.rmap.find reg with
  | some addr => .ok addr
  | none => .error .outOfRange

def findFunction (cx : Context W) (minst : MachineInstr) : Lift (InstrFunction W) :=
  match cx.instrs.getFunction minst.desc.name with
  | some f => .ok f
  | none => .error (.runtimeError
      ("Could not find \"" ++ minst.desc.name ++ "\" in module: " ++ cx.tm.printInstr minst))

/-- The emitted load, if any, and the value; an implicit definition has none. -/
def operandToValue (cx : Context W) (id : ValueId) : MachineOperand → Lift (List Inst × Option Value)
  | .reg r isDef isImplicit =>
    match cx.instrs.constReg? cx.tm r with
    | some c => .ok ([], some (.const (.ofInt 64 c.value)))
    | none =>
      if isDef && isImplicit then .ok ([], none)
      else if isDef then .error .assertion
      else do
        let rclass ← getRegisterClassFor cx r
        let addr ← regAddr cx r
        .ok ([.load id rclass.bitsize (.cell addr)], some (.ssa id))
  | .imm val => .ok ([], some (.const (.ofInt 64 val)))
  | _ => .error (.runtimeError "Unsupported operand type")

def operandsToValues (cx : Context W) (s : Site) :
    List MachineOperand → Nat → Lift (List Inst × List (Option Value))
  | [], _ => .ok ([], [])
  | op :: rest, k => do
    let (code, val) ← operandToValue cx (.operand s.block s.idx k) op
    let (codes, vals) ← operandsToValues cx s rest (k + 1)
    .ok (code ++ codes, val :: vals)

/-- `CreateCall` needs every argument. -/
def requireArgs : List (Option Value) → Lift (List Value)
  | [] => .ok []
  | none :: _ => .error .assertion
  | some v :: rest => do
    let vs ← requireArgs rest
    .ok (v :: vs)

def generateJump (s : Site) (minst : MachineInstr) (st : Builder) : Lift Builder :=
  if s.prev.any MachineInstr.isConditionalBranch then .ok st
  else match minst.mbbOperand with
    | none => .error .assertion
    | some mbb => do
      let target ← s.m2b mbb
      .ok (st.emit [.br target])

def getIfTrueBlock (s : Site) (minst : MachineInstr) : Lift Label :=
  match (minst.operands[2]?).bind MachineOperand.mbb? with
  | some b => s.m2b b
  | none => .error .assertion

def getIfFalseBlock (s : Site) (minst : MachineInstr) : Lift Label :=
  if minst.operands.length < 2 then .error .assertion
  else match s.next with
    | some next =>
      if next.isUnconditionalBranch then
        match (next.operands[0]?).bind MachineOperand.mbb? with
        | some b => s.m2b b
        | none => .error .assertion
      else .ok (.split s.block s.idx)
    | none => s.m2b (s.block + 1)

def generateBranch (cx : Context W) (s : Site) (minst : MachineInstr) (st : Builder) :
    Lift Builder := do
  let _ ← findFunction cx minst
  let (loads, vals) ← operandsToValues cx s (minst.uses.filter (!·.isMBB)) 0
  let args ← requireArgs vals
  let cond := ValueId.result s.block s.idx
  let ifTrue ← getIfTrueBlock s minst
  let ifFalse ← getIfFalseBlock s minst
  let st := (st.insert s.label loads).emit
    [.callInstr cond minst.desc.name args, .condBr (.ssa cond) ifTrue ifFalse]
  .ok { st with cur := ifFalse }

def generateReturn (st : Builder) : Lift Builder := .ok (st.emit [.retVoid])

/-- Only the first of the operand values is passed to the lookup. -/
def generateIndirectBranch (cx : Context W) (s : Site) (minst : MachineInstr) (st : Builder) :
    Lift Builder := do
  let (loads, vals) ← operandsToValues cx s (minst.uses.filter (!·.isMBB)) 0
  match vals with
  | some arg :: _ =>
    let callee := ValueId.callee s.block s.idx
    .ok ((st.insert s.label loads).emit
      (.symtabLookup callee arg :: cx.save ++ .callPtr callee :: cx.reload))
  | _ => .error .assertion

def generateCall (cx : Context W) (minst : MachineInstr) (st : Builder) : Lift Builder :=
  match minst.globalOperand with
  | none => .error .assertion
  | some callee =>
    .ok (st.emit (cx.save ++ .call callee :: if cx.functionsNop then [] else cx.reload))

/-- The constants of `constant-registers`, keyed by register number. -/
def constRegsVals (cx : Context W) : List ConstantReg → Lift (List (Register × Nat))
  | [] => .ok []
  | r :: rest =>
    match findRegisterByName cx.tm r.name with
    | none => .error (.runtimeError
        ("Could not find constant register under the name \"" ++ r.name ++ "\""))
    | some reg => do
      let vals ← constRegsVals cx rest
      .ok ((reg, r.value) :: vals)

def writeValueToRegister (cx : Context W) (val : Value) (reg : Register) : Lift (List Inst) := do
  let addr ← regAddr cx reg
  let vals ← constRegsVals cx cx.instrs.constRegs
  let rclass ← getRegisterClassFor cx reg
  match cx.instrs.constReg? cx.tm reg with
  | some _ =>
    match vals.lookup reg with
    | some c => .ok [.store (.const (.ofInt rclass.bitsize c)) (.cell addr)]
    | none => .error .outOfRange
  | none => .ok [.store val (.cell addr)]

def writeDefs (cx : Context W) (val : Value) : List MachineOperand → Lift (List Inst)
  | [] => .ok []
  | .reg r _ _ :: rest => do
    let code ← writeValueToRegister cx val r
    let codes ← writeDefs cx val rest
    .ok (code ++ codes)
  | _ :: _ => .error (.runtimeError "Only register operands are supported")

def readRegisterValue (cx : Context W) (id : ValueId) (reg : Register) : Lift (List Inst) := do
  let addr ← regAddr cx reg
  let rclass ← getRegisterClassFor cx reg
  .ok [.load id rclass.bitsize (.cell addr)]

/-- The offset a stack access adds to the stack pointer, in slots. C++ division
truncates towards zero. -/
def slotOffset (minst : MachineInstr) (regBytes : Nat) : Int :=
  match minst.immOperand with
  | none => 0
  | some imm => (-imm).tdiv regBytes

/-- The store of a loaded value into the destination, not routed through
`write_value_to_register`. -/
def storeResult (cx : Context W) (minst : MachineInstr) (val : Value) : Lift (List Inst) :=
  match minst.defs with
  | [] => .ok []
  | .reg r _ _ :: _ => do
    let addr ← regAddr cx r
    .ok [.store val (.cell addr)]
  | _ => .error .assertion

def generateLoadStoreFromStack (cx : Context W) (s : Site) (minst : MachineInstr) (st : Builder) :
    Lift Builder := do
  let spReg ← getStackPointer cx
  let rclass ← getRegisterClassFor cx spReg
  let offset := APInt.ofInt 64 (slotOffset minst (rclass.bitsize / 8))
  let sp := ValueId.sp s.block s.idx
  let readSp ← readRegisterValue cx sp spReg
  let index := ValueId.index s.block s.idx
  let st := st.emit (readSp ++ [.add index (.ssa sp) (.const offset)])
  if minst.desc.mayLoad then
    if minst.desc.mayStore then
      .error (.runtimeError
        "Unsupported stack manipulation. Instruction can both load and store")
    else
      let f ← findFunction cx minst
      let inserted := ValueId.result s.block s.idx
      let write ← storeResult cx minst (.ssa inserted)
      .ok (st.emit (.load inserted f.ret (.stack (.ssa index)) :: write))
  else
    match minst.uses with
    | [op, _, _] => do
      let (load, val) ← operandToValue cx (.operand s.block s.idx 0) op
      let args ← requireArgs [val]
      match args with
      | [value] =>
        -- a store has no result, so a definition would be given a value that does not exist
        let write ← storeResult cx minst (.ssa (.result s.block s.idx))
        .ok ((st.insert s.label load).emit (.store value (.stack (.ssa index)) :: write))
      | _ => .error .assertion
    | _ => .error .assertion

/-- The operand as the instruction function receives it: immediates equal to the
first one are turned into slots. -/
def slotOperand (imm : Int) : MachineOperand → MachineOperand
  | .imm val => if val = imm then .imm ((-val).tdiv 8) else .imm val
  | op => op

def generateStackPointerModification (cx : Context W) (s : Site) (minst : MachineInstr)
    (st : Builder) : Lift Builder :=
  match minst.immOperand with
  | none => .error (.runtimeError
      ("SP is expected to be used only as a stack pointer: \"" ++ cx.tm.printInstr minst ++ "\""))
  | some imm => do
    let (loads, vals) ← operandsToValues cx s (minst.uses.map (slotOperand imm)) 0
    let args ← requireArgs vals
    let result := ValueId.result s.block s.idx
    let writes ← writeDefs cx (.ssa result) minst.defs
    .ok ((st.insert s.label loads).emit (.callInstr result minst.desc.name args :: writes))

/-- `cast_value_to` on each argument; `views::zip` drops what has no partner. -/
def castArgs (s : Site) : List Value → List Nat → Nat → List Inst × List Value
  | arg :: args, ty :: tys, k =>
    let (code, vals) := castArgs s args tys (k + 1)
    let id := ValueId.cast s.block s.idx k
    (.sextOrTrunc id arg ty :: code, .ssa id :: vals)
  | _, _, _ => ([], [])

/-- The program counter, passed as the last argument of a relative instruction. -/
def pcArgument (cx : Context W) (minst : MachineInstr) (addr : Option (BitVec 64)) :
    Lift (List Value) :=
  if isPcRelative cx minst then
    match addr with
    | none => .error (.runtimeError ("Program Counter relative instruction encountered " ++
        "but no address information is available"))
    | some pc => .ok [.const ⟨64, pc⟩]
  else .ok []

def eraseDefs (sptrack : StackPointerTracker) (minst : MachineInstr) : StackPointerTracker :=
  (minst.defs.filterMap MachineOperand.reg?).foldl (fun t r => t.erase r) sptrack

def generateGeneric (cx : Context W) (s : Site) (minst : MachineInstr)
    (addr : Option (BitVec 64)) (st : Builder) : Lift Builder := do
  let f ← findFunction cx minst
  let (loads, vals) ← operandsToValues cx s (minst.uses.filter MachineOperand.isArgument) 0
  let args ← requireArgs vals
  let pc ← pcArgument cx minst addr
  let (casts, casted) := castArgs s (args ++ pc) f.params 0
  let result := ValueId.result s.block s.idx
  let writes ← writeDefs cx (.ssa result) minst.defs
  let st := (st.insert s.label loads).emit
    (casts ++ .callInstr result minst.desc.name casted :: writes)
  .ok { st with sptrack := eraseDefs st.sptrack minst }

def addDef (sptrack : StackPointerTracker) (minst : MachineInstr) : StackPointerTracker :=
  match minst.defs with
  | .reg r _ _ :: _ => insert r sptrack
  | _ => sptrack

def generateInstruction (cx : Context W) (s : Site) (addr : Option (BitVec 64))
    (minst : MachineInstr) (st : Builder) : Lift Builder :=
  if isReturn cx minst then generateReturn st
  else if isIndirectBranch cx minst then generateIndirectBranch cx s minst st
  else if isBranch minst then
    if !minst.isConditionalBranch then generateJump s minst st
    else generateBranch cx s minst st
  else if isCall minst then generateCall cx minst st
  else if isStackManipulation minst st.sptrack then generateLoadStoreFromStack cx s minst st
  else do
    -- the checks shared by the last two paths come before either emits anything
    let _ ← pcArgument cx minst addr
    let _ ← findFunction cx minst
    if definesRegister minst && usesStackPointer minst st.sptrack then
      generateStackPointerModification cx s minst { st with sptrack := addDef st.sptrack minst }
    else generateGeneric cx s minst addr st

/-- Addresses of the instructions of a block, when the input is an ELF file. -/
abbrev BlockAddresses := Option (List (BitVec 64))

def instrAddress (addrs : BlockAddresses) (idx : Nat) : Lift (Option (BitVec 64)) :=
  match addrs with
  | none => .ok none
  | some as =>
    match as[idx]? with
    | some a => .ok (some a)
    | none => .error .outOfRange

/-- The instruction loop of `fill_ir_for_bb`, from instruction `s.idx` on. -/
def fillInstrs (cx : Context W) (s : Site) (addrs : BlockAddresses) :
    List MachineInstr → Builder → Lift Builder
  | [], st => .ok st
  | minst :: rest, st => do
    let addr ← instrAddress addrs s.idx
    let st ← generateInstruction cx s addr minst st
    fillInstrs cx { s with idx := s.idx + 1 } addrs rest st

/-- The terminator `fill_ir_for_bb` adds behind the last instruction. -/
def fillTerminator (cx : Context W) (s : Site) (st : Builder) : Lift Builder :=
  match s.mbb.getLast? with
  | none => .error .assertion
  | some last =>
    if !isBranch last && !isReturn cx last then
      if isCall last then .ok (st.emit [.retVoid])
      else do
        let succ ← s.m2b (s.block + 1)
        .ok (st.emit [.br succ])
    else .ok st

def fillIrForBb (cx : Context W) (numBlocks : Nat) (b : BlockId) (mbb : MachineBasicBlock)
    (addrs : BlockAddresses) (st : Builder) : Lift Builder :=
  if mbb.isEmpty then .error .assertion
  else do
    let s : Site := ⟨numBlocks, b, mbb, 0⟩
    let st ← fillInstrs cx s addrs mbb { st with cur := s.label }
    fillTerminator cx s st

/-- Addresses of a function, block by block. -/
abbrev FunctionAddresses := Option (List (List (BitVec 64)))

def blockAddresses (addrs : FunctionAddresses) (b : BlockId) : Lift BlockAddresses :=
  match addrs with
  | none => .ok none
  | some bs =>
    match bs[b]? with
    | some as => .ok (some as)
    | none => .error .outOfRange

/-- The block loop of `generate_function`, from block `b` on. -/
def fillBlocks (cx : Context W) (numBlocks : Nat) (addrs : FunctionAddresses) :
    List MachineBasicBlock → BlockId → Builder → Lift Builder
  | [], _, st => .ok st
  | mbb :: rest, b, st => do
    let as ← blockAddresses addrs b
    let st ← fillIrForBb cx numBlocks b mbb as st
    fillBlocks cx numBlocks addrs rest (b + 1) st

/-- The builder when `generate_function` starts on the first block. -/
def initialBuilder (cx : Context W) (spReg : Register) : Builder :=
  ⟨Function.update (fun _ => []) entryLabel (materializeRegisters cx.stats), entryLabel, {spReg}⟩

/-- The body of the lifted function; a function without blocks stays a declaration. -/
def generateFunction (cx : Context W) (mf : MachineFunction) (addrs : FunctionAddresses) :
    Lift (Option (Label → List Inst)) := do
  let spReg ← getStackPointer cx
  let st ← fillBlocks cx mf.blocks.length addrs mf.blocks 0 (initialBuilder cx spReg)
  if mf.blocks.isEmpty then .ok none
  else .ok (some fun l => saveRegistersBeforeReturn cx.save (st.blocks l))

end Bleach
