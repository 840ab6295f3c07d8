import Bleach.Base.YamlNode
import Bleach.Lifter.RegisterStats

/-! Reading and writing configs. What is written has the functions of the instructions only, so
that it has no stack pointer when it is read again. -/
namespace Bleach.ConfigText
open YamlNode
variable {M : Type}

/-- What is used of yaml-cpp, and LLVM's printer and reader of modules. -/
structure Libraries (M : Type) extends Conversions where
  load : String → Except NodeError Node
  emit : Node → String
  print : M → String
  /-- The diagnostic names the program it is printed for. -/
  parseIR : String → Except (String → String) M

/-- The exceptions of both directions. -/
inductive ConfigError where
  | yaml (err : NodeError)
  | runtimeError (what : String)
  | invalidArgument (what : String)
  deriving DecidableEq

instance : MonadLift (Except NodeError) (Except ConfigError) := ⟨Except.mapError .yaml⟩

structure Instruction (M : Type) where
  name : String
  irModule : Option M := none
  retinfo : Option (List String) := none
  isPcRelative : Bool := false
  isIndirectBranch : Bool := false

structure InstrImpl (M : Type) where
  instrs : List (Instruction M)
  stackPointer : String
  constRegs : List ConstantReg
  regclasses : List Regclass
  subregs : Subregisters

structure NormalizedInstruction where
  name : String := ""
  functionStr : String := ""
  retinfo : Option (List String) := none
  isPcRelative : Bool := false
  isIndirectBranch : Bool := false

variable (lib : Libraries M)

/-- The converting constructor of `normalized_instruction`. -/
def normalizeInstruction (instr : Instruction M) : Except ConfigError NormalizedInstruction :=
  match instr.irModule with
  | none => .error (.runtimeError "Attempt to serialize instr with no impl")
  | some irModule => .ok
      { name := instr.name, functionStr := lib.print irModule, retinfo := instr.retinfo,
        isIndirectBranch := instr.isIndirectBranch }

def encode (instr : NormalizedInstruction) : Node :=
  .map [(.scalar instr.name, .map [(.scalar "func", .scalar instr.functionStr)])]

/-- The tree whose events the emitter is given. -/
def savedTree (instrs : InstrImpl M) : Except ConfigError Node := do
  let nodes ← instrs.instrs.mapM fun i => do
    let norm ← normalizeInstruction lib i
    return encode norm
  return .map [(.scalar "instructions", .sequence nodes)]

def saveToYaml (instrs : InstrImpl M) : Except ConfigError String := do
  let tree ← savedTree lib instrs
  return lib.emit tree

/-- The body of the loop over the one pair of an entry. -/
def decodePair (instr : NormalizedInstruction) (inst : Visited) :
    Except ConfigError NormalizedInstruction := do
  let name ← lib.asString (← inst.first)
  let instr := { instr with name := name }
  let func ← (← inst.second).get "func"
  let instr ← if func.isDefined && !func.isNull then do
      let functionStr ← lib.asString func
      pure { instr with functionStr := functionStr }
    else pure instr
  let isIndbr ← (← inst.second).get "is_indirect_branch"
  let instr ← if isIndbr.isDefined then do
      let isIndirectBranch ← lib.asBool isIndbr
      pure { instr with isIndirectBranch := isIndirectBranch }
    else pure instr
  let pcrel ← (← inst.second).get "pcrelative"
  let instr ← if pcrel.isDefined then do
      let isPcRelative ← lib.asBool pcrel
      pure { instr with isPcRelative := isPcRelative }
    else pure instr
  let retinfo ← (← inst.second).get "is_return"
  if retinfo.isDefined then
    if retinfo.isSequence then do
      let patterns ← retinfo.visited.mapM fun rx => do
        let node ← rx.self
        lib.asString node
      pure { instr with retinfo := some patterns }
    else .error (.runtimeError "is_return should be a sequence")
  else pure instr

def decode (node : Node) : Except ConfigError NormalizedInstruction :=
  if node.size ≠ 1 then .error (.runtimeError "Instruction entry must have only 1 key")
  else node.visited.foldlM (decodePair lib) {}

def denormalizeInstruction (norm : NormalizedInstruction) : Except ConfigError (Instruction M) :=
  let instr : Instruction M :=
    { name := norm.name, retinfo := norm.retinfo, isPcRelative := norm.isPcRelative,
      isIndirectBranch := norm.isIndirectBranch }
  if norm.functionStr.isEmpty then .ok instr
  else
    match lib.parseIR norm.functionStr with
    | .ok irModule => .ok { instr with irModule := some irModule }
    | .error err =>
      .error (.runtimeError ("Failed to parse LLVM IR: " ++ err ("for \"" ++ norm.name ++ "\"")))

/-- `try_emplace` on `subregisters`, which must be new. -/
def addSubregister (subregs : Subregisters) (name aliasto : String) : Except ConfigError Subregisters :=
  if taken : name ∈ subregs.entries.map Prod.fst then
    .error (.invalidArgument "duplicated subregister class encountered")
  else
    .ok ⟨subregs.entries ++ [(name, aliasto)], by
      rw [List.map_append, List.map_singleton]
      exact subregs.unique.append (List.nodup_singleton _) (by simpa using taken)⟩

/-- Both sides of a pair as strings. -/
def readPair (node : Visited) : Except ConfigError (String × String) := do
  let name ← lib.asString (← node.first)
  let value ← lib.asString (← node.second)
  return (name, value)

def loadFromYaml (yaml : String) : Except ConfigError (InstrImpl M) := do
  let conf ← lib.load yaml
  let stackPointer ← lib.asString (← conf.get "stack-pointer")
  let constRegs ← (← conf.get "constant-registers").visited.mapM fun node => do
    let name ← lib.asString (← node.first)
    let value ← lib.asUInt64 (← node.second)
    return ConstantReg.mk name value
  let regclasses ← (← conf.get "register-classes").visited.mapM fun node => do
    let (name, regex) ← readPair lib node
    return Regclass.mk name regex
  let subregs ← (← conf.get "subregisters").visited.foldlM (fun subregs node => do
    let (name, aliasto) ← readPair lib node
    addSubregister subregs name aliasto) ⟨[], List.nodup_nil⟩
  let instrs ← (← conf.get "instructions").visited.mapM fun node => do
    let norm ← decode lib (← node.self)
    denormalizeInstruction lib norm
  return { instrs, stackPointer, constRegs, regclasses, subregs }

variable {lib : Libraries M} {instrs : InstrImpl M} {i : Instruction M} {tree : Node} {text : String}

/-- An entry with its module as text. -/
def normalized (lib : Libraries M) (i : Instruction M) : NormalizedInstruction where
  name := i.name
  functionStr := i.irModule.elim "" lib.print
  retinfo := i.retinfo
  isIndirectBranch := i.isIndirectBranch

theorem normalize_ok {norm : NormalizedInstruction} :
    normalizeInstruction lib i = .ok norm ↔ i.irModule.isSome = true ∧ norm = normalized lib i := by
  unfold normalizeInstruction normalized
  cases i.irModule with
  | none => simp
  | some irModule => simp [eq_comm]

theorem savedTree_ok : savedTree lib instrs = .ok tree ↔ (∀ i ∈ instrs.instrs, i.irModule.isSome = true) ∧
    tree = .map [(.scalar "instructions",
      .sequence (instrs.instrs.map fun i => encode (normalized lib i)))] := by
  have each : ∀ i ∈ instrs.instrs, ∀ node, (do
      let norm ← normalizeInstruction lib i
      return encode norm) = (.ok node : Except ConfigError Node) ↔
        i.irModule.isSome = true ∧ node = encode (normalized lib i) := by
    intro i _ node
    rw [bind_ok]
    constructor
    · rintro ⟨norm, done, same⟩
      obtain ⟨some, rfl⟩ := normalize_ok.mp done
      exact ⟨some, (Except.ok.inj same).symm⟩
    · rintro ⟨some, rfl⟩
      exact ⟨_, normalize_ok.mpr ⟨some, rfl⟩, rfl⟩
  unfold savedTree
  rw [bind_ok]
  constructor
  · rintro ⟨nodes, done, same⟩
    obtain ⟨all, rfl⟩ := (mapM_ok_map each).mp done
    exact ⟨all, (Except.ok.inj same).symm⟩
  · rintro ⟨all, rfl⟩
    exact ⟨_, (mapM_ok_map each).mpr ⟨all, rfl⟩, rfl⟩

theorem saveToYaml_ok : saveToYaml lib instrs = .ok text ↔ ∃ tree, savedTree lib instrs = .ok tree ∧
    text = lib.emit tree := by
  unfold saveToYaml
  rw [bind_ok]
  refine exists_congr fun tree => and_congr_right fun _ => ?_
  exact ⟨fun same => (Except.ok.inj same).symm, fun same => congrArg _ same.symm⟩

/-- A document with one key has no stack pointer. -/
theorem load_saved {node : Node} (loads : lib.load text = .ok (.map [(.scalar "instructions", node)])) :
    loadFromYaml lib text = .error (.yaml .badConversion) := by
  have missing : (Node.map [(.scalar "instructions", node)]).get "stack-pointer" = .ok .undefined := by
    rw [Node.get_later (by decide), Node.get_empty]
  simp only [loadFromYaml, loads, bind, Except.bind, liftM, monadLift, MonadLift.monadLift, Except.mapError,
    missing, Conversions.asString]

/-- The same fields, the classes of subregisters in any order. -/
structure Same (a b : InstrImpl M) : Prop where
  instrs : a.instrs = b.instrs
  stackPointer : a.stackPointer = b.stackPointer
  constRegs : a.constRegs = b.constRegs
  regclasses : a.regclasses = b.regclasses
  subregs : a.subregs.entries.Perm b.subregs.entries

/-- What is saved can be loaded, and is the same. -/
def Reloads (lib : Libraries M) (instrs : InstrImpl M) : Prop :=
  ∃ text loaded, saveToYaml lib instrs = .ok text ∧ loadFromYaml lib text = .ok loaded ∧ Same loaded instrs

/-- Nothing that is saved can be loaded: either an entry has no module, or what is saved has no
stack pointer. -/
theorem dump_never_reloads (instrs : InstrImpl M)
    (kept : ∀ tree, savedTree lib instrs = .ok tree → lib.load (lib.emit tree) = .ok tree) :
    ¬Reloads lib instrs ∧
    ((∃ text, saveToYaml lib instrs = .ok text) ↔ ∀ i ∈ instrs.instrs, i.irModule.isSome = true) ∧
    ∀ text, saveToYaml lib instrs = .ok text → loadFromYaml lib text = .error (.yaml .badConversion) := by
  have fails : ∀ text, saveToYaml lib instrs = .ok text →
      loadFromYaml lib text = .error (.yaml .badConversion) := by
    intro text saved
    obtain ⟨tree, done, rfl⟩ := saveToYaml_ok.mp saved
    have loads := kept tree done
    obtain ⟨-, rfl⟩ := savedTree_ok.mp done
    exact load_saved loads
  refine ⟨?_, ?_, fails⟩
  · rintro ⟨text, loaded, saved, loads, -⟩
    cases (fails text saved).symm.trans loads
  · constructor
    · rintro ⟨text, saved⟩
      obtain ⟨tree, done, -⟩ := saveToYaml_ok.mp saved
      exact (savedTree_ok.mp done).1
    · intro all
      exact ⟨_, saveToYaml_ok.mpr ⟨_, savedTree_ok.mpr ⟨all, rfl⟩, rfl⟩⟩

/-- What becomes of one entry. -/
def reloadEntry (lib : Libraries M) (i : Instruction M) : Except ConfigError (Instruction M) := do
  let norm ← normalizeInstruction lib i
  let norm ← decode lib (encode norm)
  denormalizeInstruction lib norm

theorem decode_encode (norm : NormalizedInstruction) :
    decode lib (encode norm) = .ok { name := norm.name, functionStr := norm.functionStr } := by
  rfl

/-- An entry comes back if it has a module, and no patterns and flags that could be lost. -/
theorem entry_restored_iff (i : Instruction M) (printed : ∀ irModule, i.irModule = some irModule →
    (lib.print irModule).isEmpty = false ∧ lib.parseIR (lib.print irModule) = .ok irModule) :
    reloadEntry lib i = .ok i ↔ i.irModule.isSome = true ∧ i.retinfo = none ∧ i.isPcRelative = false ∧
      i.isIndirectBranch = false := by
  obtain ⟨name, irModule, retinfo, isPcRelative, isIndirectBranch⟩ := i
  unfold reloadEntry
  cases irModule with
  | none => simp [normalizeInstruction, bind, Except.bind]
  | some irModule =>
    obtain ⟨nonempty, parses⟩ := printed irModule rfl
    have reloaded : (do
        let norm ← normalizeInstruction lib ⟨name, some irModule, retinfo, isPcRelative, isIndirectBranch⟩
        let norm ← decode lib (encode norm)
        denormalizeInstruction lib norm) = .ok ⟨name, some irModule, none, false, false⟩ := by
      refine bind_ok.mpr ⟨_, normalize_ok.mpr ⟨rfl, rfl⟩, bind_ok.mpr ⟨_, decode_encode _, ?_⟩⟩
      simp [denormalizeInstruction, normalized, nonempty, parses]
    rw [reloaded]
    simp [eq_comm]

def addwText : String := "declare i64 @ADDW(i64, i64)"

def configText : String := "stack-pointer: X2\ninstructions:\n  - ADDW:\n      func: " ++ addwText

def dumpText : String := "instructions:\n  - ADDW:\n      func: " ++ addwText

def entryTree : Node := .sequence [.map [(.scalar "ADDW", .map [(.scalar "func", .scalar addwText)])]]

/-- Two documents, and modules as their text. -/
def small : Libraries String where
  nullString := none
  bool
    | "true" => some true
    | "false" => some false
    | _ => none
  uint64 := String.toNat?
  load text :=
    if text = configText then
      .ok (.map [(.scalar "stack-pointer", .scalar "X2"), (.scalar "instructions", entryTree)])
    else if text = dumpText then .ok (.map [(.scalar "instructions", entryTree)])
    else .error (.parser text)
  emit
    | .map [(.scalar key, .sequence [.map [(.scalar name, .map [(.scalar field, .scalar text)])]])] =>
      key ++ ":\n  - " ++ name ++ ":\n      " ++ field ++ ": " ++ text
    | _ => ""
  print := id
  parseIR text := .ok text

def addwImpl : InstrImpl String where
  instrs := [{ name := "ADDW", irModule := some addwText }]
  stackPointer := "X2"
  constRegs := []
  regclasses := []
  subregs := ⟨[], List.nodup_nil⟩

theorem dump_not_loaded : loadFromYaml small configText = .ok addwImpl ∧
    saveToYaml small addwImpl = .ok dumpText ∧
    loadFromYaml small dumpText = .error (.yaml .badConversion) ∧ ¬Reloads small addwImpl := by
  have saved : saveToYaml small addwImpl = .ok dumpText := rfl
  have loads : small.load dumpText = .ok (.map [(.scalar "instructions", entryTree)]) := rfl
  have fails : loadFromYaml small dumpText = .error (.yaml .badConversion) := load_saved loads
  refine ⟨rfl, saved, fails, ?_⟩
  rintro ⟨text, loaded, saved', loads, -⟩
  obtain rfl := Except.ok.inj (saved.symm.trans saved')
  cases fails.symm.trans loads

theorem addw_never_reloads : ¬Reloads small addwImpl ∧ ∃ text, saveToYaml small addwImpl = .ok text := by
  have kept : ∀ tree, savedTree small addwImpl = .ok tree → small.load (small.emit tree) = .ok tree := by
    intro tree done
    obtain ⟨-, rfl⟩ := savedTree_ok.mp done
    rfl
  obtain ⟨never, saves, -⟩ := dump_never_reloads addwImpl kept
  exact ⟨never, saves.mpr (by simp [addwImpl])⟩

end Bleach.ConfigText
