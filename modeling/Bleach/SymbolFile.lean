import Bleach.Base.HexText
import Bleach.ConfigText
import Bleach.RecordPairing
import Bleach.RiscV
import Bleach.SymbolTable

/-! The file that carries the symbol table from `mctomir` to `llvm-bleach`. Read again it is the table
that was written, and lifted code finds every function at its start with it. -/
namespace Bleach.SymbolFile
open YamlNode HexText
open ConfigText (Libraries)
variable {L : Type}

/-- `llvm::utohexstr` -/
def utohexstr (x : BitVec 64) : List Char := if x = 0 then [digit 0] else digitsFrom 16 x.toNat []

/-- An address as it is written. -/
def addressText (x : BitVec 64) : String := String.ofList ('0' :: 'x' :: utohexstr x)

/-- `convert<function_symbol>::encode` -/
def encode (func : FunctionSymbol) : Node :=
  .map [(.scalar "name", .scalar func.name), (.scalar "start", .scalar (addressText func.start)),
    (.scalar "end", .scalar (addressText func.end))]

/-- The tree whose events the emitter is given. -/
def savedTree (info : FileInfo) : Node := .sequence (info.map encode)

def saveToYaml (lib : Libraries L) (info : FileInfo) : String := lib.emit (savedTree info)

/-- One item of the file. -/
def readSymbol (conv : Conversions) (symb : Visited) : Except NodeError FunctionSymbol := do
  let node ← symb.self
  let name ← conv.asString (← node.get "name")
  let start ← conv.asUInt64 (← node.get "start")
  let «end» ← conv.asUInt64 (← node.get "end")
  return ⟨name, .ofNat 64 start, .ofNat 64 «end»⟩

def loadFileInfoFromYaml (lib : Libraries L) (yaml : String) : Except NodeError FileInfo := do
  let symbols ← lib.load yaml
  symbols.visited.mapM (readSymbol lib.toConversions)

/-- Hexadecimal numbers that fit are read as what they are. -/
def ReadsHex (conv : Conversions) : Prop :=
  ∀ digits n, digits ≠ [] → valueFrom 0 digits = some n → n < 2 ^ 64 →
    conv.uint64 (String.ofList ('0' :: 'x' :: digits)) = some n

variable {lib : Libraries L} {conv : Conversions}

theorem utohexstr_value (x : BitVec 64) : utohexstr x ≠ [] ∧ valueFrom 0 (utohexstr x) = some x.toNat := by
  unfold utohexstr
  split
  · next zero =>
    subst zero
    decide
  · next nonzero =>
    have positive : x.toNat ≠ 0 := fun zero => nonzero (BitVec.eq_of_toNat_eq zero)
    constructor
    · rw [digitsFrom, if_neg positive]
      exact digitsFrom_ne_nil (List.cons_ne_nil _ _)
    · rw [valueFrom_digitsFrom x.isLt]
      rfl

theorem asUInt64_addressText (reads : ReadsHex conv) (x : BitVec 64) :
    conv.asUInt64 (.scalar (addressText x)) = .ok x.toNat := by
  obtain ⟨nonempty, value⟩ := utohexstr_value x
  have read : conv.uint64 (addressText x) = some x.toNat := reads _ _ nonempty value x.isLt
  rw [Conversions.asUInt64, read]
  rfl

theorem readSymbol_encode (reads : ReadsHex conv) (func : FunctionSymbol) :
    readSymbol conv (.item (encode func)) = .ok func := by
  have name : (encode func).get "name" = .ok (.scalar func.name) := rfl
  have start : (encode func).get "start" = .ok (.scalar (addressText func.start)) := rfl
  have last : (encode func).get "end" = .ok (.scalar (addressText func.end)) := rfl
  have item : (Visited.item (encode func)).self = .ok (encode func) := rfl
  have text : conv.asString (.scalar func.name) = .ok func.name := rfl
  simp only [readSymbol, item, name, start, last, text, asUInt64_addressText reads, bind, Except.bind,
    BitVec.ofNat_toNat, BitVec.setWidth_eq]
  rfl

/-- What is written is read as it was. -/
theorem load_saved (reads : ReadsHex lib.toConversions) {info : FileInfo} {text : String}
    (loads : lib.load text = .ok (savedTree info)) : loadFileInfoFromYaml lib text = .ok info := by
  have items : (savedTree info).visited = info.map fun func => .item (encode func) := by
    rw [savedTree, Node.visited, List.map_map]
    rfl
  refine bind_ok.mpr ⟨savedTree info, loads, ?_⟩
  rw [items, mapM_ok, List.forall₂_map_left_iff, List.forall₂_same]
  exact fun func _ => readSymbol_encode reads func

variable {W : Type} {cx : Context W} {mfs : List MachineFunction} {records : List Mctomir.TranslatedFunction}

/-- Every function is registered. -/
theorem symtabAdds_exists {finfo : FileInfo} {funcs : List LiftedFunction} {f : FuncId}
    (known : ∀ func ∈ funcs, ∃ a, finfo.getStartOf func.name = .ok a) :
    ∃ adds, symtabAdds finfo funcs f = .ok adds := by
  induction funcs generalizing f with
  | nil => exact ⟨[], rfl⟩
  | cons func rest ih =>
    obtain ⟨⟨a, start⟩, others⟩ := List.forall_mem_cons.mp known
    obtain ⟨later, done⟩ := ih (f := f + 1) others
    unfold symtabAdds
    split
    · exact ⟨later, done⟩
    · exact ⟨later ++ [.symtabAdd a f], by simp [start, done, bind, Except.bind]⟩

theorem symbolTable_start (names : (records.map fun tr => tr.name).Nodup)
    (named : mfs.map MachineFunction.name = records.map fun tr => tr.name) {g : FuncId} {a : BitVec 64} :
    startOf mfs (symbolTable records) g = some a ↔ ∃ tr mf, records[g]? = some tr ∧ mfs[g]? = some mf ∧
      mf.blocks.isEmpty = false ∧ tr.start = a := by
  have same : (mfs[g]?).map MachineFunction.name = (records[g]?).map fun tr => tr.name := by
    simpa using congrArg (·[g]?) named
  rw [startOf_eq]
  constructor
  · rintro ⟨mf, found, nonempty, start⟩
    rw [found] at same
    obtain ⟨tr, found', same⟩ := Option.map_eq_some_iff.mp same.symm
    rw [← same, symbolTable_own names (List.mem_of_getElem? found')] at start
    exact ⟨tr, mf, found', found, nonempty, Except.ok.inj start⟩
  · rintro ⟨tr, mf, found', found, nonempty, rfl⟩
    rw [found, found'] at same
    have same : mf.name = tr.name := Option.some.inj same
    exact ⟨mf, found, nonempty, same ▸ symbolTable_own names (List.mem_of_getElem? found')⟩

/-- The next instruction registers a function. -/
def Registers {w : Nat → Nat} (c : Config w W) : Prop :=
  ∃ fr rest a g code, c.frames = fr :: rest ∧ fr.code = .symtabAdd a g :: code

/-- Between the tools the table goes through a file. If the names of the functions differ, and their
starts, lifting fails with the table that is read only where it fails without one. And wherever
lifted code is not about to register a function, the run-time table has every function with a body
at its start, and nothing else. -/
theorem symbolFile_resolves (reads : ReadsHex lib.toConversions)
    (kept : lib.load (saveToYaml lib (symbolTable records) ++ "\n") = .ok (savedTree (symbolTable records)))
    (names : (records.map fun tr => tr.name).Nodup) (starts : (records.map fun tr => tr.start).Nodup)
    (named : mfs.map MachineFunction.name = records.map fun tr => tr.name)
    (addrs : FuncId → FunctionAddresses) (stackSize : Nat) (liftedPrefix : String) :
    ∃ finfo, loadFileInfoFromYaml lib (saveToYaml lib (symbolTable records) ++ "\n") = .ok finfo ∧
      ((∃ M, bleachModule cx mfs addrs (some finfo) stackSize liftedPrefix = .ok M) ↔
        ∃ M, bleachModule cx mfs addrs none stackSize liftedPrefix = .ok M) ∧
      ∀ M, bleachModule cx mfs addrs (some finfo) stackSize liftedPrefix = .ok M → ∀ c, Called M c →
        ¬Registers c → ∀ a g, c.shared.symtab.lookup a = some g ↔
          ∃ tr mf, records[g]? = some tr ∧ mfs[g]? = some mf ∧ mf.blocks.isEmpty = false ∧ tr.start = a := by
  refine ⟨symbolTable records, load_saved reads kept, ?_, ?_⟩
  · rw [bleachModule_exists, bleachModule_exists]
    refine and_congr_right fun _ => exists_congr fun funcs => and_congr_right fun generated => ?_
    refine iff_of_true ?_ ⟨funcs, rfl⟩
    have known : ∀ func ∈ funcs, ∃ a, (symbolTable records).getStartOf func.name = .ok a := by
      intro func member
      obtain ⟨g, here⟩ := List.getElem?_of_mem member
      have same := (generateFunctions_ok generated g).1
      have same' : (mfs[g]?).map MachineFunction.name = (records[g]?).map fun tr => tr.name := by
        simpa using congrArg (·[g]?) named
      rw [here, same'] at same
      obtain ⟨tr, found, same⟩ := Option.map_eq_some_iff.mp same.symm
      exact ⟨tr.start, same ▸ symbolTable_own names (List.mem_of_getElem? found)⟩
    obtain ⟨adds, done⟩ := symtabAdds_exists (f := 0) known
    exact ⟨_, bind_ok.mpr ⟨adds, done, rfl⟩⟩
  · intro M module c called behind a g
    obtain ⟨funcs, adds, registered, lifted, -, same, bodies⟩ := lifted_of_bleachModule module
    have registered' := fun {a g} => registered_iff (a := a) (g := g) lifted registered same bodies
    have nodup : (mfs.map MachineFunction.name).Nodup := named ▸ names
    have distinct : ((symbolTable records).map FunctionSymbol.start).Nodup := by
      rw [symbolTable, List.map_map]
      exact starts
    have unique : ∀ {a g g'}, .symtabAdd a g ∈ adds → .symtabAdd a g' ∈ adds → g = g' := by
      intro a g g' here here'
      exact startOf_inj nodup distinct (registered'.mp here) (registered'.mp here')
    obtain ⟨-, sound, complete⟩ := tabled lifted unique called
    rw [← symbolTable_start names named, ← registered']
    refine ⟨sound a g, fun member => ?_⟩
    rcases complete with recorded | ⟨fr, before, i, after, later, alone, all, code, -⟩
    · exact recorded a g member
    · obtain ⟨a', g', rfl⟩ := lifted.adds i (by simp [all])
      exact absurd ⟨fr, [], a', g', after ++ later, alone, code⟩ behind

/-- Items of three scalars, and hexadecimal numbers. -/
def itemText : Node → String
  | .map [(.scalar key, .scalar a), (.scalar key', .scalar b), (.scalar key'', .scalar c)] =>
    "- " ++ key ++ ": " ++ a ++ "\n  " ++ key' ++ ": " ++ b ++ "\n  " ++ key'' ++ ": " ++ c
  | _ => ""

def twoRecords : List Mctomir.TranslatedFunction :=
  [{ name := "first", start := 0, «end» := 4, insts := [] },
    { name := "second", start := 256, «end» := 0x10c, insts := [] }]

def twoText : String := "- name: first\n  start: 0x0\n  end: 0x4\n- name: second\n  start: 0x100\n  end: 0x10C\n"

def twoLibraries : Libraries Unit where
  nullString := none
  bool _ := none
  uint64 text :=
    match text.toList with
    | '0' :: 'x' :: digits => if digits = [] then none else (valueFrom 0 digits).filter (· < 2 ^ 64)
    | _ => text.toNat?
  load text :=
    if text = twoText then .ok (savedTree (symbolTable twoRecords)) else .error (.parser text)
  emit
    | .sequence items => "\n".intercalate (items.map itemText)
    | _ => ""
  print _ := ""
  parseIR _ := .ok ()

theorem twoLibraries_reads : ReadsHex twoLibraries.toConversions := by
  intro digits n nonempty value bound
  have fits : decide (n < 2 ^ 64) = true := decide_eq_true bound
  simp only [twoLibraries, String.toList_ofList, if_neg nonempty, value, Option.filter, fits, if_true]

def twoFunctions : List MachineFunction := [⟨"first", [[RiscV.ret]]⟩, ⟨"second", [[RiscV.ret]]⟩]

/-- Behind a call of the second function its start is in the table. -/
theorem second_found : ∃ finfo M c,
    loadFileInfoFromYaml twoLibraries (saveToYaml twoLibraries (symbolTable twoRecords) ++ "\n") = .ok finfo ∧
    bleachModule RiscV.context twoFunctions (fun _ => none) (some finfo) 64 "" = .ok M ∧ Called M c ∧
    c.frames = [] ∧ c.shared.symtab.lookup 256 = some 1 := by
  obtain ⟨finfo, loaded, -, found⟩ := @symbolFile_resolves Unit twoLibraries RiscV.World RiscV.context
    twoFunctions twoRecords twoLibraries_reads rfl (by decide) (by decide) (by decide) (fun _ => none) 64 ""
  obtain rfl : symbolTable twoRecords = finfo :=
    Except.ok.inj ((load_saved twoLibraries_reads rfl).symm.trans loaded)
  let M := RiscV.module twoFunctions (some (symbolTable twoRecords))
  have module : bleachModule RiscV.context twoFunctions (fun _ => none) (some (symbolTable twoRecords)) 64 "" =
      .ok M := rfl
  obtain ⟨blocks, body⟩ : ∃ blocks, M.body 1 = some blocks := ⟨_, rfl⟩
  have ends : ((M.body 1).bind fun blocks => Transition.iterate M.step 33
      ⟨[M.entryFrame 1 blocks], RiscV.zeroed M.widths⟩).map (fun c => c.frames.isEmpty) = some true := by decide
  rw [body, Option.bind_some] at ends
  obtain ⟨c, path, returned⟩ := Option.map_eq_some_iff.mp ends
  have run : Transition.Reaches M.step ⟨[M.entryFrame 1 blocks], RiscV.zeroed M.widths⟩ c := ⟨33, path⟩
  have called : Called M c := run.invariant (P := Called M) (fun before next => .step before next)
    (.first body rfl)
  have nothing : c.frames = [] := List.isEmpty_iff.mp returned
  refine ⟨_, M, c, loaded, module, called, nothing, ?_⟩
  exact (found M module c called (by simp [Registers, nothing]) 256 1).mpr ⟨_, _, rfl, rfl, rfl, rfl⟩

end Bleach.SymbolFile
