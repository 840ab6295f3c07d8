import Bleach.Lifter.Module
import Bleach.SectionTable
import Bleach.Mctomir.Translator
import Mathlib.Data.List.Perm.Basic

/-! The names of a translated function: in its record and in the symbol table, of its
LLVM function, and of the clone that is lifted. Records and symbols are found again by
the name of the clone. -/
namespace Bleach
open Mctomir (DecodedFunction TranslatedFunction)

/-- LLVM makes a name unique by appending to it. -/
structure SuffixedNames extends UniqueNames where
  suffixed : ∀ taken name, ∃ suffix, unique taken name = name ++ suffix

variable (names : SuffixedNames)

/-- `process_disassembly` creates an LLVM function for every record, in the order of the
records; behind `taken`, the names already there. -/
def createFunctions : List String → List String → List String
  | [], _ => []
  | name :: rest, taken =>
    let created := names.unique taken name
    created :: createFunctions rest (created :: taken)

/-- The named functions of the module. Those of the config keep a name of their own
unless a translated function has it. -/
structure FunctionNames where
  functions : List String
  clones : List (FuncId × String) := []
  others : List String := []

def FunctionNames.taken (mod : FunctionNames) : List String :=
  mod.functions ++ (mod.clones.map Prod.snd ++ mod.others)

/-- The translated functions with the functions of the config linked in. -/
def loadFunctions (recorded linked : List String) : FunctionNames :=
  let functions := createFunctions names recorded []
  { functions := functions, others := linked.dedup.filter (· ∉ functions) }

/-- `generate_function_object`: the function is renamed, its clone gets the name it had. -/
def generateFunctionObject (mod : FunctionNames) (f : FuncId) : FunctionNames :=
  let name := (mod.functions[f]?).getD ""
  let others := { mod with functions := mod.functions.eraseIdx f }.taken
  let renamed := { mod with functions := mod.functions.set f (names.unique others (name ++ ".old")) }
  { renamed with clones := (f, names.unique renamed.taken name) :: renamed.clones }

/-- The target functions are cloned in the order of a set of pointers. -/
def cloneFunctions (mod : FunctionNames) (order : List FuncId) : FunctionNames :=
  order.foldl (generateFunctionObject names) mod

/-- The search of `bleach_module` for the record of a clone; `none` is the end of the list. -/
def selectRecord (records : List TranslatedFunction) (name : String) : Option FuncId :=
  records.findIdx? fun tr => tr.name = name

/-- The symbol table `mctomir` writes. -/
def symbolTable (records : List TranslatedFunction) : FileInfo :=
  records.map fun tr => ⟨tr.name, tr.start, tr.end⟩

/-- The addresses `generate_function` takes from a record. -/
def recordAddresses (tr : TranslatedFunction) : List (List (BitVec 64)) :=
  tr.blocks.map fun block => block.instrs.map Mctomir.TranslatedInst.address

/-- What is found under the names of the clones: for each function its own record, its
own addresses and its own start. -/
def PairedWithOwn (mod : FunctionNames) (records : List TranslatedFunction) : Prop :=
  ∀ f tr, records[f]? = some tr → ∃ clone, mod.clones.lookup f = some clone ∧
    selectRecord records clone = some f ∧
      ((selectRecord records clone).bind (records[·]?)).map recordAddresses = some (recordAddresses tr) ∧
        (symbolTable records).getStartOf clone = .ok tr.start

variable {names}

theorem createFunctions_length (recorded taken : List String) :
    (createFunctions names recorded taken).length = recorded.length := by
  induction recorded generalizing taken with
  | nil => rfl
  | cons name rest ih => simp [createFunctions, ih]

/-- Created names are new and different. -/
theorem createFunctions_fresh (recorded taken : List String) :
    (createFunctions names recorded taken).Nodup ∧
      ∀ created ∈ createFunctions names recorded taken, created ∉ taken := by
  induction recorded generalizing taken with
  | nil => simp [createFunctions]
  | cons name rest ih =>
    obtain ⟨nodup, fresh⟩ := ih (names.unique taken name :: taken)
    constructor
    · refine List.nodup_cons.mpr ⟨?_, nodup⟩
      intro member
      exact fresh _ member List.mem_cons_self
    · intro created member
      rcases List.mem_cons.mp member with rfl | member
      · exact names.fresh taken name
      · intro old
        exact fresh created member (List.mem_cons_of_mem _ old)

/-- Different names that are not taken are kept. -/
theorem createFunctions_kept {recorded taken : List String} (nodup : recorded.Nodup)
    (apart : ∀ name ∈ recorded, name ∉ taken) : createFunctions names recorded taken = recorded := by
  induction recorded generalizing taken with
  | nil => rfl
  | cons name rest ih =>
    obtain ⟨other, nodup⟩ := List.nodup_cons.mp nodup
    have kept := names.kept taken name (apart name List.mem_cons_self)
    rw [createFunctions, kept, ih nodup]
    intro later member here
    rcases List.mem_cons.mp here with rfl | old
    · exact other member
    · exact apart later (List.mem_cons_of_mem _ member) old

theorem loadFunctions_nodup (recorded linked : List String) :
    (loadFunctions names recorded linked).taken.Nodup := by
  simp only [loadFunctions, FunctionNames.taken, List.map_nil, List.nil_append]
  refine List.nodup_append.mpr ⟨(createFunctions_fresh recorded []).1, (List.nodup_dedup linked).filter _, ?_⟩
  rintro name member other inside rfl
  simpa [member] using (List.mem_filter.mp inside).2

/-- After cloning the functions of `cloned`: the others have the names they were created
with, and the clones have those of the functions they were made from. -/
structure Cloning (created : List String) (cloned : List FuncId) (mod : FunctionNames) : Prop where
  nodup : mod.taken.Nodup
  waiting : ∀ f, f ∉ cloned → mod.functions[f]? = created[f]?
  done : ∀ f ∈ cloned, mod.clones.lookup f = created[f]?

variable {created : List String} {cloned : List FuncId} {mod : FunctionNames} {f : FuncId}

theorem ne_of_suffixed (taken : List String) (name : String) :
    names.unique taken (name ++ ".old") ≠ name := by
  intro same
  obtain ⟨suffix, made⟩ := names.suffixed taken (name ++ ".old")
  have lengths := congrArg String.length (made.symm.trans same)
  simp only [String.length_append] at lengths
  have four : ".old".length = 4 := rfl
  omega

/-- The name of a function and those of all others. -/
theorem FunctionNames.taken_perm {name : String} (here : mod.functions[f]? = some name) :
    mod.taken.Perm (name :: { mod with functions := mod.functions.eraseIdx f }.taken) := by
  obtain ⟨bound, rfl⟩ := List.getElem?_eq_some_iff.mp here
  exact (List.getElem_cons_eraseIdx_perm bound).symm.append_right _

theorem FunctionNames.set_perm (bound : f < mod.functions.length) (name : String) :
    { mod with functions := mod.functions.set f name }.taken.Perm
      (name :: { mod with functions := mod.functions.eraseIdx f }.taken) :=
  (List.set_perm_cons_eraseIdx bound name).append_right _

theorem Cloning.generate (cloning : Cloning created cloned mod) (waiting : f ∉ cloned) {name : String}
    (here : created[f]? = some name) :
    Cloning created (f :: cloned) (generateFunctionObject names mod f) := by
  have found : mod.functions[f]? = some name := (cloning.waiting f waiting).trans here
  have bound := (List.getElem?_eq_some_iff.mp found).1
  obtain ⟨absent, nodup⟩ := List.nodup_cons.mp ((mod.taken_perm found).nodup_iff.mp cloning.nodup)
  let others := { mod with functions := mod.functions.eraseIdx f }.taken
  let old := names.unique others (name ++ ".old")
  have renamed : { mod with functions := mod.functions.set f old }.taken.Perm (old :: others) :=
    mod.set_perm bound old
  have free : name ∉ { mod with functions := mod.functions.set f old }.taken := by
    intro member
    rcases List.mem_cons.mp (renamed.mem_iff.mp member) with same | member
    · exact ne_of_suffixed others name same.symm
    · exact absent member
  have kept := names.kept _ _ free
  have shape : generateFunctionObject names mod f =
      { mod with functions := mod.functions.set f old, clones := (f, name) :: mod.clones } := by
    simp only [generateFunctionObject, found, Option.getD_some]
    rw [kept]
  rw [shape]
  constructor
  · have apart : (name :: { mod with functions := mod.functions.set f old }.taken).Nodup :=
      List.nodup_cons.mpr ⟨free, renamed.nodup_iff.mpr (List.nodup_cons.mpr ⟨names.fresh _ _, nodup⟩)⟩
    exact (List.perm_middle.nodup_iff).mpr apart
  · intro g other
    simp only [List.mem_cons, not_or] at other
    obtain ⟨different, waiting⟩ := other
    rw [← cloning.waiting g waiting]
    exact List.getElem?_set_ne (Ne.symm different)
  · intro g member
    by_cases same : g = f
    · subst same
      rw [List.lookup_cons_self, here]
    · rw [List.lookup_cons, beq_false_of_ne same]
      exact cloning.done g ((List.mem_cons.mp member).resolve_left same)

theorem Cloning.run (cloning : Cloning created cloned mod) {order : List FuncId}
    (nodup : order.Nodup) (waiting : ∀ f ∈ order, f ∉ cloned) (bound : ∀ f ∈ order, f < created.length) :
    ∃ cloned', (∀ f ∈ order, f ∈ cloned') ∧ Cloning created cloned' (cloneFunctions names mod order) := by
  suffices general : ∃ cloned', (∀ f, f ∈ order ∨ f ∈ cloned → f ∈ cloned') ∧
      Cloning created cloned' (cloneFunctions names mod order) by
    obtain ⟨cloned', all, result⟩ := general
    exact ⟨cloned', fun f member => all f (.inl member), result⟩
  induction order generalizing cloned mod with
  | nil => exact ⟨cloned, by simp, cloning⟩
  | cons f rest ih =>
    obtain ⟨other, nodup⟩ := List.nodup_cons.mp nodup
    have here := List.getElem?_eq_getElem (bound f List.mem_cons_self)
    have step : Cloning created (f :: cloned) (generateFunctionObject names mod f) :=
      cloning.generate (waiting f List.mem_cons_self) here
    obtain ⟨cloned', all, result⟩ := ih step nodup
      (fun g member => by
        simp only [List.mem_cons, not_or]
        exact ⟨fun same => other (same ▸ member), waiting g (List.mem_cons_of_mem _ member)⟩)
      (fun g member => bound g (List.mem_cons_of_mem _ member))
    refine ⟨cloned', ?_, result⟩
    intro g
    rintro (member | member)
    · rcases List.mem_cons.mp member with rfl | member
      · exact all g (.inr List.mem_cons_self)
      · exact all g (.inl member)
    · exact all g (.inr (List.mem_cons_of_mem _ member))

/-- Every clone has the name its function was created with. -/
theorem clone_name (recorded linked : List String) {order : List FuncId}
    (all : order.Perm (List.range recorded.length)) (inside : f < recorded.length) :
    (cloneFunctions names (loadFunctions names recorded linked) order).clones.lookup f =
      (createFunctions names recorded [])[f]? := by
  have start : Cloning (createFunctions names recorded []) [] (loadFunctions names recorded linked) :=
    ⟨loadFunctions_nodup recorded linked, fun _ _ => rfl, by simp⟩
  obtain ⟨cloned, cover, result⟩ := start.run (all.nodup_iff.mpr List.nodup_range) (by simp)
    (fun f member => by simpa [createFunctions_length] using all.mem_iff.mp member)
  exact result.done f (cover f (all.mem_iff.mpr (List.mem_range.mpr inside)))

variable {records : List TranslatedFunction} {tr : TranslatedFunction}

theorem name_of_selectRecord {name : String} (found : selectRecord records name = some f)
    (here : records[f]? = some tr) : tr.name = name := by
  obtain ⟨bound, named, _⟩ := List.findIdx?_eq_some_iff_getElem.mp found
  rw [List.getElem?_eq_getElem bound] at here
  cases here
  simpa using named

/-- With different names the first record under a name is the only one. -/
theorem selectRecord_own (nodup : (records.map fun tr => tr.name).Nodup) (here : records[f]? = some tr) :
    selectRecord records tr.name = some f := by
  obtain ⟨bound, rfl⟩ := List.getElem?_eq_some_iff.mp here
  refine List.findIdx?_eq_some_iff_getElem.mpr ⟨bound, by simp, ?_⟩
  intro g before same
  have inside : g < (records.map fun tr => tr.name).length := by
    rw [List.length_map]
    omega
  have equal : g = f := by
    apply (List.getElem?_inj inside nodup).mp
    rw [List.getElem?_map, List.getElem?_map, List.getElem?_eq_getElem bound,
      List.getElem?_eq_getElem (Nat.lt_trans before bound)]
    simpa using same
  omega

theorem symbolTable_own (nodup : (records.map fun tr => tr.name).Nodup) (member : tr ∈ records) :
    (symbolTable records).getStartOf tr.name = .ok tr.start := by
  have found : (symbolTable records).find? (fun fs => fs.name = tr.name) =
      some ⟨tr.name, tr.start, tr.end⟩ := by
    induction records with
    | nil => simp at member
    | cons first rest ih =>
      obtain ⟨other, nodup⟩ := List.nodup_cons.mp nodup
      rw [symbolTable, List.map_cons]
      rcases List.mem_cons.mp member with rfl | behind
      · simp
      · have different : first.name ≠ tr.name := by
          intro same
          exact other (List.mem_map.mpr ⟨tr, behind, same.symm⟩)
        rw [List.find?_cons_of_neg (by simpa using different)]
        exact ih nodup behind
  rw [FileInfo.getStartOf, found]

/-- Functions find their own records exactly when no two of them have the same name. -/
theorem records_paired_iff (linked : List String) {order : List FuncId}
    (all : order.Perm (List.range records.length)) :
    PairedWithOwn (cloneFunctions names
        (loadFunctions names (records.map fun tr => tr.name) linked) order) records ↔
      (records.map fun tr => tr.name).Nodup := by
  have clone := fun f inside => @clone_name names f (records.map fun tr => tr.name) linked order
    (by simpa using all) inside
  constructor
  · intro paired
    have kept : createFunctions names (records.map fun tr => tr.name) [] =
        records.map fun tr => tr.name := by
      apply List.ext_getElem?
      intro f
      by_cases inside : f < records.length
      · have here := List.getElem?_eq_getElem inside
        obtain ⟨name, found, selected, -⟩ := paired f _ here
        rw [← clone f (by simpa using inside), found, List.getElem?_map, here, Option.map_some,
          name_of_selectRecord selected here]
      · rw [List.getElem?_eq_none (by simpa [createFunctions_length] using inside),
          List.getElem?_eq_none (by simpa using inside)]
    rw [← kept]
    exact (createFunctions_fresh _ []).1
  · intro nodup f tr here
    have inside : f < (records.map fun tr => tr.name).length := by
      simpa using (List.getElem?_eq_some_iff.mp here).1
    have selected := selectRecord_own nodup here
    refine ⟨tr.name, ?_, selected, by simp [selected, here], symbolTable_own nodup (List.mem_of_getElem? here)⟩
    rw [clone f inside, createFunctions_kept nodup (by simp), List.getElem?_map, here, Option.map_some]

def suffixedDots : SuffixedNames where
  toUniqueNames := dottedNames
  suffixed taken name := by
    by_cases used : name ∈ taken
    · exact ⟨_, if_pos used⟩
    · exact ⟨"", (if_neg used).trans (by simp)⟩

/-- Two static functions of one name, from different files. -/
def twoHelpers : List TranslatedFunction :=
  [{ name := "helper", start := 0x1000, «end» := 0x1004 },
   { name := "helper", start := 0x1004, «end» := 0x1008 }]

def clonedHelpers : FunctionNames :=
  cloneFunctions suffixedDots (loadFunctions suffixedDots (twoHelpers.map fun tr => tr.name) []) [0, 1]

/-- The search for the record of the second one reaches the end of the list. -/
theorem second_helper_unpaired :
    (clonedHelpers.clones.lookup 1).map (selectRecord twoHelpers) = some none ∧
      ¬PairedWithOwn clonedHelpers twoHelpers := by
  have missing : (clonedHelpers.clones.lookup 1).map (selectRecord twoHelpers) = some none := by
    decide +kernel
  refine ⟨missing, ?_⟩
  intro paired
  obtain ⟨clone, found, selected, -⟩ := paired 1 _ rfl
  rw [found, Option.map_some, selected] at missing
  cases missing

/-- Two functions of different names. -/
def helperAndMain : List TranslatedFunction :=
  [{ name := "helper", start := 0x1000, «end» := 0x1004 }, { name := "main", start := 0x1004, «end» := 0x1008 }]

theorem two_helpers_iff :
    (PairedWithOwn clonedHelpers twoHelpers ↔ (twoHelpers.map fun tr => tr.name).Nodup) ∧
      PairedWithOwn (cloneFunctions suffixedDots
        (loadFunctions suffixedDots (helperAndMain.map fun tr => tr.name) []) [0, 1]) helperAndMain :=
  ⟨records_paired_iff [] (by decide), (records_paired_iff [] (by decide)).mpr (by decide)⟩

end Bleach
