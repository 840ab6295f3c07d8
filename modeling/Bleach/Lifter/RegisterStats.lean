import Bleach.Lifter.RegisterTransfer
import Bleach.Base.Fallible
import Mathlib.Data.List.Lookmap

/-! How the register classes of `register_state` come about: the registers a program
names, each in the first class that matches it, filled up from the target's classes,
and the subregister classes merged into the classes they alias. -/
namespace Bleach

/-- `struct regclass`: an entry of the config's `register-classes`. -/
structure Regclass where
  name : String
  regex : String

/-- `subregisters` of the config, an unordered map from class to class. -/
structure Subregisters where
  entries : List (String × String)
  unique : (entries.map Prod.fst).Nodup

/-- What the collection asks LLVM besides: sizes by position in `regclasses`, and its
regular expressions. -/
structure TargetRegisterInfo extends TargetMachine where
  getRegSizeInBits : Nat → Nat
  /-- `Regex::match` -/
  isMatch : (regex text : String) → Bool
  /-- `Regex::sub` with the empty replacement -/
  sub : (regex text : String) → String

/-- `class register_class` while it is filled. -/
structure MatchedClass extends RegisterClass where
  regex : String

namespace MatchedClass

def ofConfig (c : Regclass) : MatchedClass := { name := c.name, bitsize := 0, regs := .empty, regex := c.regex }

def addReg (rclass : MatchedClass) (reg : Register) : MatchedClass :=
  { rclass with regs := rclass.regs.tryEmplace reg [] }

end MatchedClass

section
variable (rinfo : TargetRegisterInfo)

/-- The loop body of `collect_register_stats_for`. -/
def collectOperand (stats : List MatchedClass) (mop : MachineOperand) : Except LiftError (List MatchedClass) :=
  match mop.reg? with
  | none => .ok stats
  | some reg =>
    let rname := rinfo.getRegAsmName reg
    match stats.findIdx? (fun rclass => rinfo.isMatch rclass.regex rname) with
    | none => .error (.runtimeError ("No register class found to match: \"" ++ rname ++ "\""))
    | some matching => .ok (stats.modify matching (·.addReg reg))

/-- The operands in the order the three loops visit them. -/
def MachineFunction.operands (mf : MachineFunction) : List MachineOperand :=
  mf.blocks.flatMap fun mblock => mblock.flatMap fun minst => minst.operands

def collectRegisterStatsFor (stats : List MatchedClass) (mf : MachineFunction) :
    Except LiftError (List MatchedClass) :=
  mf.operands.foldlM (collectOperand rinfo) stats

/-- The loop body of `assign_register_classes`. -/
def assignRegisterClass (regClass : MatchedClass) (idx : Nat) : Except LiftError MatchedClass :=
  match rinfo.regclasses.findIdx? (fun rclass => regClass.regs.keys.all (rclass.contains ·)) with
  | none => .error (.runtimeError
      ("Could not find llvm register class for specified register class: " ++ toString idx))
  | some found =>
    let regs := (rinfo.regclasses[found]?.getD []).filter fun reg =>
      (rinfo.sub regClass.regex (rinfo.getRegAsmName reg)).isEmpty
    .ok (regs.foldl MatchedClass.addReg { regClass with bitsize := rinfo.getRegSizeInBits found })

def assignRegisterClasses (stats : List MatchedClass) : Except LiftError (List MatchedClass) :=
  stats.zipIdx.mapM fun (regClass, idx) => assignRegisterClass rinfo regClass idx

/-- The zip over two classes: as far as both go, each entry of the one lists the
register of the other at its position. -/
def pushSubregs : List (Register × List Register) → List Register → List (Register × List Register)
  | (reg, subregs) :: rest, sub :: more => (reg, subregs ++ [sub]) :: pushSubregs rest more
  | entries, _ => entries

theorem pushSubregs_keys (entries : List (Register × List Register)) (subs : List Register) :
    (pushSubregs entries subs).map Prod.fst = entries.map Prod.fst := by
  induction entries generalizing subs with
  | nil => rfl
  | cons e rest ih =>
    cases subs with
    | nil => rfl
    | cons sub more => exact congrArg (e.1 :: ·) (ih more)

def RegisterClass.pushSubregs (rclass : RegisterClass) (subs : List Register) : RegisterClass :=
  { rclass with regs := ⟨Bleach.pushSubregs rclass.regs.entries subs, by
      have sorted := rclass.regs.keys_sorted
      rw [OrderedMap.keys, ← pushSubregs_keys _ subs, List.pairwise_map] at sorted
      exact sorted⟩ }

/-- The loop body over `get_subregs()`. Both searches come before the first change; a
class that aliases itself lists its own registers and is erased. -/
def mergeSubregs (stats : RegisterStats) : String × String → RegisterStats
  | (subregclass, aliasto) =>
    match stats.find? (·.name = subregclass) with
    | none => stats
    | some found =>
      if stats.any (·.name = aliasto) then
        (stats.lookmap fun rclass =>
          if rclass.name = aliasto then some (rclass.pushSubregs found.regs.keys) else none).eraseP
            (·.name = subregclass)
      else stats

/-- `subregs` is the map of the config in the order its iteration takes. -/
def collectRegisterStats (rclasses : List Regclass) (subregs : List (String × String))
    (m : List MachineFunction) : Except LiftError RegisterStats :=
  if rclasses.isEmpty then
    .error (.runtimeError "register-classes were not specified in input YAML")
  else if m.isEmpty then .error .assertion
  else do
    let stats ← m.foldlM (collectRegisterStatsFor rinfo) (rclasses.map .ofConfig)
    let stats ← assignRegisterClasses rinfo stats
    let stats := (stats.filter fun rclass => !rclass.regs.entries.isEmpty).map (·.toRegisterClass)
    .ok (subregs.foldl mergeSubregs stats)

def registersUsed (m : List MachineFunction) : List Register :=
  m.flatMap fun mf => mf.operands.filterMap MachineOperand.reg?

variable (rclasses : List Regclass) (m : List MachineFunction)

/-- The class a used register goes to. -/
def firstMatch (reg : Register) : Option Nat :=
  rclasses.findIdx? fun c => rinfo.isMatch c.regex (rinfo.getRegAsmName reg)

def matchedIn (k : Nat) : List Register :=
  (registersUsed m).filter fun reg => firstMatch rinfo rclasses reg = some k

/-- The first class of the target that has all used registers of class `k`. -/
def fittingClass (k : Nat) : Option Nat :=
  rinfo.regclasses.findIdx? fun rclass => (matchedIn rinfo rclasses m k).all (rclass.contains ·)

/-- The used registers of class `k`, and all of the fitting class with a matching name. -/
def registersIn (k : Nat) (c : Regclass) : List Register :=
  matchedIn rinfo rclasses m k ++
    (((fittingClass rinfo rclasses m k).bind (rinfo.regclasses[·]?)).getD []).filter fun reg =>
      (rinfo.sub c.regex (rinfo.getRegAsmName reg)).isEmpty

/-- Inputs on which the collection does not throw. -/
structure Collectable : Prop where
  classes : rclasses ≠ []
  functions : m ≠ []
  matched : ∀ reg ∈ registersUsed m, (firstMatch rinfo rclasses reg).isSome
  fitting : ∀ k < rclasses.length, (fittingClass rinfo rclasses m k).isSome

/-- The classes in front of the loop over the subregisters, before empty ones go. -/
def filledClass (k : Nat) (c : Regclass) : RegisterClass where
  name := c.name
  bitsize := ((fittingClass rinfo rclasses m k).map rinfo.getRegSizeInBits).getD 0
  regs := .ofKeys (registersIn rinfo rclasses m k c) []

def filledClasses : RegisterStats :=
  (rclasses.mapIdx (filledClass rinfo rclasses m)).filter fun rclass => !rclass.regs.entries.isEmpty

def collectedClasses (used : List Register) : List MatchedClass :=
  rclasses.mapIdx fun k c => { MatchedClass.ofConfig c with
    regs := .ofKeys (used.filter fun reg => firstMatch rinfo rclasses reg = some k) [] }

theorem collectedClasses_regex (used : List Register) :
    (collectedClasses rinfo rclasses used).map MatchedClass.regex = rclasses.map Regclass.regex := by
  refine List.ext_getElem? fun k => ?_
  rw [collectedClasses, List.getElem?_map, List.getElem?_mapIdx, List.getElem?_map, Option.map_map]
  rfl

theorem collectedClasses_add (used : List Register) {reg : Register} {k : Nat}
    (matching : firstMatch rinfo rclasses reg = some k) :
    (collectedClasses rinfo rclasses used).modify k (·.addReg reg) =
      collectedClasses rinfo rclasses (used ++ [reg]) := by
  refine List.ext_getElem? fun j => ?_
  rw [collectedClasses, collectedClasses, List.getElem?_modify, List.getElem?_mapIdx, List.getElem?_mapIdx]
  by_cases here : k = j
  · subst here
    simp [matching, MatchedClass.addReg, OrderedMap.ofKeys_append, Function.comp_def]
  · simp [matching, here]

theorem collectOperand_ok (used : List Register) (mop : MachineOperand) (stats : List MatchedClass) :
    collectOperand rinfo (collectedClasses rinfo rclasses used) mop = .ok stats ↔
      (∀ reg ∈ mop.reg?.toList, (firstMatch rinfo rclasses reg).isSome) ∧
        stats = collectedClasses rinfo rclasses (used ++ mop.reg?.toList) := by
  cases named : mop.reg? with
  | none =>
    simp only [collectOperand, named, Option.toList_none, List.append_nil]
    constructor
    · intro done
      exact ⟨fun _ none => absurd none List.not_mem_nil, (Except.ok.inj done).symm⟩
    · rintro ⟨-, rfl⟩
      rfl
  | some reg =>
    have search : (collectedClasses rinfo rclasses used).findIdx?
        (fun rclass => rinfo.isMatch rclass.regex (rinfo.getRegAsmName reg)) =
          firstMatch rinfo rclasses reg := by
      have regexes := congrArg (List.findIdx? fun regex => rinfo.isMatch regex (rinfo.getRegAsmName reg))
        (collectedClasses_regex rinfo rclasses used)
      rwa [List.findIdx?_map, List.findIdx?_map] at regexes
    simp only [collectOperand, named, search, Option.toList_some, List.forall_mem_singleton]
    cases matching : firstMatch rinfo rclasses reg with
    | none => simp
    | some k =>
      simp only [collectedClasses_add rinfo rclasses used matching, Option.isSome_some, true_and,
        Except.ok.injEq]
      exact eq_comm

theorem collectRegisterStatsFor_ok (used : List Register) (mf : MachineFunction)
    (stats : List MatchedClass) :
    collectRegisterStatsFor rinfo (collectedClasses rinfo rclasses used) mf = .ok stats ↔
      (∀ reg ∈ mf.operands.filterMap MachineOperand.reg?, (firstMatch rinfo rclasses reg).isSome) ∧
        stats = collectedClasses rinfo rclasses (used ++ mf.operands.filterMap MachineOperand.reg?) := by
  rw [List.filterMap_eq_flatMap_toList]
  exact foldlM_ok_append (collectOperand_ok rinfo rclasses) mf.operands used

theorem collectFunctions_ok (fs : List MachineFunction) (used : List Register) {stats : List MatchedClass} :
    fs.foldlM (collectRegisterStatsFor rinfo) (collectedClasses rinfo rclasses used) = .ok stats ↔
      (∀ reg ∈ registersUsed fs, (firstMatch rinfo rclasses reg).isSome) ∧
        stats = collectedClasses rinfo rclasses (used ++ registersUsed fs) :=
  foldlM_ok_append (collectRegisterStatsFor_ok rinfo rclasses) fs used

theorem foldl_addReg (regs : List Register) (rclass : MatchedClass) :
    regs.foldl MatchedClass.addReg rclass =
      { rclass with regs := regs.foldl (fun map reg => map.tryEmplace reg []) rclass.regs } := by
  induction regs generalizing rclass with
  | nil => rfl
  | cons reg rest ih => exact ih (rclass.addReg reg)

theorem assignRegisterClass_ok {k : Nat} {c : Regclass} {rclass : MatchedClass} :
    assignRegisterClass rinfo { MatchedClass.ofConfig c with
        regs := .ofKeys (matchedIn rinfo rclasses m k) [] } k = .ok rclass ↔
      (fittingClass rinfo rclasses m k).isSome ∧
        rclass = { filledClass rinfo rclasses m k c with regex := c.regex } := by
  have fitting : rinfo.regclasses.findIdx? (fun rclass =>
      (OrderedMap.ofKeys (matchedIn rinfo rclasses m k) ([] : List Register)).keys.all (rclass.contains ·)) =
        fittingClass rinfo rclasses m k := by
    refine congrArg (List.findIdx? · _) (funext fun rclass => ?_)
    rw [Bool.eq_iff_iff, List.all_eq_true, List.all_eq_true]
    simp only [OrderedMap.mem_keys_ofKeys]
  simp only [assignRegisterClass, fitting, foldl_addReg, filledClass, registersIn]
  cases fittingClass rinfo rclasses m k with
  | none => simp
  | some found =>
    simp [MatchedClass.ofConfig, OrderedMap.ofKeys_append, eq_comm]

theorem assignRegisterClasses_ok {stats : List MatchedClass} :
    assignRegisterClasses rinfo (collectedClasses rinfo rclasses (registersUsed m)) = .ok stats ↔
      (∀ k < rclasses.length, (fittingClass rinfo rclasses m k).isSome) ∧
        stats = rclasses.mapIdx fun k c => { filledClass rinfo rclasses m k c with regex := c.regex } := by
  have found : ∀ k rclass, (collectedClasses rinfo rclasses (registersUsed m))[k]? = some rclass ↔
      ∃ c, rclasses[k]? = some c ∧ rclass = { MatchedClass.ofConfig c with
        regs := .ofKeys (matchedIn rinfo rclasses m k) [] } := by
    intro k rclass
    rw [collectedClasses, List.getElem?_mapIdx, Option.map_eq_some_iff]
    exact exists_congr fun c => and_congr_right fun _ => eq_comm
  have each := mapM_ok_map (r := stats)
    (f := fun e : MatchedClass × Nat => assignRegisterClass rinfo e.1 e.2)
    (P := fun e => (fittingClass rinfo rclasses m e.2).isSome = true)
    (g := fun e => { filledClass rinfo rclasses m e.2 ⟨e.1.name, e.1.regex⟩ with regex := e.1.regex })
    (l := (collectedClasses rinfo rclasses (registersUsed m)).zipIdx) (by
      rintro ⟨rclass, k⟩ member b
      obtain ⟨c, -, rfl⟩ := (found k rclass).mp (List.mem_zipIdx_iff_getElem?.mp member)
      exact assignRegisterClass_ok rinfo rclasses m)
  rw [assignRegisterClasses, each]
  refine and_congr ?_ (Eq.congr_right ?_)
  · constructor
    · intro all k below
      have entry := (found k _).mpr ⟨_, List.getElem?_eq_getElem below, rfl⟩
      exact all (_, k) (List.mem_zipIdx_iff_getElem?.mpr entry)
    · rintro all ⟨rclass, k⟩ member
      obtain ⟨c, entry, -⟩ := (found k rclass).mp (List.mem_zipIdx_iff_getElem?.mp member)
      exact all k (List.getElem?_eq_some_iff.mp entry).1
  · refine List.ext_getElem? fun k => ?_
    rw [List.getElem?_map, List.getElem?_zipIdx, collectedClasses, List.getElem?_mapIdx, List.getElem?_mapIdx,
      Option.map_map, Option.map_map, Nat.zero_add]
    rfl

/-- The collection up to the loop over the subregisters. -/
theorem collectRegisterStats_ok {subregs : List (String × String)} {stats : RegisterStats} :
    collectRegisterStats rinfo rclasses subregs m = .ok stats ↔
      Collectable rinfo rclasses m ∧ stats = subregs.foldl mergeSubregs (filledClasses rinfo rclasses m) := by
  have start : rclasses.map MatchedClass.ofConfig = collectedClasses rinfo rclasses [] := by
    refine List.ext_getElem? fun k => ?_
    rw [collectedClasses, List.getElem?_map, List.getElem?_mapIdx]
    rfl
  have kept : ((rclasses.mapIdx fun k c => ({ filledClass rinfo rclasses m k c with
        regex := c.regex } : MatchedClass)).filter fun rclass => !rclass.regs.entries.isEmpty).map
          (·.toRegisterClass) = filledClasses rinfo rclasses m := by
    have plain : rclasses.mapIdx (filledClass rinfo rclasses m) = (rclasses.mapIdx fun k c =>
        ({ filledClass rinfo rclasses m k c with regex := c.regex } : MatchedClass)).map
          (·.toRegisterClass) := by
      refine List.ext_getElem? fun k => ?_
      rw [List.getElem?_map, List.getElem?_mapIdx, List.getElem?_mapIdx, Option.map_map]
      rfl
    rw [filledClasses, plain, List.filter_map]
    rfl
  constructor
  · intro run
    rw [collectRegisterStats] at run
    split at run
    · cases run
    · rename_i classes
      split at run
      · cases run
      · rename_i functions
        obtain ⟨collected, matched, run⟩ := bind_ok.mp run
        rw [start] at matched
        obtain ⟨all, rfl⟩ := (collectFunctions_ok rinfo rclasses m []).mp matched
        obtain ⟨assigned, fitted, run⟩ := bind_ok.mp run
        obtain ⟨fitting, rfl⟩ := (assignRegisterClasses_ok rinfo rclasses m).mp fitted
        rw [kept] at run
        exact ⟨⟨by simpa using classes, by simpa using functions, all, fitting⟩, (Except.ok.inj run).symm⟩
  · rintro ⟨collectable, rfl⟩
    have classes : rclasses.isEmpty = false := List.isEmpty_eq_false_iff.mpr collectable.classes
    have functions : m.isEmpty = false := List.isEmpty_eq_false_iff.mpr collectable.functions
    rw [collectRegisterStats, classes, functions, if_neg Bool.false_ne_true, if_neg Bool.false_ne_true, start]
    refine bind_ok.mpr ⟨_, (collectFunctions_ok rinfo rclasses m []).mpr ⟨collectable.matched, rfl⟩,
      bind_ok.mpr ⟨_, (assignRegisterClasses_ok rinfo rclasses m).mpr ⟨collectable.fitting, rfl⟩, ?_⟩⟩
    rw [kept]

theorem mem_filledClasses {rclass : RegisterClass} (member : rclass ∈ filledClasses rinfo rclasses m) :
    rclass.regs.keys ≠ [] ∧ ∀ e ∈ rclass.regs.entries, e.2 = [] := by
  obtain ⟨inside, filled⟩ := List.mem_filter.mp member
  obtain ⟨k, c, -, rfl⟩ := List.mem_mapIdx.mp inside
  constructor
  · rw [Ne, OrderedMap.keys, List.map_eq_nil_iff]
    intro empty
    rw [empty] at filled
    cases filled
  · intro e entry
    rw [filledClass, OrderedMap.entries_ofKeys] at entry
    obtain ⟨key, -, rfl⟩ := List.mem_map.mp entry
    rfl

theorem used_in_class (collectable : Collectable rinfo rclasses m) {reg : Register}
    (used : reg ∈ registersUsed m) : ∃ rclass ∈ filledClasses rinfo rclasses m, reg ∈ rclass.regs.keys := by
  obtain ⟨k, matching⟩ := Option.isSome_iff_exists.mp (collectable.matched reg used)
  have below : k < rclasses.length := (List.findIdx?_eq_some_iff_getElem.mp matching).1
  have member : reg ∈ (filledClass rinfo rclasses m k rclasses[k]).regs.keys := by
    rw [filledClass, OrderedMap.mem_keys_ofKeys, registersIn, List.mem_append, matchedIn, List.mem_filter]
    exact .inl ⟨used, decide_eq_true matching⟩
  refine ⟨_, List.mem_filter.mpr ⟨List.mem_mapIdx.mpr ⟨k, below, rfl⟩, ?_⟩, member⟩
  rw [Bool.not_eq_true', List.isEmpty_eq_false_iff]
  intro empty
  rw [OrderedMap.keys, empty] at member
  cases member

end

end Bleach
