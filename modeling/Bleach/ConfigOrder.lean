import Bleach.Config
import Bleach.Base.Fallible
import Mathlib.Data.List.Perm.Basic

/-! Filling the module with the functions of the config. The module of the first entry is the
one the others are linked into, and it is read without a look at whether there is one. -/
namespace Bleach

/-- An LLVM module as linking sees it: the functions it defines. -/
abbrev IRUnit (F : Type) := String → Option F

/-- The failures of reading a config and of linking its functions; with LLVM's own handler of
diagnostics an error of the linker ends the program. -/
inductive FillError where
  | assertion
  | nullModule
  | runtimeError (what : String)
  | link
  deriving DecidableEq

variable {F : Type}

structure NormalizedInstruction where
  name : String
  functionStr : String

/-- An entry with its module, if it has one. -/
structure ConfigEntry (F : Type) where
  name : String
  irModule : Option (IRUnit F)

/-- `denormalize_instruction`, with `parseIR` and its message as a parameter. -/
def denormalizeInstruction (parseIR : String → Except String (IRUnit F)) (norm : NormalizedInstruction) :
    Except FillError (ConfigEntry F) :=
  if norm.functionStr.isEmpty then .ok ⟨norm.name, none⟩
  else
    match parseIR norm.functionStr with
    | .ok unit => .ok ⟨norm.name, some unit⟩
    | .error err => .error (.runtimeError ("Failed to parse LLVM IR: " ++ err))

variable (linkModules : IRUnit F → IRUnit F → Except FillError (IRUnit F))

/-- One round of the loop over the entries behind the first. -/
def linkEntry (first : IRUnit F) (i : ConfigEntry F) : Except FillError (IRUnit F) :=
  match i.irModule with
  | none => .ok first
  | some irModule => linkModules first irModule

def fillModuleWithInstrs (m : IRUnit F) : List (ConfigEntry F) → Except FillError (IRUnit F)
  | [] => .error .assertion
  | i :: rest =>
    match i.irModule with
    | none => .error .nullModule
    | some irModule => do
      let first ← rest.foldlM (linkEntry linkModules) irModule
      linkModules m first

/-- A function one of the modules defines. -/
def Defines (us : List (IRUnit F)) (name : String) (f : F) : Prop := ∃ u ∈ us, u name = some f

/-- A module that defines exactly the functions of some others. -/
def Merges (us : List (IRUnit F)) (w : IRUnit F) : Prop := ∀ name f, w name = some f ↔ Defines us name f

/-- No function is defined by both. -/
def Apart (u v : IRUnit F) : Prop := ∀ name, u name = none ∨ v name = none

/-- What the linker promises: modules apart are put together, and a function defined twice is an
error. -/
structure Links (linkModules : IRUnit F → IRUnit F → Except FillError (IRUnit F)) : Prop where
  apart : ∀ {u v}, Apart u v → ∃ w, linkModules u v = .ok w ∧ Merges [u, v] w
  clash : ∀ {u v}, ¬Apart u v → linkModules u v = .error .link

/-- The modules of the entries that have one. -/
def units (instrs : List (ConfigEntry F)) : List (IRUnit F) := instrs.filterMap ConfigEntry.irModule

variable {us vs : List (IRUnit F)} {u v w : IRUnit F}

theorem Apart.symm (apart : Apart u v) : Apart v u := fun name => (apart name).symm

theorem Merges.unique (left : Merges us u) (right : Merges us v) : u = v := by
  funext name
  apply Option.ext
  intro f
  rw [left, right]

theorem Merges.eq_none_iff (merges : Merges us w) (name : String) :
    w name = none ↔ ∀ u ∈ us, u name = none := by
  constructor
  · intro absent u member
    cases found : u name with
    | none => rfl
    | some f => cases absent.symm.trans ((merges name f).mpr ⟨u, member, found⟩)
  · intro absent
    cases found : w name with
    | none => rfl
    | some f =>
      obtain ⟨u, member, there⟩ := (merges name f).mp found
      cases (absent u member).symm.trans there

theorem Merges.apart_iff (merges : Merges us w) : Apart w v ↔ ∀ u ∈ us, Apart u v := by
  simp only [Apart, merges.eq_none_iff]
  constructor
  · intro apart u member name
    rcases apart name with absent | absent
    · exact .inl (absent u member)
    · exact .inr absent
  · intro apart name
    cases found : v name with
    | none => exact .inr rfl
    | some f =>
      refine .inl fun u member => ?_
      rcases apart u member name with absent | absent
      · exact absent
      · cases found.symm.trans absent

/-- A merged module stands for the ones it was made of. -/
theorem Merges.append_iff (merges : Merges us w) : Merges (w :: vs) v ↔ Merges (us ++ vs) v := by
  have same (name : String) (f : F) : Defines (w :: vs) name f ↔ Defines (us ++ vs) name f := by
    simp only [Defines, List.exists_mem_cons_iff, List.mem_append, or_and_right, exists_or]
    exact or_congr (merges name f) Iff.rfl
  simp only [Merges, same]

theorem Merges.perm (merges : Merges us w) (perm : us.Perm vs) : Merges vs w := by
  intro name f
  rw [merges name f]
  simp only [Defines, perm.mem_iff]

/-- The first definition of each name. -/
def merge (us : List (IRUnit F)) : IRUnit F := fun name => us.findSome? (· name)

theorem merges_merge (apart : us.Pairwise Apart) : Merges us (merge us) := by
  intro name f
  induction apart with
  | nil => simp [merge, Defines]
  | @cons u rest first _ ih =>
    simp only [merge, Defines, List.findSome?_cons, List.exists_mem_cons_iff] at ih ⊢
    cases found : u name with
    | none => simpa using ih
    | some g =>
      simp only [Option.some.injEq]
      constructor
      · exact .inl
      · rintro (same | ⟨v, member, there⟩)
        · exact same
        · rcases first v member name with absent | absent
          · cases found.symm.trans absent
          · cases there.symm.trans absent

section Loop
variable {linkModules : IRUnit F → IRUnit F → Except FillError (IRUnit F)} (links : Links linkModules)

include links

theorem Links.ok_iff : linkModules u v = .ok w ↔ Apart u v ∧ Merges [u, v] w := by
  by_cases apart : Apart u v
  · obtain ⟨w', linked, merges⟩ := links.apart apart
    rw [linked]
    constructor
    · rintro ⟨⟩
      exact ⟨apart, merges⟩
    · rintro ⟨-, merges'⟩
      rw [merges.unique merges']
  · rw [links.clash apart]
    constructor
    · rintro ⟨⟩
    · rintro ⟨here, -⟩
      exact absurd here apart

/-- Linking a list of modules into one, in any order of the list. -/
theorem foldlM_linkEntry_ok_iff (rest : List (ConfigEntry F)) (first : IRUnit F) :
    rest.foldlM (linkEntry linkModules) first = .ok w ↔
      (first :: units rest).Pairwise Apart ∧ Merges (first :: units rest) w := by
  induction rest generalizing first with
  | nil =>
    have single : Merges [first] first := fun name f => by simp [Defines]
    simp only [units, List.filterMap_nil, List.pairwise_singleton, true_and]
    constructor
    · rintro ⟨⟩
      exact single
    · intro merges
      rw [single.unique merges]
      rfl
  | cons i rest ih =>
    rw [List.foldlM_cons, bind_ok]
    cases body : i.irModule with
    | none =>
      have skipped : units (i :: rest) = units rest := List.filterMap_cons_none body
      simp only [linkEntry, body, Except.ok.injEq, exists_eq_left', skipped, ih]
    | some extra =>
      have added : units (i :: rest) = extra :: units rest := List.filterMap_cons_some body
      simp only [linkEntry, body, links.ok_iff, added, ih, List.pairwise_cons]
      constructor
      · rintro ⟨both, ⟨apart, merges⟩, ⟨others, pairwise⟩, all⟩
        have split := fun v member => merges.apart_iff.mp (others v member)
        refine ⟨⟨List.forall_mem_cons.mpr ⟨apart, fun v member => split v member first (by simp)⟩,
          fun v member => split v member extra (by simp), pairwise⟩, ?_⟩
        exact merges.append_iff.mp all
      · rintro ⟨⟨firsts, extras, pairwise⟩, all⟩
        obtain ⟨apart, firsts⟩ := List.forall_mem_cons.mp firsts
        obtain ⟨both, -, merges⟩ := links.apart apart
        refine ⟨both, ⟨apart, merges⟩, ⟨fun v member => merges.apart_iff.mpr ?_, pairwise⟩,
          merges.append_iff.mpr all⟩
        simp only [List.mem_cons, List.not_mem_nil, or_false, forall_eq_or_imp, forall_eq]
        exact ⟨firsts v member, extras v member⟩

theorem fillModuleWithInstrs_ok_iff (m m' : IRUnit F) (instrs : List (ConfigEntry F)) :
    fillModuleWithInstrs linkModules m instrs = .ok m' ↔
      (∃ i ∈ instrs.head?, i.irModule.isSome = true) ∧ (m :: units instrs).Pairwise Apart ∧
        Merges (m :: units instrs) m' := by
  cases instrs with
  | nil => simp [fillModuleWithInstrs]
  | cons i rest =>
    cases body : i.irModule with
    | none => simp [fillModuleWithInstrs, body]
    | some irModule =>
      have added : units (i :: rest) = irModule :: units rest := List.filterMap_cons_some body
      simp only [fillModuleWithInstrs, body, bind_ok, foldlM_linkEntry_ok_iff links, links.ok_iff, added,
        List.head?_cons, Option.mem_some_iff, exists_eq_left', Option.isSome_some, true_and]
      constructor
      · rintro ⟨first, ⟨pairwise, merges⟩, apart, all⟩
        have apart := fun v member => (merges.apart_iff.mp apart.symm v member).symm
        refine ⟨List.pairwise_cons.mpr ⟨apart, pairwise⟩, ?_⟩
        have swapped := all.perm (List.Perm.swap first m [])
        exact (merges.append_iff.mp swapped).perm (List.perm_append_singleton ..)
      · rintro ⟨pairwise, all⟩
        obtain ⟨apart, pairwise⟩ := List.pairwise_cons.mp pairwise
        have merges := merges_merge pairwise
        refine ⟨_, ⟨pairwise, merges⟩, (merges.apart_iff.mpr fun v member => (apart v member).symm).symm, ?_⟩
        have swapped := merges.append_iff.mpr (all.perm (List.perm_append_singleton ..).symm)
        exact swapped.perm (List.Perm.swap m _ [])

end Loop

/-- A permuted config fills the module with the functions of its entries exactly where the entry
that comes first has a body and no function is defined twice. -/
theorem config_order_iff {linkModules : IRUnit F → IRUnit F → Except FillError (IRUnit F)}
    (links : Links linkModules) (m : IRUnit F) (instrs instrs' : List (ConfigEntry F))
    (perm : instrs'.Perm instrs) :
    (∃ m', fillModuleWithInstrs linkModules m instrs' = .ok m' ∧ Merges (m :: units instrs) m') ↔
      (∃ i ∈ instrs'.head?, i.irModule.isSome = true) ∧ (m :: units instrs).Pairwise Apart := by
  have same : (m :: units instrs').Perm (m :: units instrs) := (perm.filterMap _).cons m
  have apart_same := same.pairwise_iff (R := Apart) Apart.symm
  constructor
  · rintro ⟨m', filled, -⟩
    obtain ⟨first, apart, -⟩ := (fillModuleWithInstrs_ok_iff links m m' instrs').mp filled
    exact ⟨first, apart_same.mp apart⟩
  · rintro ⟨first, apart⟩
    have merges := merges_merge (apart_same.mpr apart)
    exact ⟨_, (fillModuleWithInstrs_ok_iff links m _ instrs').mpr ⟨first, apart_same.mpr apart, merges⟩,
      merges.perm same⟩

section Lookup
variable {W : Type}

/-- The entry of an instruction: its module defines one function, of the instruction's name. -/
def Instruction.entry (i : Instruction W) : ConfigEntry (InstrFunction W) :=
  ⟨i.name, i.irModule.map fun f name => if i.name = name then some f else none⟩

theorem merge_entries (impl : InstrImpl W) :
    merge (units (impl.instrs.map Instruction.entry)) = impl.getFunction := by
  funext name
  rw [merge, units, InstrImpl.getFunction]
  induction impl.instrs with
  | nil => rfl
  | cons i rest ih =>
    rw [List.map_cons, List.findSome?_cons, ← ih]
    cases body : i.irModule with
    | none =>
      rw [List.filterMap_cons_none (by simp [Instruction.entry, body])]
      simp
    | some f =>
      rw [List.filterMap_cons_some (b := fun other => if i.name = other then some f else none)
        (by simp [Instruction.entry, body]), List.findSome?_cons]

/-- Behind the filling a function is found by its name as the lifter's configuration finds it. -/
theorem getFunction_filled {linkModules : IRUnit (InstrFunction W) → IRUnit (InstrFunction W) →
      Except FillError (IRUnit (InstrFunction W))} (links : Links linkModules) (impl : InstrImpl W)
    {m m' : IRUnit (InstrFunction W)}
    (filled : fillModuleWithInstrs linkModules m (impl.instrs.map Instruction.entry) = .ok m')
    {name : String} (other : m name = none) : m' name = impl.getFunction name := by
  obtain ⟨-, apart, merges⟩ := (fillModuleWithInstrs_ok_iff links m m' _).mp filled
  rw [merges.unique (merges_merge apart), ← merge_entries, merge, List.findSome?_cons, other]
  rfl

end Lookup

/-- The linker on modules whose names are known. -/
noncomputable def linkUnits (u v : IRUnit F) : Except FillError (IRUnit F) :=
  open Classical in if Apart u v then .ok (merge [u, v]) else .error .link

theorem links_linkUnits : Links (linkUnits (F := F)) where
  apart apart := ⟨_, if_pos apart, merges_merge (List.pairwise_pair.mpr apart)⟩
  clash clash := if_neg clash

def emptyUnit : IRUnit Nat := fun _ => none

/-- An entry with the body `n`. -/
def bodyEntry (name : String) (n : Nat) : ConfigEntry Nat :=
  ⟨name, some fun other => if other = name then some n else none⟩

/-- An entry such as `C_JR`. -/
def bareEntry (name : String) : ConfigEntry Nat := ⟨name, none⟩

theorem body_first_filled :
    ∃ m', fillModuleWithInstrs linkUnits emptyUnit [bodyEntry "ADDI" 1, bareEntry "C_JR"] = .ok m' ∧
      Merges (emptyUnit :: units [bareEntry "C_JR", bodyEntry "ADDI" 1]) m' :=
  (config_order_iff links_linkUnits emptyUnit [bareEntry "C_JR", bodyEntry "ADDI" 1]
    [bodyEntry "ADDI" 1, bareEntry "C_JR"] (List.Perm.swap ..)).mpr
    ⟨⟨_, rfl, rfl⟩, List.pairwise_pair.mpr fun _ => .inl rfl⟩

/-- With the entry without a body in front its module is read all the same. -/
theorem bare_first_fails :
    fillModuleWithInstrs linkUnits emptyUnit [bareEntry "C_JR", bodyEntry "ADDI" 1] = .error .nullModule ∧
      ¬∀ (linkModules : IRUnit Nat → IRUnit Nat → Except FillError (IRUnit Nat)), Links linkModules →
        ∀ (m : IRUnit Nat) (instrs instrs' : List (ConfigEntry Nat)), instrs ≠ [] → instrs'.Perm instrs →
          ∃ m', fillModuleWithInstrs linkModules m instrs' = .ok m' ∧ Merges (m :: units instrs) m' := by
  refine ⟨rfl, fun fills => ?_⟩
  obtain ⟨m', filled, -⟩ := fills linkUnits links_linkUnits emptyUnit
    [bareEntry "C_JR", bodyEntry "ADDI" 1] _ (by simp) (List.Perm.refl _)
  cases filled

end Bleach
