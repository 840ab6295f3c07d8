import Bleach.Base.EntryList
import Bleach.Lifter.Module

/-! The register-copy loops move the same variables to and from the same slots.
All of them are the flattening of one list of transfers, and saving followed by
loading is the identity on the variables of the register classes. -/
namespace Bleach
variable {W : Type}

/-- Register `reg` of class `cls`, whose rank in the class is `idx`. -/
structure Transfer where
  cls : Nat
  reg : Register
  idx : Nat
  deriving DecidableEq

namespace Transfer

abbrev cell (t : Transfer) : Cell := ⟨t.cls, t.reg⟩
abbrev slot (t : Transfer) : Slot := ⟨t.cls, t.idx⟩

end Transfer

def transfers (stats : RegisterStats) : List Transfer :=
  stats.zipIdx.flatMap fun (rclass, cls) =>
    rclass.regs.keys.zipIdx.map fun (reg, idx) => ⟨cls, reg, idx⟩

variable {stats : RegisterStats}

theorem mem_transfers {t : Transfer} : t ∈ transfers stats ↔
    ∃ rclass, stats[t.cls]? = some rclass ∧ rclass.regs.keys[t.idx]? = some t.reg := by
  simp only [transfers, List.mem_flatMap, List.mem_map, Prod.exists, List.mem_zipIdx_iff_getElem?]
  constructor
  · rintro ⟨rclass, cls, found, reg, idx, key, rfl⟩
    exact ⟨rclass, found, key⟩
  · rintro ⟨rclass, found, key⟩
    exact ⟨rclass, t.cls, found, t.reg, t.idx, key, rfl⟩

theorem slot_determines {t u : Transfer} (ht : t ∈ transfers stats) (hu : u ∈ transfers stats)
    (same : t.slot = u.slot) : t = u := by
  obtain ⟨rclass, found, key⟩ := mem_transfers.mp ht
  obtain ⟨rclass', found', key'⟩ := mem_transfers.mp hu
  obtain ⟨cls, reg, idx⟩ := t
  obtain ⟨cls', reg', idx'⟩ := u
  simp only [Transfer.slot, Slot.mk.injEq] at same found found' key key'
  obtain ⟨rfl, rfl⟩ := same
  obtain rfl := Option.some.inj (found.symm.trans found')
  obtain rfl := Option.some.inj (key.symm.trans key')
  rfl

theorem cell_determines {t u : Transfer} (ht : t ∈ transfers stats) (hu : u ∈ transfers stats)
    (same : t.cell = u.cell) : t = u := by
  obtain ⟨rclass, found, key⟩ := mem_transfers.mp ht
  obtain ⟨rclass', found', key'⟩ := mem_transfers.mp hu
  obtain ⟨cls, reg, idx⟩ := t
  obtain ⟨cls', reg', idx'⟩ := u
  simp only [Transfer.cell, Cell.mk.injEq] at same found found' key key'
  obtain ⟨rfl, rfl⟩ := same
  obtain rfl := Option.some.inj (found.symm.trans found')
  have bound := (List.getElem?_eq_some_iff.mp key).1
  have bound' := (List.getElem?_eq_some_iff.mp key').1
  have rank : idx = idx' := (List.getElem?_inj bound rclass.regs.keys_nodup).mp (key.trans key'.symm)
  subst rank
  rfl

/-- The registers of a class with the variables they live in. -/
def classBindings (rclass : RegisterClass) (cls : Nat) : List (Register × Cell) :=
  rclass.regs.entries.flatMap fun e => (e.1 :: e.2).map fun r => (r, ⟨cls, e.1⟩)

/-- Every register with the variable it lives in, in insertion order. -/
def bindings (stats : RegisterStats) : List (Register × Cell) :=
  stats.zipIdx.flatMap fun e => classBindings e.1 e.2

theorem registerMap_eq (stats : RegisterStats) :
    registerMap stats =
      (bindings stats).foldl (fun rmap e => rmap.tryEmplace e.1 e.2) .empty := by
  simp only [registerMap, bindings, classBindings, List.foldl_flatMap, List.foldl_map, List.foldl_cons]

theorem bindings_registers (stats : RegisterStats) :
    (bindings stats).map Prod.fst = stats.flatMap RegisterClass.members := by
  have perClass : ∀ e : RegisterClass × Nat, (classBindings e.1 e.2).map Prod.fst = e.1.members := by
    intro e
    simp [classBindings, RegisterClass.members, List.map_flatMap, Function.comp_def]
  simp only [bindings, List.map_flatMap, perClass]
  calc stats.zipIdx.flatMap (fun e => e.1.members)
      = (stats.zipIdx.map Prod.fst).flatMap RegisterClass.members := by rw [List.flatMap_map]
    _ = stats.flatMap RegisterClass.members := by rw [List.zipIdx_map_fst]

theorem find_of_unique (member : (r, c) ∈ bindings stats)
    (unique : ∀ c', (r, c') ∈ bindings stats → c' = c) : (registerMap stats).find r = some c := by
  rw [registerMap_eq, OrderedMap.find_foldl_tryEmplace, OrderedMap.find_empty, Option.none_or]
  exact EntryList.lookup_of_mem member unique

theorem find_of_binding (disjoint : stats.Disjoint) (member : (r, c) ∈ bindings stats) :
    (registerMap stats).find r = some c := by
  have nodup : ((bindings stats).map Prod.fst).Nodup := bindings_registers stats ▸ disjoint
  refine find_of_unique member fun c' other => ?_
  exact congrArg Prod.snd (List.inj_on_of_nodup_map nodup other member rfl)

theorem binding_of_find (found : (registerMap stats).find r = some c) : (r, c) ∈ bindings stats := by
  rw [registerMap_eq, OrderedMap.find_foldl_tryEmplace, OrderedMap.find_empty, Option.none_or] at found
  obtain ⟨before, after, split, -⟩ := List.lookup_eq_some_iff.mp found
  simp [split]

/-- A register's variable is the one of a register of its class. -/
theorem transfer_of_find (found : (registerMap stats).find r = some c) :
    ∃ t ∈ transfers stats, t.cell = c := by
  obtain ⟨⟨rclass, cls⟩, hcls, inner⟩ := List.mem_flatMap.mp (binding_of_find found)
  obtain ⟨⟨reg, subregs⟩, hreg, mapped⟩ := List.mem_flatMap.mp inner
  obtain ⟨r', -, same⟩ := List.mem_map.mp mapped
  obtain ⟨idx, bound, key⟩ := List.getElem_of_mem (List.mem_map_of_mem (f := Prod.fst) hreg)
  refine ⟨⟨cls, reg, idx⟩, mem_transfers.mpr ⟨rclass, ?_, ?_⟩, congrArg Prod.snd same⟩
  · exact (List.mem_zipIdx_iff_getElem?.mp hcls)
  · exact List.getElem?_eq_some_iff.mpr ⟨bound, key⟩

theorem mem_members {rclass : RegisterClass} {r : Register} :
    (rclass.regs.contains r || rclass.regs.entries.any (fun e => e.2.contains r)) = true ↔
      r ∈ rclass.members := by
  simp only [RegisterClass.members, List.mem_flatMap, List.mem_cons, Bool.or_eq_true,
    OrderedMap.contains_iff, OrderedMap.keys, List.mem_map, List.any_eq_true, List.contains_iff_mem]
  constructor
  · rintro (⟨e, inside, rfl⟩ | ⟨e, inside, sub⟩)
    · exact ⟨e, inside, .inl rfl⟩
    · exact ⟨e, inside, .inr sub⟩
  · rintro ⟨e, inside, rfl | sub⟩
    · exact .inl ⟨e, inside, rfl⟩
    · exact .inr ⟨e, inside, sub⟩

theorem mem_classBindings {rclass : RegisterClass} {cls : Nat} {r : Register} {c : Cell}
    (member : (r, c) ∈ classBindings rclass cls) : c.cls = cls ∧ r ∈ rclass.members := by
  obtain ⟨entry, inside, mapped⟩ := List.mem_flatMap.mp member
  obtain ⟨r', listed, same⟩ := List.mem_map.mp mapped
  obtain ⟨rfl, rfl⟩ := Prod.mk.inj same
  exact ⟨rfl, List.mem_flatMap.mpr ⟨entry, inside, listed⟩⟩

theorem classBindings_of_mem {rclass : RegisterClass} {r : Register} (member : r ∈ rclass.members)
    (cls : Nat) : ∃ c, (r, c) ∈ classBindings rclass cls := by
  obtain ⟨entry, inside, listed⟩ := List.mem_flatMap.mp member
  exact ⟨_, List.mem_flatMap.mpr ⟨entry, inside, List.mem_map.mpr ⟨r, listed, rfl⟩⟩⟩

/-- The first class with a binding for a register is the first class that has it. -/
theorem search_class (classes : List RegisterClass) (k : Nat)
    (bound : ((classes.zipIdx k).flatMap fun e => classBindings e.1 e.2).lookup r = some c) :
    ∃ rclass, k ≤ c.cls ∧ classes[c.cls - k]? = some rclass ∧
      RegisterStats.getRegisterClassFor classes r = some rclass := by
  induction classes generalizing k with
  | nil => simp at bound
  | cons rclass rest ih =>
    rw [List.zipIdx_cons, List.flatMap_cons, List.lookup_append] at bound
    obtain here | ⟨absent, later⟩ := Option.or_eq_some_iff.mp bound
    · obtain ⟨before, after, split, -⟩ := List.lookup_eq_some_iff.mp here
      obtain ⟨rfl, member⟩ : c.cls = k ∧ r ∈ rclass.members :=
        mem_classBindings (split ▸ List.mem_append_right _ List.mem_cons_self)
      exact ⟨rclass, Nat.le_refl _, by simp, List.find?_cons_of_pos (mem_members.mpr member)⟩
    · obtain ⟨rclass', above, found, first⟩ := ih (k + 1) later
      refine ⟨rclass', by omega, ?_, (List.find?_cons_of_neg fun listed => ?_).trans first⟩
      · rw [show c.cls - k = c.cls - (k + 1) + 1 by omega]
        exact found
      · obtain ⟨c', member⟩ := classBindings_of_mem (mem_members.mp listed) k
        simpa using List.lookup_eq_none_iff.mp absent _ member

/-- The register map and the search for a register's class agree. -/
theorem class_of_find (found : (registerMap stats).find r = some c) :
    ∃ rclass, stats[c.cls]? = some rclass ∧ stats.getRegisterClassFor r = some rclass := by
  rw [registerMap_eq, OrderedMap.find_foldl_tryEmplace, OrderedMap.find_empty, Option.none_or] at found
  obtain ⟨rclass, -, here, first⟩ := search_class stats 0 found
  exact ⟨rclass, here, first⟩

theorem key_binding (found : stats[cls]? = some rclass) (member : reg ∈ rclass.regs.keys) :
    (reg, (⟨cls, reg⟩ : Cell)) ∈ bindings stats := by
  obtain ⟨e, inside, rfl⟩ := List.mem_map.mp member
  refine List.mem_flatMap.mpr ⟨(rclass, cls), List.mem_zipIdx_iff_getElem?.mpr found, ?_⟩
  exact List.mem_flatMap.mpr ⟨e, inside, List.mem_map.mpr ⟨e.1, List.mem_cons_self, rfl⟩⟩

theorem find_key (disjoint : stats.Disjoint) (found : stats[cls]? = some rclass)
    (member : reg ∈ rclass.regs.keys) : (registerMap stats).find reg = some ⟨cls, reg⟩ :=
  find_of_binding disjoint (key_binding found member)

/-- The variable the map has for a register. -/
def variableOf (stats : RegisterStats) (reg : Register) : Cell :=
  ((registerMap stats).find reg).getD ⟨0, reg⟩

/-- Every register of a class is in the map, whatever other classes list. -/
theorem find_variable {rclass : RegisterClass} (listed : rclass ∈ stats) (member : reg ∈ rclass.regs.keys) :
    (registerMap stats).find reg = some (variableOf stats reg) := by
  obtain ⟨cls, found⟩ := List.mem_iff_getElem?.mp listed
  cases here : (registerMap stats).find reg with
  | some c => rw [variableOf, here, Option.getD_some]
  | none =>
    rw [registerMap_eq, OrderedMap.find_foldl_tryEmplace, OrderedMap.find_empty, Option.none_or] at here
    simpa using List.lookup_eq_none_iff.mp here _ (key_binding found member)

/-- Filtering the whole map by a class and renumbering gives the class's own
enumeration: subregister entries shift no index. -/
theorem classEntries_keys {rclass : RegisterClass} (listed : rclass ∈ stats) :
    classEntries (registerMap stats) rclass =
      rclass.regs.keys.zipIdx.map fun (reg, idx) => ((reg, variableOf stats reg), idx) := by
  have entry : ∀ e ∈ (registerMap stats).entries.filter (fun e => rclass.regs.contains e.1),
      e = (e.1, variableOf stats e.1) := by
    intro e member
    obtain ⟨inside, -⟩ := List.mem_filter.mp member
    rw [variableOf, OrderedMap.find_of_mem inside, Option.getD_some]
  have keys : ((registerMap stats).entries.filter (fun e => rclass.regs.contains e.1)).map Prod.fst =
      rclass.regs.keys := by
    have covered : ∀ k ∈ rclass.regs.keys, k ∈ (registerMap stats).keys :=
      fun k member => OrderedMap.mem_keys_iff.mpr ⟨_, find_variable listed member⟩
    have test : (fun e : Register × Cell => rclass.regs.contains e.1) =
        (fun k => decide (k ∈ rclass.regs.keys)) ∘ Prod.fst := by
      funext e
      rw [Bool.eq_iff_iff]
      simp
    rw [test, ← List.filter_map]
    exact OrderedMap.filter_keys_eq (registerMap stats) rclass.regs.keys_sorted covered
  have whole : (registerMap stats).entries.filter (fun e => rclass.regs.contains e.1) =
      rclass.regs.keys.map fun reg => (reg, variableOf stats reg) := by
    rw [← keys, List.map_map]
    exact (List.map_congr_left entry).symm.trans (List.map_id _) |>.symm
  rw [classEntries, whole, List.zipIdx_map]
  rfl

/-- Where no register is listed twice each one has the variable of its own class. -/
theorem classEntries_eq (disjoint : stats.Disjoint) (found : stats[cls]? = some rclass) :
    classEntries (registerMap stats) rclass =
      rclass.regs.keys.zipIdx.map fun (reg, idx) => ((reg, ⟨cls, reg⟩), idx) := by
  rw [classEntries_keys (List.mem_of_getElem? found)]
  refine List.map_congr_left fun (reg, idx) member => ?_
  have key : reg ∈ rclass.regs.keys := List.fst_mem_of_mem_zipIdx member
  simp only [variableOf, find_key disjoint found key, Option.getD_some]

end Bleach
