import Bleach.Base.Numbered
import Bleach.Lifter.RegisterStats

/-! Where the loop over the subregister classes lists each register: which pairs the zip
makes, and what becomes of the classes that are erased. -/
namespace Bleach

namespace RegisterStats

/-- The class a name stands for: the first one. -/
def classNamed (stats : RegisterStats) (name : String) : Option RegisterClass :=
  stats.find? (·.name = name)

def position (stats : RegisterStats) (name : String) : Option Nat := stats.findIdx? (·.name = name)

/-- `reg` is in the entry `c.reg` of class `c.cls`, as its key or as a subregister. -/
def Lists (stats : RegisterStats) (reg : Register) (c : Cell) : Prop :=
  ∃ rclass, stats[c.cls]? = some rclass ∧ ∃ subregs, (c.reg, subregs) ∈ rclass.regs.entries ∧
    (reg = c.reg ∨ reg ∈ subregs)

theorem mem_bindings {stats : RegisterStats} {reg : Register} {c : Cell} :
    (reg, c) ∈ bindings stats ↔ stats.Lists reg c := by
  simp only [bindings, classBindings, List.mem_flatMap, List.mem_map, Lists]
  constructor
  · rintro ⟨⟨rclass, cls⟩, inside, ⟨key, subregs⟩, entry, r, listed, same⟩
    obtain ⟨rfl, rfl⟩ := Prod.mk.inj same
    exact ⟨rclass, List.mem_zipIdx_iff_getElem?.mp inside, subregs, entry, List.mem_cons.mp listed⟩
  · rintro ⟨rclass, found, subregs, entry, listed⟩
    exact ⟨(rclass, c.cls), List.mem_zipIdx_iff_getElem?.mpr found, (c.reg, subregs), entry, reg,
      List.mem_cons.mpr listed, rfl⟩

/-- A register with one entry lives in the variable of the entry's key. -/
theorem find_of_once {stats : RegisterStats} {reg : Register} {c : Cell} (listed : stats.Lists reg c)
    (once : ∀ c', stats.Lists reg c' → c' = c) : (registerMap stats).find reg = some c :=
  find_of_unique (mem_bindings.mpr listed) fun c' member => once c' (mem_bindings.mp member)

/-- Registers are listed once when no entry repeats one and each has at most one entry. -/
theorem disjoint_of_entries {stats : RegisterStats}
    (entries : ∀ rclass ∈ stats, ∀ e ∈ rclass.regs.entries, (e.1 :: e.2).Nodup)
    (once : ∀ reg c c', stats.Lists reg c → stats.Lists reg c' → c = c') : stats.Disjoint := by
  have nodup : (bindings stats).Nodup := by
    rw [bindings, List.nodup_flatMap]
    constructor
    · rintro ⟨rclass, cls⟩ member
      have inside := List.fst_mem_of_mem_zipIdx member
      rw [classBindings, List.nodup_flatMap]
      constructor
      · intro e entry
        exact (entries rclass inside e entry).map fun _ _ same => congrArg Prod.fst same
      · refine rclass.regs.sorted.imp fun {e e'} below => ?_
        rintro ⟨reg, c⟩ here there
        obtain ⟨_, -, same⟩ := List.mem_map.mp here
        obtain ⟨_, -, same'⟩ := List.mem_map.mp there
        cases same
        exact below.ne (congrArg (fun b : Register × Cell => b.2.reg) same'.symm)
    · refine List.pairwise_iff_getElem.mpr fun j k _ _ below => ?_
      rw [List.getElem_zipIdx, List.getElem_zipIdx]
      rintro ⟨reg, c⟩ here there
      obtain ⟨_, -, here⟩ := List.mem_flatMap.mp here
      obtain ⟨_, -, there⟩ := List.mem_flatMap.mp there
      obtain ⟨_, -, same⟩ := List.mem_map.mp here
      obtain ⟨_, -, same'⟩ := List.mem_map.mp there
      cases same
      have cls : k = j := by simpa using congrArg (fun b : Register × Cell => b.2.cls) same'
      exact below.ne cls.symm
  rw [Disjoint, ← bindings_registers]
  refine nodup.map_on ?_
  rintro ⟨reg, c⟩ member ⟨reg', c'⟩ member' rfl
  rw [once reg c c' (mem_bindings.mp member) (mem_bindings.mp member')]

end RegisterStats

/-- Every register the program uses has one entry, every register of a subregister class
is listed in the class it aliases under the register it is part of, and a listed
register has the variable of the register it is listed under. -/
structure SharesStorage (partOf : Register → Register → Prop) (start : RegisterStats)
    (subregs : List (String × String)) (used : List Register) (stats : RegisterStats) : Prop where
  once : ∀ reg ∈ used, ∃! c, stats.Lists reg c
  own : ∀ subclass aliasto, (subclass, aliasto) ∈ subregs → ∀ sub, start.classNamed subclass = some sub →
    ∀ reg ∈ sub.regs.keys, ∃ rclass ∈ stats, rclass.name = aliasto ∧
      ∃ super subs, (super, subs) ∈ rclass.regs.entries ∧ reg ∈ subs ∧ partOf reg super
  same : ∀ reg ∈ used, ∀ super ∈ used, ∀ k, stats.Lists reg ⟨k, super⟩ →
    (registerMap stats).find reg = some ⟨k, super⟩ ∧ (registerMap stats).find super = some ⟨k, super⟩

/-- No subregister class aliases another one, and each of its registers stands, in it or
in another subregister class of the same class, at the position of its superregister. -/
def Paired (partOf : Register → Register → Prop) (start : RegisterStats)
    (subregs : List (String × String)) : Prop :=
  ∀ subclass aliasto, (subclass, aliasto) ∈ subregs → ∀ sub, start.classNamed subclass = some sub →
    aliasto ∉ subregs.map Prod.fst ∧ ∃ rclass, start.classNamed aliasto = some rclass ∧
      ∀ reg ∈ sub.regs.keys, ∃ subclass' sub', ∃ i : Nat, ∃ super, (subclass', aliasto) ∈ subregs ∧
        start.classNamed subclass' = some sub' ∧ sub'.regs.keys[i]? = some reg ∧
          rclass.regs.keys[i]? = some super ∧ partOf reg super

/-- Where a register goes: registers of a subregister class to the register at their
position in the class it aliases, if there is one, the others stay. -/
inductive Place (start : RegisterStats) (subregs : List (String × String)) (reg : Register) : Cell → Prop where
  | stays {k rclass} (found : start[k]? = some rclass) (member : reg ∈ rclass.regs.keys)
      (other : ¬ (rclass.name ∈ subregs.map Prod.fst ∧ start.position rclass.name = some k)) :
      Place start subregs reg ⟨k, reg⟩
  | moves {subclass aliasto sub rclass super} {k i : Nat} (entry : (subclass, aliasto) ∈ subregs)
      (named : start.classNamed subclass = some sub) (first : start.position aliasto = some k)
      (found : start[k]? = some rclass) (here : sub.regs.keys[i]? = some reg)
      (there : rclass.regs.keys[i]? = some super) : Place start subregs reg ⟨k, super⟩

/-- No used register is in two classes from which it goes to different places. -/
def OnePlace (start : RegisterStats) (subregs : List (String × String)) (used : List Register) : Prop :=
  ∀ reg ∈ used, ∀ c c', Place start subregs reg c → Place start subregs reg c' → c = c'

theorem mapIdx_keys (keys : List Register) (lists : Nat → List Register) :
    (keys.mapIdx fun i key => (key, lists i)).map Prod.fst = keys := by
  refine List.ext_getElem? fun i => ?_
  rw [List.getElem?_map, List.getElem?_mapIdx, Option.map_map]
  exact Option.map_id'

theorem pushSubregs_mapIdx (keys : List Register) (lists : Nat → List Register) (subs : List Register) :
    pushSubregs (keys.mapIdx fun i key => (key, lists i)) subs =
      keys.mapIdx fun i key => (key, lists i ++ subs[i]?.toList) := by
  induction keys generalizing lists subs with
  | nil => simp [pushSubregs]
  | cons key rest ih =>
    cases subs with
    | nil => simp [pushSubregs]
    | cons sub more =>
      rw [List.mapIdx_cons, List.mapIdx_cons, pushSubregs, ih]
      simp

section
variable (start : RegisterStats)

/-- What has been listed at position `i` of class `k`. -/
def listedAt (done : List (String × String)) (k i : Nat) : List Register :=
  done.filterMap fun e => if start.position e.2 = some k then
    (start.classNamed e.1).bind fun sub => sub.regs.keys[i]? else none

def remains (done : List (String × String)) (e : RegisterClass × Nat) : Bool :=
  !((done.map Prod.fst).contains e.1.name && start.position e.1.name == some e.2)

def extended (done : List (String × String)) (e : RegisterClass × Nat) : RegisterClass :=
  { e.1 with regs := ⟨e.1.regs.keys.mapIdx fun i key => (key, listedAt start done e.2 i), by
      have sorted := e.1.regs.keys_sorted
      rw [← mapIdx_keys e.1.regs.keys (listedAt start done e.2)] at sorted
      exact List.pairwise_map.mp sorted⟩ }

/-- The classes after the subregister classes `done`. -/
def merged (done : List (String × String)) : RegisterStats :=
  Numbered.kept (remains start done) (extended start done) start

variable {start} {done : List (String × String)}

theorem extended_keys (e : RegisterClass × Nat) : (extended start done e).regs.keys = e.1.regs.keys :=
  mapIdx_keys _ _

theorem listedAt_append (e : String × String) (k i : Nat) :
    listedAt start (done ++ [e]) k i = listedAt start done k i ++
      (if start.position e.2 = some k then (start.classNamed e.1).bind fun sub => sub.regs.keys[i]?
        else none).toList := by
  rw [listedAt, listedAt, List.filterMap_append]
  congr 1

theorem classNamed_of_position {name : String} {k : Nat} (first : start.position name = some k) :
    ∃ rclass, start[k]? = some rclass ∧ rclass.name = name ∧ start.classNamed name = some rclass := by
  obtain ⟨inside, named, -⟩ := List.findIdx?_eq_some_iff_getElem.mp first
  refine ⟨start[k], List.getElem?_eq_getElem inside, of_decide_eq_true named, ?_⟩
  rw [RegisterStats.classNamed, List.find?_eq_bind_findIdx?_getElem?]
  rw [RegisterStats.position] at first
  rw [first]
  exact List.getElem?_eq_getElem inside

theorem classNamed_of_position_none {name : String} (absent : start.position name = none) :
    start.classNamed name = none := by
  rw [RegisterStats.classNamed, List.find?_eq_bind_findIdx?_getElem?]
  rw [RegisterStats.position] at absent
  rw [absent]
  rfl

theorem remains_append (e : String × String) (c : RegisterClass × Nat) :
    remains start (done ++ [e]) c =
      (remains start done c && !(c.1.name == e.1 && start.position e.1 == some c.2)) := by
  by_cases same : c.1.name = e.1
  · by_cases here : start.position e.1 = some c.2 <;> simp [remains, same, here]
  · rw [Bool.eq_iff_iff]
    simp [remains, same]

theorem mergeSubregs_merged {subclass aliasto : String} (once : subclass ∉ done.map Prod.fst)
    (flat : (start.position subclass).isSome → aliasto ∉ (done ++ [(subclass, aliasto)]).map Prod.fst ∧
      (start.position aliasto).isSome) :
    mergeSubregs (merged start done) (subclass, aliasto) = merged start (done ++ [(subclass, aliasto)]) := by
  have names : ∀ name e, decide ((extended start done e).name = name) = decide (e.1.name = name) :=
    fun _ _ => rfl
  cases first : start.position subclass with
  | none =>
    have missed : (merged start done).find? (·.name = subclass) = none :=
      Numbered.find?_kept_none (names subclass) first
    rw [mergeSubregs, missed]
    refine Numbered.kept_congr (fun e _ => ?_) (fun e _ _ => ?_)
    · rw [remains_append, first]
      simp
    · simp only [extended, listedAt_append, classNamed_of_position_none first, Option.bind_none, ite_self,
        Option.toList_none, List.append_nil]
  | some a =>
    obtain ⟨sub, found, named, lookup⟩ := classNamed_of_position first
    obtain ⟨other, present⟩ := flat (first ▸ rfl)
    obtain ⟨b, second⟩ := Option.isSome_iff_exists.mp present
    obtain ⟨rclass, found', named', -⟩ := classNamed_of_position second
    rw [List.map_append, List.mem_append, not_or] at other
    have stays : remains start done (sub, a) = true := by simp [remains, named, once]
    have stays' : remains start done (rclass, b) = true := by simp [remains, named', other.1]
    have hit : (merged start done).find? (·.name = subclass) = some (extended start done (sub, a)) :=
      Numbered.find?_kept (names subclass) first found stays
    have hit' : (merged start done).find? (·.name = aliasto) = some (extended start done (rclass, b)) :=
      Numbered.find?_kept (names aliasto) second found' stays'
    have known : (merged start done).any (·.name = aliasto) = true :=
      List.any_eq_true.mpr ⟨_, List.mem_of_find?_eq_some hit', decide_eq_true named'⟩
    have pushed : (merged start done).lookmap (fun rclass =>
        if rclass.name = aliasto then some (rclass.pushSubregs sub.regs.keys) else none) =
          Numbered.kept (remains start done) (fun e => if e.2 = b then
            (extended start done e).pushSubregs sub.regs.keys else extended start done e) start := by
      have step := Numbered.lookmap_kept
        (p := fun rclass : RegisterClass => decide (rclass.name = aliasto)) (names aliasto)
        (RegisterClass.pushSubregs · sub.regs.keys) second found' stays'
      simp only [decide_eq_true_eq] at step
      exact step
    have erased := @Numbered.eraseP_kept _ _ start _ _ (remains start done)
      (fun e => if e.2 = b then (extended start done e).pushSubregs sub.regs.keys else extended start done e)
      (fun rclass => rclass.name = subclass) (fun e => by split <;> rfl) first sub found stays
    rw [mergeSubregs, hit]
    dsimp only
    rw [if_pos known, extended_keys, pushed, erased]
    refine Numbered.kept_congr (fun e member => ?_) (fun e _ _ => ?_)
    · rw [remains_append, first]
      by_cases here : e.2 = a
      · have same : e.1 = sub := Option.some.inj
          ((List.mem_zipIdx_iff_getElem?.mp member).symm.trans (here ▸ found))
        simp [here, same, named]
      · have apart : (e.2 != a) = true := bne_iff_ne.mpr here
        have apart' : (a == e.2) = false := beq_eq_false_iff_ne.mpr (Ne.symm here)
        simp [apart, apart']
    · by_cases here : e.2 = b
      · rw [if_pos here]
        simp only [extended, RegisterClass.pushSubregs, pushSubregs_mapIdx, listedAt_append, second, here,
          if_true, lookup, Option.bind_some]
      · rw [if_neg here]
        simp only [extended, listedAt_append, second, Option.some.injEq, if_neg (Ne.symm here),
          Option.toList_none, List.append_nil]

/-- The class lists no subregister yet. -/
def Bare (rclass : RegisterClass) : Prop := ∀ e ∈ rclass.regs.entries, e.2 = []

theorem merged_nil (bare : ∀ rclass ∈ start, Bare rclass) : merged start [] = start := by
  have same : ∀ e ∈ start.zipIdx, extended start [] e = e.1 := by
    intro e member
    have entries : (e.1.regs.keys.mapIdx fun i key => (key, listedAt start [] e.2 i)) = e.1.regs.entries := by
      rw [OrderedMap.keys]
      refine List.ext_getElem? fun i => ?_
      rw [List.getElem?_mapIdx, List.getElem?_map, Option.map_map]
      cases found : e.1.regs.entries[i]? with
      | none => rfl
      | some entry =>
        have empty := bare e.1 (List.fst_mem_of_mem_zipIdx member) entry (List.mem_of_getElem? found)
        exact congrArg some (Prod.ext rfl empty.symm)
    simp only [extended, entries]
  rw [merged, Numbered.kept, List.filter_eq_self.mpr fun e _ => by simp [remains], List.map_congr_left same,
    List.zipIdx_map_fst]

/-- No subregister class aliases another one or a class that is not there. -/
def Flat (start : RegisterStats) (subregs : List (String × String)) : Prop :=
  ∀ e ∈ subregs, (start.position e.1).isSome →
    e.2 ∉ subregs.map Prod.fst ∧ (start.position e.2).isSome

theorem mergeSubregs_rest {order : List (String × String)} (unique : (order.map Prod.fst).Nodup)
    (flat : Flat start order) {rest done : List (String × String)} (split : order = done ++ rest) :
    rest.foldl mergeSubregs (merged start done) = merged start order := by
  induction rest generalizing done with
  | nil => rw [split, List.append_nil, List.foldl_nil]
  | cons e rest ih =>
    have once : e.1 ∉ done.map Prod.fst := fun earlier => by
      rw [split, List.map_append, List.nodup_append] at unique
      exact unique.2.2 _ earlier _ List.mem_cons_self rfl
    have here := flat e (by simp [split])
    have part : (done ++ [e]).map Prod.fst ⊆ order.map Prod.fst := by
      simp [split]
    rw [List.foldl_cons, mergeSubregs_merged once fun present =>
      ⟨fun member => (here present).1 (part member), (here present).2⟩]
    exact ih (by simp [split])

theorem mergeSubregs_run (bare : ∀ rclass ∈ start, Bare rclass) {order : List (String × String)}
    (unique : (order.map Prod.fst).Nodup) (flat : Flat start order) :
    order.foldl mergeSubregs start = merged start order := by
  have run := mergeSubregs_rest unique flat (List.nil_append order).symm
  rwa [merged_nil bare] at run

theorem mem_listedAt {k i : Nat} {reg : Register} :
    reg ∈ listedAt start done k i ↔ ∃ subclass aliasto sub, (subclass, aliasto) ∈ done ∧
      start.position aliasto = some k ∧ start.classNamed subclass = some sub ∧
        sub.regs.keys[i]? = some reg := by
  rw [listedAt, List.mem_filterMap]
  constructor
  · rintro ⟨⟨subclass, aliasto⟩, entry, listed⟩
    split at listed
    · rename_i first
      obtain ⟨sub, named, here⟩ := Option.bind_eq_some_iff.mp listed
      exact ⟨subclass, aliasto, sub, entry, first, named, here⟩
    · cases listed
  · rintro ⟨subclass, aliasto, sub, entry, first, named, here⟩
    exact ⟨(subclass, aliasto), entry, by simp [first, named, here]⟩

theorem mem_extended {e : RegisterClass × Nat} {super : Register} {subs : List Register} :
    (super, subs) ∈ (extended start done e).regs.entries ↔
      ∃ i, e.1.regs.keys[i]? = some super ∧ subs = listedAt start done e.2 i := by
  rw [extended, List.mem_mapIdx]
  constructor
  · rintro ⟨i, below, same⟩
    obtain ⟨rfl, rfl⟩ := Prod.mk.inj same
    exact ⟨i, List.getElem?_eq_getElem below, rfl⟩
  · rintro ⟨i, here, rfl⟩
    obtain ⟨below, rfl⟩ := List.getElem?_eq_some_iff.mp here
    exact ⟨i, below, rfl⟩

theorem remains_iff {rclass : RegisterClass} {k : Nat} : remains start done (rclass, k) = true ↔
    ¬ (rclass.name ∈ done.map Prod.fst ∧ start.position rclass.name = some k) := by
  rw [remains, Bool.not_eq_true', ← Bool.not_eq_true, Bool.and_eq_true, List.contains_iff_mem, beq_iff_eq]

/-- The entries of the class that was at `k` are the places in class `k`. -/
theorem lists_merged {j k : Nat} {rclass : RegisterClass} {reg super : Register}
    (kept : (start.zipIdx.filter (remains start done))[j]? = some (rclass, k)) :
    (merged start done).Lists reg ⟨j, super⟩ ↔ Place start done reg ⟨k, super⟩ := by
  obtain ⟨inside, rest⟩ := List.mem_filter.mp (List.mem_of_getElem? kept)
  have found : start[k]? = some rclass := List.mem_zipIdx_iff_getElem?.mp inside
  have here : (merged start done)[j]? = some (extended start done (rclass, k)) := by
    rw [merged, Numbered.kept, List.getElem?_map, kept]
    rfl
  constructor
  · rintro ⟨rclass', found', subs, entry, listed⟩
    obtain rfl := Option.some.inj (here.symm.trans found')
    obtain ⟨i, there, rfl⟩ := mem_extended.mp entry
    rcases listed with same | listed
    · cases same
      exact .stays found (List.mem_of_getElem? there) (remains_iff.mp rest)
    · obtain ⟨subclass, aliasto, sub, member, first, named, position⟩ := mem_listedAt.mp listed
      exact .moves member named first found position there
  · intro place
    cases place with
    | stays found' member other =>
      obtain rfl := Option.some.inj (found.symm.trans found')
      obtain ⟨i, there⟩ := List.mem_iff_getElem?.mp member
      exact ⟨_, here, _, mem_extended.mpr ⟨i, there, rfl⟩, .inl rfl⟩
    | moves member named first found' position there =>
      obtain rfl := Option.some.inj (found.symm.trans found')
      exact ⟨_, here, _, mem_extended.mpr ⟨_, there, rfl⟩,
        .inr (mem_listedAt.mpr ⟨_, _, _, member, first, named, position⟩)⟩

theorem position_of_classNamed {name : String} {rclass : RegisterClass}
    (named : start.classNamed name = some rclass) :
    ∃ k, start.position name = some k ∧ start[k]? = some rclass ∧ rclass.name = name := by
  cases first : start.position name with
  | none => cases named.symm.trans (classNamed_of_position_none first)
  | some k =>
    obtain ⟨rclass', found, same, named'⟩ := classNamed_of_position first
    obtain rfl := Option.some.inj (named.symm.trans named')
    exact ⟨k, rfl, found, same⟩

/-- No place is in a class that is erased. -/
theorem Place.kept (flat : Flat start done) {reg : Register} {c : Cell} (place : Place start done reg c) :
    ∃ (j : Nat) (rclass : RegisterClass),
      (start.zipIdx.filter (remains start done))[j]? = some (rclass, c.cls) := by
  have survives : ∀ (rclass : RegisterClass) (k : Nat), start[k]? = some rclass →
      remains start done (rclass, k) = true → ∃ (j : Nat) (rclass : RegisterClass),
        (start.zipIdx.filter (remains start done))[j]? = some (rclass, k) := by
    intro rclass k found rest
    obtain ⟨j, here⟩ := List.mem_iff_getElem?.mp
      (List.mem_filter.mpr ⟨List.mem_zipIdx_iff_getElem?.mpr found, rest⟩)
    exact ⟨j, rclass, here⟩
  cases place with
  | stays found member other => exact survives _ _ found (remains_iff.mpr other)
  | moves entry named first found here there =>
    obtain ⟨k', first', -, -⟩ := position_of_classNamed named
    obtain ⟨rclass', found', same, -⟩ := classNamed_of_position first
    obtain rfl := Option.some.inj (found.symm.trans found')
    refine survives _ _ found (remains_iff.mpr fun gone => ?_)
    rw [same] at gone
    exact (flat _ entry (by simp [first'])).1 gone.1

theorem kept_of_lists {reg : Register} {c : Cell} (listed : (merged start done).Lists reg c) :
    ∃ (rclass : RegisterClass) (k : Nat),
      (start.zipIdx.filter (remains start done))[c.cls]? = some (rclass, k) := by
  obtain ⟨rclass, found, -⟩ := listed
  rw [merged, Numbered.kept, List.getElem?_map, Option.map_eq_some_iff] at found
  obtain ⟨⟨original, k⟩, kept, -⟩ := found
  exact ⟨original, k, kept⟩

/-- A register has one entry when it has one place. -/
theorem one_entry_iff (flat : Flat start done) (reg : Register) :
    (∀ c c', (merged start done).Lists reg c → (merged start done).Lists reg c' → c = c') ↔
      ∀ c c', Place start done reg c → Place start done reg c' → c = c' := by
  constructor
  · rintro one ⟨k, super⟩ ⟨k', super'⟩ place place'
    obtain ⟨j, rclass, kept⟩ := place.kept flat
    obtain ⟨j', rclass', kept'⟩ := place'.kept flat
    obtain ⟨rfl, rfl⟩ := Cell.mk.inj (one _ _ ((lists_merged kept).mpr place) ((lists_merged kept').mpr place'))
    cases kept.symm.trans kept'
    rfl
  · rintro one ⟨j, super⟩ ⟨j', super'⟩ listed listed'
    obtain ⟨rclass, k, kept⟩ := kept_of_lists listed
    obtain ⟨rclass', k', kept'⟩ := kept_of_lists listed'
    obtain ⟨rfl, rfl⟩ := Cell.mk.inj (one _ _ ((lists_merged kept).mp listed) ((lists_merged kept').mp listed'))
    obtain rfl : j = j' := Numbered.kept_position kept kept'
    rfl

theorem same_class (apart : (start.flatMap fun rclass => rclass.regs.keys).Nodup) {reg : Register} {j k : Nat}
    {rclass rclass' : RegisterClass} (found : start[j]? = some rclass) (found' : start[k]? = some rclass')
    (member : reg ∈ rclass.regs.keys) (member' : reg ∈ rclass'.regs.keys) : j = k := by
  obtain ⟨below, rfl⟩ := List.getElem?_eq_some_iff.mp found
  obtain ⟨below', rfl⟩ := List.getElem?_eq_some_iff.mp found'
  have disjoint := List.pairwise_iff_getElem.mp (List.nodup_flatMap.mp apart).2
  rcases Nat.lt_trichotomy j k with before | same | behind
  · exact (disjoint j k below below' before member member').elim
  · exact same
  · exact (disjoint k j below' below behind member' member).elim

theorem same_named (apart : (start.flatMap fun rclass => rclass.regs.keys).Nodup) {reg : Register}
    {subclass subclass' : String} {sub sub' : RegisterClass} (named : start.classNamed subclass = some sub)
    (named' : start.classNamed subclass' = some sub') (member : reg ∈ sub.regs.keys)
    (member' : reg ∈ sub'.regs.keys) : subclass = subclass' ∧ sub = sub' := by
  obtain ⟨j, -, found, rfl⟩ := position_of_classNamed named
  obtain ⟨k, -, found', rfl⟩ := position_of_classNamed named'
  obtain rfl := same_class apart found found' member member'
  obtain rfl := Option.some.inj (found.symm.trans found')
  exact ⟨rfl, rfl⟩

/-- A register of a subregister class is in no class that remains. -/
theorem moved_away (apart : (start.flatMap fun rclass => rclass.regs.keys).Nodup)
    {subclass aliasto : String} {sub rclass : RegisterClass} {k : Nat} {reg : Register}
    (entry : (subclass, aliasto) ∈ done) (named : start.classNamed subclass = some sub)
    (here : reg ∈ sub.regs.keys) (found : start[k]? = some rclass) (member : reg ∈ rclass.regs.keys) :
    rclass.name ∈ done.map Prod.fst ∧ start.position rclass.name = some k := by
  obtain ⟨a, first, found', rfl⟩ := position_of_classNamed named
  obtain rfl := same_class apart found found' member here
  obtain rfl := Option.some.inj (found.symm.trans found')
  exact ⟨List.mem_map_of_mem entry, first⟩

/-- A register of one class has one place. -/
theorem Place.unique (apart : (start.flatMap fun rclass => rclass.regs.keys).Nodup)
    (once : (done.map Prod.fst).Nodup) {reg : Register} {c c' : Cell} (place : Place start done reg c)
    (place' : Place start done reg c') : c = c' := by
  cases place with
  | stays found member other =>
    cases place' with
    | stays found' member' _ => rw [same_class apart found found' member member']
    | moves entry named first found' here there =>
      exact absurd (moved_away apart entry named (List.mem_of_getElem? here) found member) other
  | moves entry named first found here there =>
    cases place' with
    | stays found' member' other =>
      exact absurd (moved_away apart entry named (List.mem_of_getElem? here) found' member') other
    | moves entry' named' first' found' here' there' =>
      obtain ⟨rfl, rfl⟩ := same_named apart named named' (List.mem_of_getElem? here)
        (List.mem_of_getElem? here')
      cases List.inj_on_of_nodup_map once entry entry' rfl
      obtain rfl := Option.some.inj (first.symm.trans first')
      obtain rfl := Option.some.inj (found.symm.trans found')
      obtain ⟨below, -⟩ := List.getElem?_eq_some_iff.mp here
      obtain rfl := (List.getElem?_inj below (OrderedMap.keys_nodup _)).mp (here.trans here'.symm)
      rw [Option.some.inj (there.symm.trans there')]

/-- Disjoint classes of the config give disjoint classes of `register_state`. -/
theorem merged_disjoint (apart : (start.flatMap fun rclass => rclass.regs.keys).Nodup)
    (once : (done.map Prod.fst).Nodup) (flat : Flat start done) : (merged start done).Disjoint := by
  refine RegisterStats.disjoint_of_entries ?_ fun reg =>
    (one_entry_iff flat reg).mpr fun c c' place place' => place.unique apart once place'
  intro rclass inside e entry
  obtain ⟨⟨original, k⟩, kept, rfl⟩ := List.mem_map.mp inside
  obtain ⟨i, there, lists⟩ := mem_extended.mp entry
  obtain ⟨member, rest⟩ := List.mem_filter.mp kept
  rw [lists, List.nodup_cons]
  constructor
  · intro listed
    obtain ⟨subclass, aliasto, sub, entry', -, named, here⟩ := mem_listedAt.mp listed
    exact remains_iff.mp rest (moved_away apart entry' named (List.mem_of_getElem? here)
      (List.mem_zipIdx_iff_getElem?.mp member) (List.mem_of_getElem? there))
  · refine List.pairwise_filterMap.mpr ((List.pairwise_map.mp once).imp ?_)
    rintro e e' other reg listed _ listed' rfl
    split at listed
    · split at listed'
      · obtain ⟨sub, named, here⟩ := Option.bind_eq_some_iff.mp listed
        obtain ⟨sub', named', here'⟩ := Option.bind_eq_some_iff.mp listed'
        exact other (same_named apart named named' (List.mem_of_getElem? here) (List.mem_of_getElem? here')).1
      · cases listed'
    · cases listed

theorem Paired.flat {partOf : Register → Register → Prop} (paired : Paired partOf start done) :
    Flat start done := by
  rintro ⟨subclass, aliasto⟩ entry present
  obtain ⟨k, first⟩ := Option.isSome_iff_exists.mp present
  obtain ⟨sub, -, -, named⟩ := classNamed_of_position first
  obtain ⟨last, rclass, named', -⟩ := paired subclass aliasto entry sub named
  obtain ⟨k', first', -⟩ := position_of_classNamed named'
  exact ⟨last, by simp [first']⟩

theorem Paired.place {partOf : Register → Register → Prop} (paired : Paired partOf start done)
    {reg : Register} {rclass : RegisterClass} (inside : rclass ∈ start) (member : reg ∈ rclass.regs.keys) :
    ∃ c, Place start done reg c := by
  obtain ⟨k, found⟩ := List.mem_iff_getElem?.mp inside
  by_cases gone : rclass.name ∈ done.map Prod.fst ∧ start.position rclass.name = some k
  · obtain ⟨⟨subclass, aliasto⟩, entry, same⟩ := List.mem_map.mp gone.1
    obtain rfl : subclass = rclass.name := same
    obtain ⟨rclass', found', -, named⟩ := classNamed_of_position gone.2
    obtain rfl := Option.some.inj (found.symm.trans found')
    obtain ⟨-, target, named', all⟩ := paired rclass.name aliasto entry rclass named
    obtain ⟨subclass', sub', i, super, entry', lookup, here, there, -⟩ := all reg member
    obtain ⟨k', first, found'', -⟩ := position_of_classNamed named'
    exact ⟨_, .moves entry' lookup first found'' here there⟩
  · exact ⟨_, .stays found member gone⟩

theorem Paired.shares {partOf : Register → Register → Prop} (paired : Paired partOf start done)
    {used : List Register} (one : OnePlace start done used)
    (known : ∀ reg ∈ used, ∃ rclass ∈ start, reg ∈ rclass.regs.keys) :
    SharesStorage partOf start done used (merged start done) := by
  have single : ∀ reg ∈ used, ∀ c c', (merged start done).Lists reg c →
      (merged start done).Lists reg c' → c = c' := fun reg member =>
    (one_entry_iff paired.flat reg).mpr (one reg member)
  refine ⟨fun reg member => ?_, fun subclass aliasto entry sub named reg member => ?_,
    fun reg member super member' k listed => ?_⟩
  · obtain ⟨rclass, inside, here⟩ := known reg member
    obtain ⟨⟨k, super⟩, place⟩ := paired.place inside here
    obtain ⟨j, rclass', kept⟩ := place.kept paired.flat
    exact ⟨_, (lists_merged kept).mpr place,
      fun c listed => single reg member _ _ listed ((lists_merged kept).mpr place)⟩
  · obtain ⟨-, rclass, named', all⟩ := paired subclass aliasto entry sub named
    obtain ⟨subclass', sub', i, super, entry', lookup, here, there, part⟩ := all reg member
    obtain ⟨k, first, found, same⟩ := position_of_classNamed named'
    obtain ⟨j, rclass', kept⟩ := Place.kept paired.flat (.moves entry' lookup first found here there)
    obtain ⟨inside, -⟩ := List.mem_filter.mp (List.mem_of_getElem? kept)
    obtain rfl := Option.some.inj (found.symm.trans (List.mem_zipIdx_iff_getElem?.mp inside))
    refine ⟨extended start done (rclass, k), List.mem_map_of_mem (List.mem_of_getElem? kept), same, super, _,
      mem_extended.mpr ⟨i, there, rfl⟩, ?_, part⟩
    exact mem_listedAt.mpr ⟨subclass', aliasto, sub', entry', first, lookup, here⟩
  · have key : (merged start done).Lists super ⟨k, super⟩ := by
      obtain ⟨rclass, found, subs, entry, -⟩ := listed
      exact ⟨rclass, found, subs, entry, .inl rfl⟩
    exact ⟨RegisterStats.find_of_once listed fun c' listed' => single reg member _ _ listed' listed,
      RegisterStats.find_of_once key fun c' listed' => single super member' _ _ listed' key⟩

theorem SharesStorage.paired {partOf : Register → Register → Prop} {used : List Register}
    (shares : SharesStorage partOf start done used (merged start done)) (flat : Flat start done) :
    Paired partOf start done := by
  intro subclass aliasto entry sub named
  obtain ⟨k, first, -, -⟩ := position_of_classNamed named
  obtain ⟨last, present⟩ := flat _ entry (by simp [first])
  obtain ⟨k', second⟩ := Option.isSome_iff_exists.mp present
  obtain ⟨rclass, found, -, named'⟩ := classNamed_of_position second
  refine ⟨last, rclass, named', fun reg member => ?_⟩
  obtain ⟨rclass', inside, same, super, subs, listed, here, part⟩ :=
    shares.own subclass aliasto entry sub named reg member
  obtain ⟨⟨original, k''⟩, kept, rfl⟩ := List.mem_map.mp inside
  obtain ⟨i, there, rfl⟩ := mem_extended.mp listed
  obtain ⟨subclass', aliasto', sub', entry', first', lookup, position⟩ := mem_listedAt.mp here
  obtain ⟨original', found', same', -⟩ := classNamed_of_position first'
  obtain rfl := Option.some.inj
    ((List.mem_zipIdx_iff_getElem?.mp (List.mem_filter.mp kept).1).symm.trans found')
  obtain rfl : aliasto' = aliasto := same'.symm.trans same
  obtain rfl := Option.some.inj (second.symm.trans first')
  obtain rfl := Option.some.inj (found.symm.trans found')
  exact ⟨subclass', sub', i, super, entry', lookup, position, there, part⟩

theorem SharesStorage.onePlace {partOf : Register → Register → Prop} {used : List Register}
    (shares : SharesStorage partOf start done used (merged start done)) (flat : Flat start done) :
    OnePlace start done used := by
  intro reg member
  refine (one_entry_iff flat reg).mp fun c c' listed listed' => ?_
  exact (shares.once reg member).unique listed listed'

end

section
variable {stats start : RegisterStats}

/-- Classes are erased and gain subregisters, but keep their names and their own registers. -/
theorem mem_mergeSubregs {e : String × String} {rclass : RegisterClass}
    (member : rclass ∈ mergeSubregs stats e) :
    ∃ original ∈ stats, original.name = rclass.name ∧ original.regs.keys = rclass.regs.keys := by
  obtain ⟨subclass, aliasto⟩ := e
  rw [mergeSubregs] at member
  split at member
  · exact ⟨rclass, member, rfl, rfl⟩
  · split at member
    · rcases Numbered.mem_lookmap (List.mem_of_mem_eraseP member) with same | ⟨original, inside, changed⟩
      · exact ⟨rclass, same, rfl, rfl⟩
      · split at changed
        · cases changed
          exact ⟨original, inside, rfl, (pushSubregs_keys _ _).symm⟩
        · cases changed
    · exact ⟨rclass, member, rfl, rfl⟩

theorem mem_foldl_mergeSubregs {order : List (String × String)} {rclass : RegisterClass}
    (member : rclass ∈ order.foldl mergeSubregs stats) :
    ∃ original ∈ stats, original.name = rclass.name ∧ original.regs.keys = rclass.regs.keys := by
  induction order generalizing stats with
  | nil => exact ⟨rclass, member, rfl, rfl⟩
  | cons e rest ih =>
    obtain ⟨original, inside, name, keys⟩ := ih member
    obtain ⟨original', inside', name', keys'⟩ := mem_mergeSubregs inside
    exact ⟨original', inside', name'.trans name, keys'.trans keys⟩

/-- Of the classes with one name at most the first lists subregisters. -/
def FirstLists (stats : RegisterStats) : Prop :=
  stats.Pairwise fun rclass later => later.name = rclass.name → Bare later

theorem FirstLists.push (first : FirstLists stats) (name : String) (subs : List Register) :
    FirstLists (stats.lookmap fun rclass =>
      if rclass.name = name then some (rclass.pushSubregs subs) else none) := by
  induction stats with
  | nil => exact .nil
  | cons rclass rest ih =>
    obtain ⟨here, later⟩ := List.pairwise_cons.mp first
    by_cases named : rclass.name = name
    · rw [List.lookmap_cons_some _ rest (if_pos named)]
      exact List.pairwise_cons.mpr ⟨here, later⟩
    · rw [List.lookmap_cons_none _ rest (if_neg named)]
      refine List.pairwise_cons.mpr ⟨fun other member same => ?_, ih later⟩
      rcases Numbered.mem_lookmap member with kept | ⟨original, inside, changed⟩
      · exact here other kept same
      · split at changed
        · rename_i hit
          cases changed
          exact absurd (same.symm.trans hit) named
        · cases changed

theorem FirstLists.merge (first : FirstLists stats) (e : String × String) :
    FirstLists (mergeSubregs stats e) := by
  obtain ⟨subclass, aliasto⟩ := e
  rw [mergeSubregs]
  split
  · exact first
  · split
    · exact (first.push aliasto _).sublist List.eraseP_sublist
    · exact first

theorem FirstLists.run (first : FirstLists stats) (order : List (String × String)) :
    FirstLists (order.foldl mergeSubregs stats) := by
  induction order generalizing stats with
  | nil => exact first
  | cons e rest ih => exact ih (first.merge e)

theorem FirstLists.erase (first : FirstLists stats) {name : String} {rclass : RegisterClass}
    (member : rclass ∈ stats.eraseP (·.name = name)) (same : rclass.name = name) : Bare rclass := by
  obtain ⟨erased, before, after, earlier, hit, parts, rest⟩ :=
    List.exists_of_eraseP (p := (·.name = name)) (List.mem_of_mem_eraseP member) (decide_eq_true same)
  rw [rest] at member
  rcases List.mem_append.mp member with early | late
  · exact absurd (decide_eq_true same) (earlier _ early)
  · rw [FirstLists, parts, List.pairwise_append] at first
    exact (List.pairwise_cons.mp first.2.1).1 rclass late (same.trans (of_decide_eq_true hit).symm)

/-- Where the class that a subregister class aliases is itself a key of the map, the
order that takes it last loses what was listed in it. -/
theorem chain_loses {partOf : Register → Register → Prop} {used : List Register}
    (filled : ∀ rclass ∈ start, rclass.regs.keys ≠ [] ∧ Bare rclass) {rest : List (String × String)}
    {subclass aliasto target : String} {sub : RegisterClass}
    (entry : (subclass, aliasto) ∈ rest ++ [(aliasto, target)])
    (named : start.classNamed subclass = some sub) :
    ¬ SharesStorage partOf start (rest ++ [(aliasto, target)]) used
      ((rest ++ [(aliasto, target)]).foldl mergeSubregs start) := by
  intro shares
  have first : FirstLists (rest.foldl mergeSubregs start) := by
    refine FirstLists.run ?_ rest
    exact List.pairwise_of_forall_mem_list fun _ _ later member _ => (filled later member).2
  obtain ⟨reg, member⟩ := List.exists_mem_of_ne_nil _ (filled sub (List.mem_of_find?_eq_some named)).1
  obtain ⟨rclass, inside, same, super, subs, listed, here, -⟩ :=
    shares.own subclass aliasto entry sub named reg member
  have lists : ¬ Bare rclass := fun bare => by
    have empty : subs = [] := bare _ listed
    rw [empty] at here
    cases here
  rw [List.foldl_append, List.foldl_cons, List.foldl_nil] at inside shares
  cases search : (rest.foldl mergeSubregs start).find? (·.name = aliasto) with
  | none =>
    rw [mergeSubregs, search] at inside
    exact absurd (decide_eq_true same) (List.find?_eq_none.mp search rclass inside)
  | some found =>
    have inside' := List.mem_of_find?_eq_some search
    have named' : found.name = aliasto := by simpa using List.find?_some search
    by_cases present : (rest.foldl mergeSubregs start).any (·.name = target) = true
    · rw [mergeSubregs, search] at inside
      simp only [present, if_true] at inside
      exact lists ((first.push target found.regs.keys).erase inside same)
    · obtain ⟨original, member', same', -⟩ := mem_foldl_mergeSubregs inside'
      have known : (start.classNamed aliasto).isSome := by
        rw [RegisterStats.classNamed, List.find?_isSome]
        exact ⟨original, member', decide_eq_true (same'.trans named')⟩
      obtain ⟨super', lookup⟩ := Option.isSome_iff_exists.mp known
      obtain ⟨reg', member'⟩ := List.exists_mem_of_ne_nil _ (filled super' (List.mem_of_find?_eq_some lookup)).1
      obtain ⟨rclass', inside', same', -⟩ := shares.own aliasto target (by simp) super' lookup reg' member'
      rw [mergeSubregs, search] at inside'
      simp only [if_neg present] at inside'
      exact present (List.any_eq_true.mpr ⟨rclass', inside', decide_eq_true same'⟩)

theorem Place.perm {order subregs : List (String × String)} (perm : order.Perm subregs) {reg : Register}
    {c : Cell} (place : Place start order reg c) : Place start subregs reg c := by
  cases place with
  | stays found member other =>
    refine .stays found member fun gone => other ⟨?_, gone.2⟩
    exact (perm.map Prod.fst).mem_iff.mpr gone.1
  | moves entry named first found here there =>
    exact .moves (perm.mem_iff.mp entry) named first found here there

theorem Flat.perm {order subregs : List (String × String)} (perm : order.Perm subregs)
    (flat : Flat start subregs) : Flat start order := fun e entry present =>
  have ⟨last, known⟩ := flat e (perm.mem_iff.mp entry) present
  ⟨fun again => last ((perm.map Prod.fst).mem_iff.mp again), known⟩

theorem Paired.perm {partOf : Register → Register → Prop} {order subregs : List (String × String)}
    (perm : order.Perm subregs) (paired : Paired partOf start subregs) : Paired partOf start order := by
  intro subclass aliasto entry sub named
  obtain ⟨last, rclass, named', all⟩ := paired subclass aliasto (perm.mem_iff.mp entry) sub named
  refine ⟨fun again => last ((perm.map Prod.fst).mem_iff.mp again), rclass, named', fun reg member => ?_⟩
  obtain ⟨subclass', sub', i, super, entry', rest⟩ := all reg member
  exact ⟨subclass', sub', i, super, perm.mem_iff.mpr entry', rest⟩

theorem SharesStorage.perm {partOf : Register → Register → Prop} {order subregs : List (String × String)}
    (perm : order.Perm subregs) {used : List Register}
    (shares : SharesStorage partOf start order used stats) :
    SharesStorage partOf start subregs used stats :=
  ⟨shares.once, fun subclass aliasto entry => shares.own subclass aliasto (perm.mem_iff.mpr entry),
    shares.same⟩

end

/-- No class of `register_state` is empty. -/
theorem collectRegisterStats_populated {rinfo : TargetRegisterInfo} {rclasses : List Regclass}
    {order : List (String × String)} {m : List MachineFunction} {stats : RegisterStats}
    (collected : collectRegisterStats rinfo rclasses order m = .ok stats) :
    ∀ rclass ∈ stats, rclass.regs.entries ≠ [] := by
  obtain ⟨-, rfl⟩ := (collectRegisterStats_ok rinfo rclasses m).mp collected
  intro rclass member empty
  obtain ⟨original, inside, -, keys⟩ := mem_foldl_mergeSubregs member
  refine (mem_filledClasses rinfo rclasses m inside).1 ?_
  rw [keys, OrderedMap.keys, empty, List.map_nil]

/-- Where the classes of the config hold different registers and no subregister class
aliases another, no register is listed twice. -/
theorem collectRegisterStats_disjoint {rinfo : TargetRegisterInfo} {rclasses : List Regclass}
    {subregs : Subregisters} {m : List MachineFunction}
    (apart : ((filledClasses rinfo rclasses m).flatMap fun rclass => rclass.regs.keys).Nodup)
    (flat : Flat (filledClasses rinfo rclasses m) subregs.entries) {order : List (String × String)}
    (perm : order.Perm subregs.entries) {stats : RegisterStats}
    (collected : collectRegisterStats rinfo rclasses order m = .ok stats) : stats.Disjoint := by
  obtain ⟨-, rfl⟩ := (collectRegisterStats_ok rinfo rclasses m).mp collected
  have unique : (order.map Prod.fst).Nodup := (perm.map Prod.fst).nodup_iff.mpr subregs.unique
  rw [mergeSubregs_run (fun rclass member => (mem_filledClasses rinfo rclasses m member).2) unique
    (flat.perm perm)]
  exact merged_disjoint apart unique (flat.perm perm)

/-- In every order of the subregister map every subregister shares storage with its own
superregister exactly when the classes are paired and no used register has two places. -/
theorem subregisters_share_storage (partOf : Register → Register → Prop) (rinfo : TargetRegisterInfo)
    (rclasses : List Regclass) (subregs : Subregisters) (m : List MachineFunction) :
    (∀ order, order.Perm subregs.entries → ∀ stats, collectRegisterStats rinfo rclasses order m = .ok stats →
      SharesStorage partOf (filledClasses rinfo rclasses m) subregs.entries (registersUsed m) stats) ↔
    (Collectable rinfo rclasses m → Paired partOf (filledClasses rinfo rclasses m) subregs.entries ∧
      OnePlace (filledClasses rinfo rclasses m) subregs.entries (registersUsed m)) := by
  have bare : ∀ rclass ∈ filledClasses rinfo rclasses m, Bare rclass := fun rclass member =>
    (mem_filledClasses rinfo rclasses m member).2
  constructor
  · intro all collectable
    have shares : ∀ order, order.Perm subregs.entries → SharesStorage partOf (filledClasses rinfo rclasses m)
        order (registersUsed m) (order.foldl mergeSubregs (filledClasses rinfo rclasses m)) :=
      fun order perm => (all order perm _ ((collectRegisterStats_ok rinfo rclasses m).mpr
        ⟨collectable, rfl⟩)).perm perm.symm
    have flat : Flat (filledClasses rinfo rclasses m) subregs.entries := by
      rintro ⟨subclass, aliasto⟩ entry present
      obtain ⟨k, first⟩ := Option.isSome_iff_exists.mp present
      obtain ⟨sub, -, -, named⟩ := classNamed_of_position first
      constructor
      · intro again
        obtain ⟨⟨aliasto, target⟩, entry', rfl⟩ := List.mem_map.mp again
        have perm : (subregs.entries.erase (aliasto, target) ++ [(aliasto, target)]).Perm subregs.entries :=
          (List.perm_append_singleton _ _).trans (List.perm_cons_erase entry').symm
        exact chain_loses (fun rclass => mem_filledClasses rinfo rclasses m)
          (perm.mem_iff.mpr entry) named (shares _ perm)
      · obtain ⟨reg, member⟩ := List.exists_mem_of_ne_nil _
          (mem_filledClasses rinfo rclasses m (List.mem_of_find?_eq_some named)).1
        obtain ⟨rclass, inside, same, -⟩ := (shares _ (.refl _)).own subclass aliasto entry sub named reg member
        obtain ⟨original, inside', same', -⟩ := mem_foldl_mergeSubregs inside
        rw [RegisterStats.position, List.findIdx?_isSome, List.any_eq_true]
        exact ⟨original, inside', decide_eq_true (same'.trans same)⟩
    have merged := shares _ (.refl _)
    rw [mergeSubregs_run bare subregs.unique flat] at merged
    exact ⟨merged.paired flat, merged.onePlace flat⟩
  · intro condition order perm stats collected
    obtain ⟨collectable, rfl⟩ := (collectRegisterStats_ok rinfo rclasses m).mp collected
    obtain ⟨paired, one⟩ := condition collectable
    have paired' := paired.perm perm
    have unique : (order.map Prod.fst).Nodup := (perm.map Prod.fst).nodup_iff.mpr subregs.unique
    rw [mergeSubregs_run bare unique paired'.flat]
    have one' : OnePlace (filledClasses rinfo rclasses m) order (registersUsed m) :=
      fun reg member c c' place place' => one reg member c c' (place.perm perm) (place'.perm perm)
    exact (paired'.shares one' fun reg used => used_in_class rinfo rclasses m collectable used).perm perm

namespace AArch64

/-- Some of the target's registers, numbered in LLVM's order. -/
def getName : Register → String
  | 2 => "FP" | 3 => "LR" | 5 => "SP" | 7 => "WSP" | 8 => "WZR" | 9 => "XZR"
  | 10 => "W0" | 11 => "W29" | 12 => "W30" | 13 => "X0" | _ => ""

abbrev W0 : Register := 10
abbrev X0 : Register := 13

def partOf (reg super : Register) : Prop :=
  (reg, super) ∈ [(W0, X0), (11, 2), (12, 3), (7, 5), (8, 9)]

instance (reg super : Register) : Decidable (partOf reg super) :=
  inferInstanceAs (Decidable (_ ∈ _))

def gpr64 : Regclass := ⟨"GPR64", "X[0-9][0-9]?|SP|FP|LR|XZR"⟩
def gpr32 : Regclass := ⟨"GPR32", "W[0-9][0-9]?|WSP|WZR"⟩

/-- The names the two expressions match; `SP` is found in `WSP`. -/
def isMatch (regex text : String) : Bool :=
  if regex = gpr64.regex then ["X0", "SP", "FP", "LR", "XZR", "WSP"].contains text
  else ["W0", "W29", "W30", "WSP", "WZR"].contains text

def rinfo : TargetRegisterInfo where
  regclasses := [[X0, 2, 3, 9, 5], [W0, 11, 12, 8, 7]]
  getName := getName
  getRegAsmName := getName
  printOperand _ := ""
  printInstr minst := minst.desc.name
  matchesWhole _ text := !text.isEmpty
  getRegSizeInBits idx := if idx = 0 then 64 else 32
  isMatch := isMatch
  sub regex text :=
    if isMatch regex text then if regex = gpr64.regex ∧ text = "WSP" then "W" else "" else text

/-- One addition on `X0` and one on its lower half. -/
def halves : MachineFunction where
  name := "halves"
  blocks := [[⟨{ name := "ADDXri", numDefs := 1 }, [.reg X0 true false, .reg X0 false false, .imm 1]⟩,
    ⟨{ name := "ADDWri", numDefs := 1 }, [.reg W0 true false, .reg W0 false false, .imm 1]⟩]]

/-- The frame pointer and the link register come before the stack pointer, their lower
halves after the zero register's, so `W0` is listed under `SP`. -/
theorem halves_apart : ∃ stats,
    collectRegisterStats rinfo [gpr64, gpr32] [("GPR32", "GPR64")] [halves] = .ok stats ∧
      ¬ SharesStorage partOf (filledClasses rinfo [gpr64, gpr32] [halves]) [("GPR32", "GPR64")]
        (registersUsed [halves]) stats := by
  have collectable : Collectable rinfo [gpr64, gpr32] [halves] :=
    ⟨by simp, by simp, by decide +kernel, by decide +kernel⟩
  have keys : ((filledClasses rinfo [gpr64, gpr32] [halves]).classNamed "GPR32").map (·.regs.keys) =
      some [7, 8, W0, 11, 12] := by decide +kernel
  obtain ⟨sub, named, members⟩ := Option.map_eq_some_iff.mp keys
  refine ⟨_, (collectRegisterStats_ok rinfo _ _).mpr ⟨collectable, rfl⟩, fun shares => ?_⟩
  obtain ⟨rclass, inside, -, super, subs, listed, here, part⟩ :=
    shares.own "GPR32" "GPR64" (by simp) sub named W0 (by simp [members])
  have wrong : ∀ rclass ∈ [("GPR32", "GPR64")].foldl mergeSubregs
      (filledClasses rinfo [gpr64, gpr32] [halves]),
        ∀ e ∈ rclass.regs.entries, W0 ∈ e.2 → ¬ partOf W0 e.1 := by decide +kernel
  exact wrong rclass inside _ listed here part

end AArch64

end Bleach
