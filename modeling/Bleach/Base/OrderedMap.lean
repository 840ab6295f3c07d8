import Mathlib.Data.List.Sort
import Mathlib.Tactic.Common

/-! Finite maps iterated in increasing key order. The order is a field of the
map, so an iteration never has to argue about it again. -/

structure OrderedMap (K V : Type*) [LinearOrder K] where
  entries : List (K × V)
  sorted : entries.Pairwise (fun a b => a.1 < b.1)

namespace OrderedMap
variable {K V : Type*} [LinearOrder K]

def empty : OrderedMap K V := ⟨[], .nil⟩

def single (k : K) (v : V) : OrderedMap K V := ⟨[(k, v)], List.pairwise_singleton _ _⟩

def keys (m : OrderedMap K V) : List K := m.entries.map Prod.fst

def find (m : OrderedMap K V) (k : K) : Option V := m.entries.lookup k

def contains (m : OrderedMap K V) (k : K) : Bool := m.entries.any (fun e => e.1 = k)

theorem keys_sorted (m : OrderedMap K V) : m.keys.Pairwise (· < ·) :=
  List.pairwise_map.mpr m.sorted

theorem keys_nodup (m : OrderedMap K V) : m.keys.Nodup :=
  m.keys_sorted.imp ne_of_lt

@[simp] theorem contains_iff {m : OrderedMap K V} {k : K} : m.contains k = true ↔ k ∈ m.keys := by
  simp [contains, keys]

/-- Insert unless the key is present; the present value wins. -/
def place (k : K) (v : V) : List (K × V) → List (K × V)
  | [] => [(k, v)]
  | e :: rest =>
    if k < e.1 then (k, v) :: e :: rest
    else if k = e.1 then e :: rest
    else e :: place k v rest

theorem mem_place {k : K} {v : V} {l : List (K × V)} (member : e ∈ place k v l) :
    e = (k, v) ∨ e ∈ l := by
  induction l with
  | nil => simpa [place] using member
  | cons head rest ih =>
    rw [place] at member
    split_ifs at member with before same
    · simpa using member
    · exact .inr member
    · obtain rfl | inside := List.mem_cons.mp member
      · exact .inr List.mem_cons_self
      · exact (ih inside).imp_right (List.mem_cons_of_mem _)

theorem place_sorted (k : K) (v : V) {l : List (K × V)}
    (sorted : l.Pairwise (fun a b => a.1 < b.1)) :
    (place k v l).Pairwise (fun a b => a.1 < b.1) := by
  induction l with
  | nil => simp [place]
  | cons head rest ih =>
    obtain ⟨above, tail⟩ := List.pairwise_cons.mp sorted
    rw [place]
    split_ifs with before same
    · refine List.pairwise_cons.mpr ⟨?_, sorted⟩
      intro e member
      obtain rfl | inside := List.mem_cons.mp member
      · exact before
      · exact before.trans (above e inside)
    · exact sorted
    · refine List.pairwise_cons.mpr ⟨?_, ih tail⟩
      intro e member
      obtain rfl | inside := mem_place member
      · exact lt_of_le_of_ne (not_lt.mp before) (Ne.symm same)
      · exact above e inside

theorem lookup_cons_eq (k : K) (e : K × V) (l : List (K × V)) :
    (e :: l).lookup k = if k = e.1 then some e.2 else l.lookup k := by
  obtain ⟨key, value⟩ := e
  by_cases same : k = key
  · simp [same]
  · simp [List.lookup_cons, same, beq_eq_false_iff_ne.mpr same]

theorem place_lookup (k : K) (v : V) (l : List (K × V))
    (sorted : l.Pairwise (fun a b => a.1 < b.1)) (k' : K) :
    (place k v l).lookup k' = if k' = k then some ((l.lookup k).getD v) else l.lookup k' := by
  induction l with
  | nil => simp [place, lookup_cons_eq]
  | cons head rest ih =>
    obtain ⟨above, tail⟩ := List.pairwise_cons.mp sorted
    rw [place]
    by_cases before : k < head.1
    · -- `k` lies before every key, so it is not bound yet
      have absent : (head :: rest).lookup k = none := by
        apply List.lookup_eq_none_iff.mpr
        intro e member
        obtain rfl | inside := List.mem_cons.mp member
        · simp [before.ne]
        · simp [(before.trans (above e inside)).ne]
      rw [if_pos before, lookup_cons_eq, absent]
      rfl
    · rw [if_neg before]
      by_cases bound : k = head.1
      · subst bound
        by_cases here : k' = head.1 <;> simp [lookup_cons_eq, here]
      · rw [if_neg bound, lookup_cons_eq, ih tail, lookup_cons_eq k, lookup_cons_eq k', if_neg bound]
        by_cases here : k' = head.1
        · simp [here, Ne.symm bound]
        · simp [here]

def tryEmplace (m : OrderedMap K V) (k : K) (v : V) : OrderedMap K V :=
  ⟨place k v m.entries, place_sorted k v m.sorted⟩

theorem find_tryEmplace (m : OrderedMap K V) (k k' : K) (v : V) :
    (m.tryEmplace k v).find k' = if k' = k then some ((m.find k).getD v) else m.find k' :=
  place_lookup k v m.entries m.sorted k'

@[simp] theorem find_empty (k : K) : (empty : OrderedMap K V).find k = none := rfl

theorem mem_keys_iff {m : OrderedMap K V} {k : K} : k ∈ m.keys ↔ ∃ v, m.find k = some v := by
  constructor
  · intro member
    cases found : m.find k with
    | some v => exact ⟨v, rfl⟩
    | none =>
      obtain ⟨e, inside, rfl⟩ := List.mem_map.mp member
      simpa using List.lookup_eq_none_iff.mp found e inside
  · rintro ⟨v, found⟩
    obtain ⟨before, after, split, -⟩ := List.lookup_eq_some_iff.mp found
    exact List.mem_map.mpr ⟨(k, v), by simp [split], rfl⟩

theorem find_of_mem {m : OrderedMap K V} {e : K × V} (member : e ∈ m.entries) :
    m.find e.1 = some e.2 := by
  obtain ⟨v, found⟩ := mem_keys_iff.mp (List.mem_map_of_mem (f := Prod.fst) member)
  obtain ⟨before, after, split, -⟩ := List.lookup_eq_some_iff.mp found
  have other : (e.1, v) ∈ m.entries := by simp [split]
  have same := List.inj_on_of_nodup_map m.keys_nodup member other rfl
  rw [found, congrArg Prod.snd same]

/-- Of several insertions under one key the first wins. -/
theorem find_foldl_tryEmplace (l : List (K × V)) (m : OrderedMap K V) (k : K) :
    (l.foldl (fun m e => m.tryEmplace e.1 e.2) m).find k = (m.find k).or (l.lookup k) := by
  induction l generalizing m with
  | nil => simp
  | cons e rest ih =>
    rw [List.foldl_cons, ih, find_tryEmplace, lookup_cons_eq]
    by_cases same : k = e.1
    · subst same
      cases m.find e.1 <;> simp
    · simp [same]

/-- The map with these keys, all bound to `v`. -/
def ofKeys (keys : List K) (v : V) : OrderedMap K V := keys.foldl (fun m k => m.tryEmplace k v) empty

theorem ofKeys_append (keys more : List K) (v : V) :
    ofKeys (keys ++ more) v = more.foldl (fun m k => m.tryEmplace k v) (ofKeys keys v) :=
  List.foldl_append

theorem find_ofKeys (keys : List K) (v : V) (k : K) :
    (ofKeys keys v).find k = if k ∈ keys then some v else none := by
  have entries := find_foldl_tryEmplace (keys.map fun k => (k, v)) empty k
  rw [List.foldl_map, find_empty, Option.none_or] at entries
  rw [ofKeys, entries]
  clear entries
  induction keys with
  | nil => rfl
  | cons key rest ih =>
    rw [List.map_cons, lookup_cons_eq]
    by_cases same : k = key
    · simp [same]
    · simp [same, ih]

@[simp] theorem mem_keys_ofKeys {keys : List K} {v : V} {k : K} : k ∈ (ofKeys keys v).keys ↔ k ∈ keys := by
  rw [mem_keys_iff, find_ofKeys]
  split <;> simp_all

theorem entries_ofKeys (keys : List K) (v : V) :
    (ofKeys keys v).entries = (ofKeys keys v).keys.map fun k => (k, v) := by
  rw [OrderedMap.keys, List.map_map]
  refine (List.map_id _).symm.trans (List.map_congr_left fun e member => ?_)
  have found := find_of_mem member
  rw [find_ofKeys] at found
  split at found
  · exact Prod.ext rfl (Option.some.inj found).symm
  · cases found

/-- Two strictly increasing enumerations of one set are the same list. -/
theorem filter_keys_eq (m : OrderedMap K V) {l : List K} (sorted : l.Pairwise (· < ·))
    (covered : ∀ k ∈ l, k ∈ m.keys) : m.keys.filter (· ∈ l) = l := by
  apply List.Pairwise.eq_of_mem_iff (r := (· < ·)) (m.keys_sorted.filter _) sorted
  intro k
  simpa using covered k

end OrderedMap
