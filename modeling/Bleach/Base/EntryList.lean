import Mathlib.Data.List.Basic
import Mathlib.Tactic.Common

/-! Maps kept as a list of entries, the latest first: an entry hides the earlier
ones of its key, and get-or-create only adds entries for keys without one. -/
namespace Bleach.EntryList
universe u v
variable {K : Type u} {V : Type v} [DecidableEq K] {l new : List (K × V)} {k : K} {v : V}

theorem mem_of_lookup (found : l.lookup k = some v) : (k, v) ∈ l := by
  obtain ⟨before, after, rfl, _⟩ := List.lookup_eq_some_iff.mp found
  simp

theorem lookup_none_iff : l.lookup k = none ↔ ∀ v, (k, v) ∉ l := by
  rw [List.lookup_eq_none_iff]
  constructor
  · intro apart v member
    simpa using apart (k, v) member
  · rintro absent ⟨k', v⟩ member
    have differ : k ≠ k' := by
      rintro rfl
      exact absent v member
    simpa using differ

theorem lookup_of_mem (member : (k, v) ∈ l) (unique : ∀ v', (k, v') ∈ l → v' = v) :
    l.lookup k = some v := by
  cases found : l.lookup k with
  | none => exact absurd member (lookup_none_iff.mp found v)
  | some v' => rw [unique v' (mem_of_lookup found)]

/-- The keys a run of get-or-create adds an entry for, in order. -/
def fresh (known : K → Bool) : List K → List K
  | [] => []
  | k :: rest => if known k then fresh known rest
    else k :: fresh (fun k' => known k' || k' = k) rest

theorem mem_fresh {known : K → Bool} {keys : List K} :
    k ∈ fresh known keys ↔ k ∈ keys ∧ known k = false := by
  induction keys generalizing known with
  | nil => simp [fresh]
  | cons k' rest ih =>
    unfold fresh
    by_cases same : k = k'
    · subst same
      cases old : known k <;> simp [ih, old]
    · cases old : known k' <;> simp [ih, same]

theorem fresh_append (known : K → Bool) (keys keys' : List K) :
    fresh known (keys ++ keys') =
      fresh known keys ++ fresh (fun k => known k || k ∈ fresh known keys) keys' := by
  induction keys generalizing known with
  | nil => simp [fresh]
  | cons k' rest ih =>
    by_cases old : known k' = true
    · simp only [List.cons_append, fresh, old, if_true, ih]
    · simp only [List.cons_append, fresh, old, Bool.false_eq_true, if_false, ih]
      congr 3
      funext k
      simp [Bool.or_assoc]

theorem fresh_eq_nil {known : K → Bool} {keys : List K} :
    fresh known keys = [] ↔ ∀ k ∈ keys, known k = true := by
  simp only [List.eq_nil_iff_forall_not_mem, mem_fresh, not_and, Bool.not_eq_false]

end Bleach.EntryList
