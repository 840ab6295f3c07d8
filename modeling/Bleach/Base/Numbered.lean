import Mathlib.Data.List.Lookmap
import Mathlib.Tactic.Common

/-! Lists whose elements are kept and changed by their position, under searches that
stop at the first element with a property. -/
namespace Bleach.Numbered
universe u v
variable {α : Type u} {β : Type v} {l : List α} {q : α → Bool} {n : Nat}

theorem split (first : l.findIdx? q = some n) :
    ∃ c before after, l[n]? = some c ∧ q c = true ∧ l.zipIdx = before ++ (c, n) :: after ∧
      (∀ e ∈ before, q e.1 = false) ∧ ∀ e ∈ before ++ after, e.2 ≠ n := by
  obtain ⟨inside, holds, earlier⟩ := List.findIdx?_eq_some_iff_getElem.mp first
  have parts : l = l.take n ++ l[n] :: l.drop (n + 1) := by simp
  have length : (l.take n).length = n := by simp [Nat.le_of_lt inside]
  refine ⟨l[n], (l.take n).zipIdx, (l.drop (n + 1)).zipIdx (n + 1), List.getElem?_eq_getElem inside, holds,
    ?_, ?_, ?_⟩
  · conv_lhs => rw [parts]
    rw [List.zipIdx_append, length, Nat.zero_add, List.zipIdx_cons]
  · intro e member
    obtain ⟨j, below, here⟩ := List.getElem_of_mem (List.fst_mem_of_mem_zipIdx member)
    rw [length] at below
    rw [← here, List.getElem_take]
    exact Bool.eq_false_iff.mpr (earlier j below)
  · intro e member
    rcases List.mem_append.mp member with before | after
    · have below := List.snd_lt_of_mem_zipIdx before
      omega
    · have above := List.le_snd_of_mem_zipIdx after
      omega

theorem mem_lookmap {g : β → Option β} {bs : List β} {b : β} (member : b ∈ bs.lookmap g) :
    b ∈ bs ∨ ∃ a ∈ bs, g a = some b := by
  induction bs with
  | nil => exact .inl member
  | cons a rest ih =>
    cases hit : g a with
    | none =>
      rw [List.lookmap_cons_none g rest hit, List.mem_cons] at member
      rcases member with rfl | member
      · exact .inl List.mem_cons_self
      · rcases ih member with same | ⟨a', inside, changed⟩
        · exact .inl (List.mem_cons_of_mem _ same)
        · exact .inr ⟨a', List.mem_cons_of_mem _ inside, changed⟩
    | some b' =>
      rw [List.lookmap_cons_some g rest hit, List.mem_cons] at member
      rcases member with rfl | member
      · exact .inr ⟨a, List.mem_cons_self, hit⟩
      · exact .inl (List.mem_cons_of_mem _ member)

theorem lookmap_first {g : β → Option β} {before after : List β} {b b' : β}
    (missed : ∀ a ∈ before, g a = none) (hit : g b = some b') :
    (before ++ b :: after).lookmap g = before ++ b' :: after := by
  induction before with
  | nil => exact List.lookmap_cons_some g after hit
  | cons a rest ih =>
    obtain ⟨here, later⟩ := List.forall_mem_cons.mp missed
    rw [List.cons_append, List.lookmap_cons_none g _ here, ih later, List.cons_append]

section
variable {keep : α × Nat → Bool} {f : α × Nat → β} {p : β → Bool}

/-- The elements at kept positions, changed by position. -/
def kept (keep : α × Nat → Bool) (f : α × Nat → β) (l : List α) : List β := (l.zipIdx.filter keep).map f

theorem kept_congr {keep' : α × Nat → Bool} {f' : α × Nat → β}
    (keeps : ∀ e ∈ l.zipIdx, keep e = keep' e) (changes : ∀ e ∈ l.zipIdx, keep e = true → f e = f' e) :
    kept keep f l = kept keep' f' l := by
  rw [kept, kept, ← List.filter_congr keeps]
  exact List.map_congr_left fun e member =>
    changes e (List.mem_filter.mp member).1 (List.mem_filter.mp member).2

variable (same : ∀ e, p (f e) = q e.1)
include same

theorem find?_kept (first : l.findIdx? q = some n) {c : α} (found : l[n]? = some c)
    (stays : keep (c, n) = true) : (kept keep f l).find? p = some (f (c, n)) := by
  obtain ⟨c', before, after, found', holds, parts, earlier, -⟩ := split first
  obtain rfl := Option.some.inj (found.symm.trans found')
  have none : ((before.filter keep).map f).find? p = none := by
    rw [List.find?_eq_none]
    intro b member
    obtain ⟨e, inside, rfl⟩ := List.mem_map.mp member
    rw [same, earlier e (List.mem_filter.mp inside).1]
    exact Bool.false_ne_true
  rw [kept, parts, List.filter_append, List.map_append, List.find?_append, none, List.filter_cons_of_pos stays,
    List.map_cons, List.find?_cons_of_pos ((same _).trans holds)]
  rfl

theorem find?_kept_none (absent : l.findIdx? q = none) : (kept keep f l).find? p = none := by
  rw [List.find?_eq_none]
  intro b member
  obtain ⟨e, inside, rfl⟩ := List.mem_map.mp member
  rw [same, List.findIdx?_eq_none_iff.mp absent _
    (List.fst_mem_of_mem_zipIdx (List.mem_filter.mp inside).1)]
  exact Bool.false_ne_true

theorem lookmap_kept (g : β → β) (first : l.findIdx? q = some n) {c : α} (found : l[n]? = some c)
    (stays : keep (c, n) = true) :
    (kept keep f l).lookmap (fun b => if p b then some (g b) else none) =
      kept keep (fun e => if e.2 = n then g (f e) else f e) l := by
  obtain ⟨c', before, after, found', holds, parts, earlier, other⟩ := split first
  obtain rfl := Option.some.inj (found.symm.trans found')
  have missed : ∀ b ∈ (before.filter keep).map f, (if p b then some (g b) else none) = none := by
    intro b member
    obtain ⟨e, inside, rfl⟩ := List.mem_map.mp member
    rw [same, earlier e (List.mem_filter.mp inside).1]
    exact if_neg Bool.false_ne_true
  have hit : (if p (f (c, n)) then some (g (f (c, n))) else none) = some (g (f (c, n))) :=
    if_pos ((same _).trans holds)
  have untouched : ∀ es : List (α × Nat), (∀ e ∈ es, e.2 ≠ n) →
      (es.filter keep).map (fun e => if e.2 = n then g (f e) else f e) = (es.filter keep).map f :=
    fun es apart => List.map_congr_left fun e member => if_neg (apart e (List.mem_filter.mp member).1)
  rw [kept, kept, parts, List.filter_append, List.map_append, List.filter_cons_of_pos stays, List.map_cons,
    lookmap_first missed hit, List.map_append, List.map_cons, if_pos rfl,
    untouched before fun e member => other e (List.mem_append_left _ member),
    untouched after fun e member => other e (List.mem_append_right _ member)]

theorem eraseP_kept (first : l.findIdx? q = some n) {c : α} (found : l[n]? = some c)
    (stays : keep (c, n) = true) :
    (kept keep f l).eraseP p = kept (fun e => keep e && e.2 != n) f l := by
  obtain ⟨c', before, after, found', holds, parts, earlier, other⟩ := split first
  obtain rfl := Option.some.inj (found.symm.trans found')
  have missed : ∀ b ∈ (before.filter keep).map f, ¬ p b = true := by
    intro b member
    obtain ⟨e, inside, rfl⟩ := List.mem_map.mp member
    rw [same, earlier e (List.mem_filter.mp inside).1]
    exact Bool.false_ne_true
  have untouched : ∀ es : List (α × Nat), (∀ e ∈ es, e.2 ≠ n) →
      es.filter (fun e => keep e && e.2 != n) = es.filter keep :=
    fun es apart => List.filter_congr fun e member => by simp [apart e member]
  have gone : ((c, n) :: after).filter (fun e => keep e && e.2 != n) =
      after.filter (fun e => keep e && e.2 != n) := List.filter_cons_of_neg (by simp)
  rw [kept, kept, parts, List.filter_append, List.map_append, List.filter_cons_of_pos stays, List.map_cons,
    List.eraseP_append_right _ missed, List.eraseP_cons_of_pos ((same _).trans holds), List.filter_append,
    gone, List.map_append,
    untouched before fun e member => other e (List.mem_append_left _ member),
    untouched after fun e member => other e (List.mem_append_right _ member)]

omit same in
/-- Kept elements keep their order, so they are told apart by the position they had. -/
theorem kept_position {j k : Nat} {a b : α} {n : Nat} (first : (l.zipIdx.filter keep)[j]? = some (a, n))
    (second : (l.zipIdx.filter keep)[k]? = some (b, n)) : j = k := by
  have nodup : ((l.zipIdx.filter keep).map Prod.snd).Nodup := by
    refine List.Nodup.sublist (List.filter_sublist.map _) ?_
    rw [List.zipIdx_map_snd]
    exact List.nodup_range'
  have here : ((l.zipIdx.filter keep).map Prod.snd)[j]? = some n := by rw [List.getElem?_map, first]; rfl
  have there : ((l.zipIdx.filter keep).map Prod.snd)[k]? = some n := by rw [List.getElem?_map, second]; rfl
  exact (List.getElem?_inj (List.getElem?_eq_some_iff.mp here).1 nodup).mp (here.trans there.symm)

end

end Bleach.Numbered
