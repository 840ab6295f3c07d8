import Mathlib.Data.List.Basic
import Mathlib.Tactic.Common

/-! Texts with delimited parts, and the replacement of every occurrence of a pattern in them. A
pattern with its delimiters may also occur between two parts. -/
namespace Delimited
variable {α : Type} [DecidableEq α]

/-- Occurrences from left to right; `skip` elements of the last one are still to be passed over. -/
def gsubFrom (pattern replacement : List α) : (skip : Nat) → List α → List α
  | _, [] => []
  | skip + 1, _ :: rest => gsubFrom pattern replacement skip rest
  | 0, c :: rest =>
    if pattern.isPrefixOf (c :: rest) then
      replacement ++ gsubFrom pattern replacement (pattern.length - 1) rest
    else c :: gsubFrom pattern replacement 0 rest

/-- For patterns that are not empty. -/
def gsub (pattern replacement text : List α) : List α := gsubFrom pattern replacement 0 text

variable {pattern replacement s : List α}

theorem gsubFrom_skip (skip : Nat) (s : List α) :
    gsubFrom pattern replacement skip s = gsub pattern replacement (s.drop skip) := by
  induction skip generalizing s with
  | zero => rfl
  | succ skip ih =>
    cases s with
    | nil => rfl
    | cons c rest => exact ih rest

theorem gsub_match (nonempty : pattern ≠ []) :
    gsub pattern replacement (pattern ++ s) = replacement ++ gsub pattern replacement s := by
  cases pattern with
  | nil => exact absurd rfl nonempty
  | cons c rest =>
    have here : (c :: rest).isPrefixOf (c :: (rest ++ s)) = true := by
      rw [List.isPrefixOf_iff_prefix]
      exact ⟨s, rfl⟩
    rw [List.cons_append, gsub, gsubFrom, if_pos here, gsubFrom_skip, List.length_cons, Nat.add_sub_cancel,
      List.drop_left]

theorem gsub_cons {c : α} (absent : ¬pattern <+: c :: s) :
    gsub pattern replacement (c :: s) = c :: gsub pattern replacement s := by
  rw [gsub, gsubFrom, if_neg (by rwa [List.isPrefixOf_iff_prefix])]
  rfl

/-- What has not the first element of the pattern is kept. -/
theorem gsub_append {c : α} {rest xs : List α} (free : c ∉ xs) :
    gsub (c :: rest) replacement (xs ++ s) = xs ++ gsub (c :: rest) replacement s := by
  induction xs with
  | nil => rfl
  | cons x xs ih =>
    obtain ⟨apart, free⟩ := List.ne_and_not_mem_of_not_mem_cons free
    have absent : ¬c :: rest <+: x :: (xs ++ s) := fun ⟨t, same⟩ => apart (List.cons.inj same).1
    rw [List.cons_append, gsub_cons absent, ih free, List.cons_append]

/-- A text, and delimited parts each followed by a text. -/
structure Template (α : Type) where
  text : List α
  pairs : List (List α × List α)

variable (d : α)

def delimited (e : List α) : List α := d :: (e ++ [d])

omit [DecidableEq α] in
theorem delimited_ne_nil (e : List α) : delimited d e ≠ [] := List.cons_ne_nil _ _

def renderPairs (pairs : List (List α × List α)) : List α := pairs.flatMap fun (e, t) => d :: (e ++ d :: t)

namespace Template

def render (T : Template α) : List α := T.text ++ renderPairs d T.pairs

/-- The delimiter delimits, and nothing else. -/
structure Free (T : Template α) : Prop where
  text : d ∉ T.text
  pairs : ∀ p ∈ T.pairs, d ∉ p.1 ∧ d ∉ p.2

end Template

variable (value : List α → List α) (done : List (List α))

/-- Some parts are replaced by their values and join the texts around them. -/
def substitutePairs : List (List α × List α) → Template α
  | [] => ⟨[], []⟩
  | (e, t) :: rest =>
    let T := substitutePairs rest
    if e ∈ done then ⟨value e ++ t ++ T.text, T.pairs⟩ else ⟨[], (e, t ++ T.text) :: T.pairs⟩

namespace Template

def substitute (T : Template α) : Template α :=
  ⟨T.text ++ (substitutePairs value done T.pairs).text, (substitutePairs value done T.pairs).pairs⟩

/-- All parts are replaced at once. -/
def expanded (T : Template α) : List α := T.text ++ T.pairs.flatMap fun (e, t) => value e ++ t

end Template

variable {value done} {d} {pairs : List (List α × List α)} {e : List α}

theorem substitutePairs_congr {done' : List (List α)} (same : ∀ e, e ∈ done ↔ e ∈ done') :
    substitutePairs value done pairs = substitutePairs value done' pairs := by
  induction pairs with
  | nil => rfl
  | cons p rest ih =>
    obtain ⟨e, t⟩ := p
    simp only [substitutePairs, ih, same]

/-- Substituting some parts and then others substitutes all of them. -/
theorem substitutePairs_append (done' : List (List α)) :
    (substitutePairs value done pairs).substitute value done' =
      substitutePairs value (done ++ done') pairs := by
  induction pairs with
  | nil => rfl
  | cons p rest ih =>
    obtain ⟨e, t⟩ := p
    simp only [substitutePairs, List.mem_append, ← ih]
    by_cases first : e ∈ done
    · simp [first, Template.substitute]
    · by_cases second : e ∈ done' <;> simp [first, second, Template.substitute, substitutePairs]

theorem Template.substitute_append (T : Template α) (done' : List (List α)) :
    (T.substitute value done).substitute value done' = T.substitute value (done ++ done') := by
  have parts : (substitutePairs value done T.pairs).substitute value done' =
      substitutePairs value (done ++ done') T.pairs := substitutePairs_append done'
  simp only [Template.substitute, ← parts, List.append_assoc]

theorem substitutePairs_nil : substitutePairs value [] pairs = ⟨[], pairs⟩ := by
  induction pairs with
  | nil => rfl
  | cons p rest ih => simp [substitutePairs, ih]

theorem Template.substitute_nil (T : Template α) : T.substitute value [] = T := by
  simp [Template.substitute, substitutePairs_nil]

/-- The parts that stay. -/
theorem substitutePairs_parts : (substitutePairs value done pairs).pairs.map Prod.fst =
    (pairs.map Prod.fst).filter fun e => e ∉ done := by
  induction pairs with
  | nil => rfl
  | cons p rest ih =>
    obtain ⟨e, t⟩ := p
    by_cases member : e ∈ done <;> simp [substitutePairs, member, ih]

theorem substitutePairs_all (all : ∀ p ∈ pairs, p.1 ∈ done) :
    substitutePairs value done pairs = ⟨pairs.flatMap fun (e, t) => value e ++ t, []⟩ := by
  induction pairs with
  | nil => rfl
  | cons p rest ih =>
    obtain ⟨here, later⟩ := List.forall_mem_cons.mp all
    simp [substitutePairs, here, ih later]

theorem Template.substitute_all {T : Template α} (all : ∀ p ∈ T.pairs, p.1 ∈ done) :
    T.substitute value done = ⟨T.expanded value, []⟩ := by
  rw [Template.substitute, substitutePairs_all all]
  rfl

theorem substitutePairs_free (free : ∀ p ∈ pairs, d ∉ p.1 ∧ d ∉ p.2) (values : ∀ p ∈ pairs, d ∉ value p.1) :
    (substitutePairs value done pairs).Free d := by
  induction pairs with
  | nil => exact ⟨by simp [substitutePairs], by simp [substitutePairs]⟩
  | cons p rest ih =>
    obtain ⟨e, t⟩ := p
    obtain ⟨⟨free_e, free_t⟩, later⟩ := List.forall_mem_cons.mp free
    obtain ⟨value_e, values⟩ := List.forall_mem_cons.mp values
    obtain ⟨text, pairs⟩ := ih later values
    by_cases member : e ∈ done
    · simp only [substitutePairs, if_pos member]
      exact ⟨by simp [value_e, free_t, text], pairs⟩
    · simp only [substitutePairs, if_neg member]
      exact ⟨by simp, List.forall_mem_cons.mpr ⟨⟨free_e, by simp [free_t, text]⟩, pairs⟩⟩

theorem Template.Free.substitute {T : Template α} (free : T.Free d)
    (values : ∀ p ∈ T.pairs, d ∉ value p.1) : (T.substitute value done).Free d := by
  have parts : (substitutePairs value done T.pairs).Free d := substitutePairs_free free.pairs values
  obtain ⟨text, pairs⟩ := parts
  exact ⟨by simp [Template.substitute, free.text, text], pairs⟩

/-- A text between two parts looks like the part to be replaced. -/
def Clash (e : List α) (pairs : List (List α × List α)) : Prop := ∃ p ∈ pairs.dropLast, p.1 ≠ e ∧ p.2 = e

/-- What stands in front of the first delimiter. -/
theorem takeWhile_append {t s : List α} (free : d ∉ t) (tail : s = [] ∨ ∃ s', s = d :: s') :
    (t ++ s).takeWhile (· ≠ d) = t := by
  have before : ∀ c ∈ t, decide (c ≠ d) = true := fun c member =>
    decide_eq_true fun same => free (same ▸ member)
  rw [List.takeWhile_append_of_pos before]
  obtain rfl | ⟨s', rfl⟩ := tail <;> simp

/-- Where a delimited part begins at a delimiter. -/
theorem delimited_prefix_iff {t s : List α} (free_e : d ∉ e) (free_t : d ∉ t)
    (tail : s = [] ∨ ∃ s', s = d :: s') : delimited d e <+: d :: (t ++ s) ↔ t = e ∧ s ≠ [] := by
  rw [delimited, List.prefix_cons_inj]
  constructor
  · rintro ⟨rest, same⟩
    rw [List.append_assoc, List.singleton_append] at same
    have parts := congrArg (List.takeWhile (· ≠ d)) same
    rw [takeWhile_append free_e (.inr ⟨rest, rfl⟩), takeWhile_append free_t tail] at parts
    subst parts
    have behind := List.append_cancel_left same
    exact ⟨rfl, fun empty => by simp [empty] at behind⟩
  · rintro ⟨rfl, nonempty⟩
    obtain rfl | ⟨s', rfl⟩ := tail
    · exact absurd rfl nonempty
    · exact ⟨s', by simp⟩

omit [DecidableEq α] in
theorem renderPairs_tail (pairs : List (List α × List α)) :
    renderPairs d pairs = [] ∨ ∃ s', renderPairs d pairs = d :: s' := by
  cases pairs with
  | nil => exact .inl rfl
  | cons p rest => exact .inr ⟨_, rfl⟩

omit [DecidableEq α] in
theorem clash_cons_iff {e' t : List α} :
    Clash e ((e', t) :: pairs) ↔ (e' ≠ e ∧ t = e ∧ pairs ≠ []) ∨ Clash e pairs := by
  cases pairs with
  | nil => simp [Clash]
  | cons p rest => simp [Clash]

/-- A replacement replaces the parts and nothing else exactly if there is no such text. -/
theorem gsub_renderPairs_iff (free_e : d ∉ e) (free : ∀ p ∈ pairs, d ∉ p.1 ∧ d ∉ p.2)
    (nonempty : value e ≠ []) (free_value : d ∉ value e) :
    gsub (delimited d e) (value e) (renderPairs d pairs) = (substitutePairs value [e] pairs).render d ↔
      ¬Clash e pairs := by
  induction pairs with
  | nil => simp [renderPairs, gsub, gsubFrom, substitutePairs, Template.render, Clash]
  | cons p rest ih =>
    obtain ⟨e', t⟩ := p
    obtain ⟨⟨free_e', free_t⟩, later⟩ := List.forall_mem_cons.mp free
    have text : gsub (delimited d e) (value e) (t ++ renderPairs d rest) =
        t ++ gsub (delimited d e) (value e) (renderPairs d rest) := gsub_append free_t
    rw [clash_cons_iff, not_or, ← ih later]
    by_cases same : e' = e
    · subst same
      have shape : renderPairs d ((e', t) :: rest) = delimited d e' ++ (t ++ renderPairs d rest) := by
        simp [renderPairs, delimited]
      rw [shape, gsub_match (delimited_ne_nil _ _), text]
      simp [substitutePairs, Template.render]
    · have shape : renderPairs d ((e', t) :: rest) = d :: (e' ++ d :: (t ++ renderPairs d rest)) := by
        simp [renderPairs]
      have opening : ¬delimited d e <+: d :: (e' ++ d :: (t ++ renderPairs d rest)) := by
        rw [delimited_prefix_iff free_e free_e' (.inr ⟨_, rfl⟩)]
        exact fun holds => same holds.1
      have part : gsub (delimited d e) (value e) (e' ++ d :: (t ++ renderPairs d rest)) =
          e' ++ gsub (delimited d e) (value e) (d :: (t ++ renderPairs d rest)) := gsub_append free_e'
      have expected : (substitutePairs value [e] ((e', t) :: rest)).render d =
          d :: (e' ++ d :: (t ++ (substitutePairs value [e] rest).render d)) := by
        simp [substitutePairs, same, Template.render, renderPairs]
      rw [shape, gsub_cons opening, part, expected, List.cons_inj_right, List.append_right_inj]
      by_cases between : t = e ∧ rest ≠ []
      · -- the closing delimiter, the text and the next opening one are replaced
        obtain ⟨rfl, more⟩ := between
        obtain empty | ⟨s', tail⟩ := renderPairs_tail (d := d) rest
        · cases rest with
          | nil => exact absurd rfl more
          | cons p rest => cases empty
        · have swallowed : d :: (t ++ renderPairs d rest) = delimited d t ++ s' := by simp [tail, delimited]
          rw [swallowed, gsub_match (delimited_ne_nil _ _)]
          refine iff_of_false (fun equal => ?_) (fun holds => holds.1 ⟨same, rfl, more⟩)
          cases v : value t with
          | nil => exact nonempty v
          | cons c rest' =>
            rw [v] at equal free_value
            exact free_value (List.mem_cons.mpr (.inl (List.cons.inj equal).1.symm))
      · have closing : ¬delimited d e <+: d :: (t ++ renderPairs d rest) := by
          rw [delimited_prefix_iff free_e free_t (renderPairs_tail rest)]
          rintro ⟨equal, more⟩
          refine between ⟨equal, fun empty => ?_⟩
          rw [empty] at more
          exact more rfl
        rw [gsub_cons closing, text, List.cons_inj_right, List.append_right_inj]
        exact ⟨fun done => ⟨fun holds => between holds.2, done⟩, fun holds => holds.2⟩

/-- The same for a template. -/
theorem gsub_render_iff {T : Template α} (free : T.Free d) (free_e : d ∉ e) (nonempty : value e ≠ [])
    (free_value : d ∉ value e) :
    gsub (delimited d e) (value e) (T.render d) = (T.substitute value [e]).render d ↔ ¬Clash e T.pairs := by
  have text : gsub (delimited d e) (value e) (T.render d) =
      T.text ++ gsub (delimited d e) (value e) (renderPairs d T.pairs) := gsub_append free.text
  rw [text, ← gsub_renderPairs_iff free_e free.pairs nonempty free_value]
  simp [Template.substitute, Template.render]

end Delimited
