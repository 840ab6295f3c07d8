import Bleach.Base.Delimited

/-! The expansion of the templates of the config generator. Every round evaluates the leftmost
expression and replaces it with its delimiters everywhere, also where the delimiters belong to
two other expressions. -/
namespace Bleach.ConfigGen
open Delimited

/-- The class of characters of the regular expression. -/
def isExpressionChar (c : Char) : Bool := c.isLower || c.isDigit || [' ', '-', '+', '/', '*'].contains c

/-- A match of the regular expression at the start, without the backslashes. -/
def matchHere : List Char → Option (List Char)
  | '\\' :: rest =>
    let expr := rest.takeWhile isExpressionChar
    if expr ≠ [] ∧ (rest.dropWhile isExpressionChar).head? = some '\\' then some expr else none
  | _ => none

/-- The leftmost match. -/
def firstMatch : List Char → Option (List Char)
  | [] => none
  | c :: rest => (matchHere (c :: rest)).or (firstMatch rest)

/-- `replace_all_expressions` within some rounds. `eval` is Ruby's, for one `xlen`, as text; it
fails where Ruby raises an exception. -/
def replaceAllExpressions (eval : List Char → Option (List Char)) :
    (rounds : Nat) → List Char → Option (List Char)
  | 0, _ => none
  | rounds + 1, templ =>
    match firstMatch templ with
    | none => some templ
    | some expr => do
      let value ← eval expr
      replaceAllExpressions eval rounds (gsub (delimited '\\' expr) value templ)

variable {eval : List Char → Option (List Char)} {T : Template Char} {done : List (List Char)}

/-- Backslashes delimit expressions only. -/
structure Paired (T : Template Char) : Prop where
  text : '\\' ∉ T.text
  pairs : ∀ p ∈ T.pairs, p.1 ≠ [] ∧ (∀ c ∈ p.1, isExpressionChar c = true) ∧ '\\' ∉ p.2

/-- The value of an expression as text. -/
def valueText (eval : List Char → Option (List Char)) (expr : List Char) : List Char := (eval expr).getD []

/-- Every expression is an integer. -/
def Integers (eval : List Char → Option (List Char)) (T : Template Char) : Prop :=
  ∀ p ∈ T.pairs, ∃ v : Int, eval p.1 = some (toString v).toList

theorem Paired.free (paired : Paired T) : T.Free '\\' := by
  refine ⟨paired.text, fun p member => ⟨fun inside => ?_, (paired.pairs p member).2.2⟩⟩
  exact absurd ((paired.pairs p member).2.1 _ inside) (by decide)

theorem repr_free (n : Nat) : n.repr.toList ≠ [] ∧ '\\' ∉ n.repr.toList := by
  rw [Nat.toList_repr]
  refine ⟨Nat.toDigits_ne_nil, fun inside => ?_⟩
  exact absurd (Nat.isDigit_of_mem_toDigits (by decide) (by decide) inside) (by decide)

theorem toString_free (v : Int) : (toString v).toList ≠ [] ∧ '\\' ∉ (toString v).toList := by
  cases v with
  | ofNat n => exact repr_free n
  | negSucc n =>
    have shape : (toString (Int.negSucc n)).toList = '-' :: (n + 1).repr.toList := by
      change ("-" ++ (n + 1).repr).toList = _
      rw [String.toList_append]
      rfl
    rw [shape]
    refine ⟨List.cons_ne_nil _ _, fun inside => ?_⟩
    rcases List.mem_cons.mp inside with same | inside
    · exact absurd same (by decide)
    · exact (repr_free (n + 1)).2 inside

theorem Integers.value (integers : Integers eval T) {p : List Char × List Char} (member : p ∈ T.pairs) :
    eval p.1 = some (valueText eval p.1) ∧ valueText eval p.1 ≠ [] ∧ '\\' ∉ valueText eval p.1 := by
  obtain ⟨v, evaluates⟩ := integers p member
  have text : valueText eval p.1 = (toString v).toList := by rw [valueText, evaluates]; rfl
  rw [text]
  exact ⟨evaluates, toString_free v⟩

theorem firstMatch_append {text s : List Char} (free : '\\' ∉ text) :
    firstMatch (text ++ s) = firstMatch s := by
  induction text with
  | nil => rfl
  | cons c rest ih =>
    obtain ⟨apart, free⟩ := List.ne_and_not_mem_of_not_mem_cons free
    have none : matchHere (c :: (rest ++ s)) = none := by
      unfold matchHere
      split
      · next same => exact absurd (List.cons.inj same).1.symm apart
      · rfl
    rw [List.cons_append, firstMatch, none, Option.none_or, ih free]

theorem firstMatch_delimited {expr s : List Char} (nonempty : expr ≠ [])
    (chars : ∀ c ∈ expr, isExpressionChar c = true) :
    firstMatch ('\\' :: (expr ++ '\\' :: s)) = some expr := by
  have stop : isExpressionChar '\\' = false := by decide
  have taken : (expr ++ '\\' :: s).takeWhile isExpressionChar = expr := by
    rw [List.takeWhile_append_of_pos chars, List.takeWhile_cons_of_neg (by simp [stop]), List.append_nil]
  have dropped : (expr ++ '\\' :: s).dropWhile isExpressionChar = '\\' :: s := by
    rw [List.dropWhile_append_of_pos chars, List.dropWhile_cons_of_neg (by simp [stop])]
  rw [firstMatch, matchHere, taken, dropped, if_pos ⟨nonempty, rfl⟩, Option.some_or]

theorem firstMatch_render (paired : Paired T) :
    firstMatch (T.render '\\') = T.pairs.head?.map Prod.fst := by
  rw [Template.render, firstMatch_append paired.text]
  cases pairs : T.pairs with
  | nil => rfl
  | cons p rest =>
    obtain ⟨nonempty, chars, -⟩ := paired.pairs p (by rw [pairs]; exact List.mem_cons_self)
    have shape : renderPairs '\\' (p :: rest) =
        '\\' :: (p.1 ++ '\\' :: (p.2 ++ renderPairs '\\' rest)) := by
      simp [renderPairs]
    rw [shape, firstMatch_delimited nonempty chars]
    rfl

/-- The parts of a substituted template are parts of the template. -/
theorem part_of_substitute {p : List Char × List Char}
    (member : p ∈ (T.substitute (valueText eval) done).pairs) : ∃ q ∈ T.pairs, q.1 = p.1 ∧ p.1 ∉ done := by
  have part := List.mem_map_of_mem (f := Prod.fst) member
  rw [Template.substitute, substitutePairs_parts, List.mem_filter] at part
  obtain ⟨q, inside, same⟩ := List.mem_map.mp part.1
  exact ⟨q, inside, same, by simpa using part.2⟩

theorem Paired.substitute (paired : Paired T) (integers : Integers eval T) :
    Paired (T.substitute (valueText eval) done) := by
  have free : (T.substitute (valueText eval) done).Free '\\' :=
    paired.free.substitute fun p member => (integers.value member).2.2
  obtain ⟨text, pairs⟩ := free
  refine ⟨text, fun p member => ?_⟩
  obtain ⟨q, inside, same, -⟩ := part_of_substitute member
  obtain ⟨nonempty, chars, -⟩ := paired.pairs q inside
  exact ⟨same ▸ nonempty, same ▸ chars, (pairs p member).2⟩

/-- The expressions of some pairs. -/
def expressions (pairs : List (List Char × List Char)) : List (List Char) := pairs.map Prod.fst

/-- A pair with the pairs in front of it is the first one with its expression. -/
def FirstPair (T : Template Char) (before : List (List Char × List Char)) (expr : List Char) : Prop :=
  (∃ text after, T.pairs = before ++ (expr, text) :: after) ∧ expr ∉ expressions before

/-- The template when the loop comes to the pairs behind some others. -/
def reached (eval : List Char → Option (List Char)) (T : Template Char)
    (before : List (List Char × List Char)) : Template Char := T.substitute (valueText eval) (expressions before)

/-- In no round is the expression found between two other ones. -/
def Clear (eval : List Char → Option (List Char)) (T : Template Char) : Prop :=
  ∀ before expr, FirstPair T before expr → ¬Clash expr (reached eval T before).pairs

/-- Every round replaces an expression where it is delimited, and leaves everything else. -/
def RoundsExact (eval : List Char → Option (List Char)) (T : Template Char) : Prop :=
  ∀ before expr, FirstPair T before expr →
    gsub (delimited '\\' expr) (valueText eval expr) ((reached eval T before).render '\\') =
      (T.substitute (valueText eval) (expressions before ++ [expr])).render '\\'

theorem roundsExact_iff (paired : Paired T) (integers : Integers eval T) :
    RoundsExact eval T ↔ Clear eval T := by
  refine forall_congr' fun before => forall_congr' fun expr => forall_congr' fun first => ?_
  obtain ⟨⟨text, after, split⟩, -⟩ := first
  have member : (expr, text) ∈ T.pairs := by simp [split]
  obtain ⟨-, nonempty, free⟩ := integers.value member
  rw [← Template.substitute_append]
  exact gsub_render_iff (paired.substitute integers).free (paired.free.pairs _ member).1 nonempty free

/-- The leftmost expression is the first one behind those replaced. -/
theorem firstMatch_reached (paired : Paired T) (integers : Integers eval T)
    {before : List (List Char × List Char)} {expr : List Char} (first : FirstPair T before expr) :
    firstMatch ((reached eval T before).render '\\') = some expr := by
  obtain ⟨⟨text, after, split⟩, fresh⟩ := first
  rw [reached, firstMatch_render (paired.substitute integers), ← List.head?_map, Template.substitute,
    substitutePairs_parts, split, List.map_append, List.filter_append]
  have gone : (before.map Prod.fst).filter (fun e => decide (e ∉ expressions before)) = [] := by
    refine List.filter_eq_nil_iff.mpr fun e inside => ?_
    rw [decide_eq_true_iff, not_not]
    exact inside
  rw [gone, List.nil_append, List.map_cons, List.filter_cons_of_pos (by simpa using fresh)]
  rfl

/-- With all expressions replaced the loop stops. -/
theorem rounds_finished (paired : Paired T) (integers : Integers eval T)
    {before : List (List Char × List Char)} (all : ∀ p ∈ T.pairs, p.1 ∈ expressions before) (rounds : Nat) :
    replaceAllExpressions eval (rounds + 1) ((reached eval T before).render '\\') =
      some (T.expanded (valueText eval)) := by
  have finished : reached eval T before = ⟨T.expanded (valueText eval), []⟩ := Template.substitute_all all
  have stops : firstMatch ((reached eval T before).render '\\') = none := by
    have paired' : Paired (reached eval T before) := paired.substitute integers
    rw [firstMatch_render paired', finished]
    rfl
  rw [replaceAllExpressions, stops, finished]
  simp [Template.render, renderPairs]

theorem expressions_snoc {before : List (List Char × List Char)} {expr text : List Char} :
    expressions (before ++ [(expr, text)]) = expressions before ++ [expr] := by
  simp [expressions]

/-- A repeated expression is gone already. -/
theorem reached_seen {before : List (List Char × List Char)} {expr text : List Char}
    (seen : expr ∈ expressions before) : reached eval T (before ++ [(expr, text)]) = reached eval T before := by
  have members : ∀ e, e ∈ expressions (before ++ [(expr, text)]) ↔ e ∈ expressions before := by
    intro e
    rw [expressions_snoc, List.mem_append, List.mem_singleton]
    exact ⟨fun either => either.elim id fun same => same ▸ seen, .inl⟩
  unfold reached Template.substitute
  rw [substitutePairs_congr members]

/-- One round, or none for an expression that was replaced before. -/
theorem rounds_run (paired : Paired T) (integers : Integers eval T) (clear : Clear eval T)
    {before after : List (List Char × List Char)} (split : T.pairs = before ++ after) {rounds : Nat}
    (enough : after.length < rounds) :
    replaceAllExpressions eval rounds ((reached eval T before).render '\\') =
      some (T.expanded (valueText eval)) := by
  induction after generalizing before rounds with
  | nil =>
    have all : ∀ p ∈ T.pairs, p.1 ∈ expressions before := by
      intro p member
      rw [split, List.append_nil] at member
      exact List.mem_map_of_mem member
    obtain ⟨rounds, rfl⟩ := Nat.exists_eq_succ_of_ne_zero (Nat.ne_of_gt enough)
    exact rounds_finished paired integers all rounds
  | cons p after ih =>
    obtain ⟨expr, text⟩ := p
    have next : T.pairs = (before ++ [(expr, text)]) ++ after := by rw [split, List.append_assoc]; rfl
    have fewer : after.length < rounds := by
      rw [List.length_cons] at enough
      omega
    by_cases seen : expr ∈ expressions before
    · rw [← reached_seen seen]
      exact ih next fewer
    · have first : FirstPair T before expr := ⟨⟨text, after, split⟩, seen⟩
      have member : (expr, text) ∈ T.pairs := by simp [split]
      obtain ⟨rounds, rfl⟩ := Nat.exists_eq_succ_of_ne_zero (Nat.ne_of_gt (Nat.zero_lt_of_lt enough))
      have replaced := (roundsExact_iff paired integers).mpr clear before expr first
      rw [replaceAllExpressions, firstMatch_reached paired integers first]
      simp only [(integers.value member).1, Option.bind_eq_bind, Option.bind_some, replaced]
      rw [← expressions_snoc]
      exact ih next (by rw [List.length_cons] at enough; omega)

/-- Without such a text the loop ends with all expressions replaced at once, and no round replaces
anything else; with one, some round does. -/
theorem template_expanded (paired : Paired T) (integers : Integers eval T) :
    (RoundsExact eval T ↔ Clear eval T) ∧ (Clear eval T → ∀ rounds, T.pairs.length < rounds →
      replaceAllExpressions eval rounds (T.render '\\') = some (T.expanded (valueText eval))) := by
  refine ⟨roundsExact_iff paired integers, fun clear rounds enough => ?_⟩
  have run := rounds_run paired integers clear (List.nil_append T.pairs).symm enough
  rwa [reached, expressions, List.map_nil, Template.substitute_nil] at run

/-- A text stays at the front of the text behind its part. -/
theorem text_of_substitutePairs {value : List Char → List Char} {pairs : List (List Char × List Char)}
    {p : List Char × List Char} (member : p ∈ (substitutePairs value done pairs).pairs) :
    ∃ q ∈ pairs, q.2 <+: p.2 := by
  induction pairs with
  | nil => cases member
  | cons q rest ih =>
    obtain ⟨e, t⟩ := q
    by_cases inside : e ∈ done
    · rw [substitutePairs, if_pos inside] at member
      obtain ⟨q, later, front⟩ := ih member
      exact ⟨q, List.mem_cons_of_mem _ later, front⟩
    · rw [substitutePairs, if_neg inside] at member
      rcases List.mem_cons.mp member with rfl | member
      · exact ⟨(e, t), List.mem_cons_self, List.prefix_append _ _⟩
      · obtain ⟨q, later, front⟩ := ih member
        exact ⟨q, List.mem_cons_of_mem _ later, front⟩

/-- It is enough that every text has a character no expression has. -/
theorem clear_of_separated (paired : Paired T)
    (separated : ∀ p ∈ T.pairs, ∃ c ∈ p.2, isExpressionChar c = false) : Clear eval T := by
  rintro before expr ⟨⟨text, after, split⟩, -⟩ ⟨p, member, -, same⟩
  obtain ⟨q, inside, front⟩ := text_of_substitutePairs ((List.dropLast_subset _) member)
  obtain ⟨c, there, foreign⟩ := separated q inside
  have chars := (paired.pairs (expr, text) (by simp [split])).2.1 c (same ▸ front.subset there)
  rw [chars] at foreign
  cases foreign

/-- Ruby on a few expressions, with 64 for `xlen`. -/
def smallEval (expr : List Char) : Option (List Char) :=
  if expr = "64".toList ∨ expr = "xlen".toList then some "64".toList
  else if expr = "xlen-1".toList then some "63".toList
  else none

/-- A constant, and twice an expression with the same number between. -/
def adjacentTemplate : Template Char where
  text := []
  pairs := [("64".toList, " ".toList), ("xlen".toList, "64".toList), ("xlen".toList, [])]

instance (T : Template Char) : Decidable (Paired T) :=
  decidable_of_iff ('\\' ∉ T.text ∧
      ∀ p ∈ T.pairs, p.1 ≠ [] ∧ p.1.all isExpressionChar = true ∧ '\\' ∉ p.2) <| by
    simp only [List.all_eq_true]
    exact ⟨fun ⟨text, pairs⟩ => ⟨text, pairs⟩, fun ⟨text, pairs⟩ => ⟨text, pairs⟩⟩

/-- The number is taken for the constant, and what is left raises an exception. -/
theorem number_between_replaced :
    Paired adjacentTemplate ∧ Integers smallEval adjacentTemplate ∧
    adjacentTemplate.expanded (valueText smallEval) = "64 646464".toList ∧
    gsub (delimited '\\' "64".toList) "64".toList (adjacentTemplate.render '\\') =
      "64 \\xlen64xlen\\".toList ∧
    ∀ rounds, replaceAllExpressions smallEval rounds (adjacentTemplate.render '\\') = none := by
  refine ⟨by decide +kernel, ?_, by decide +kernel, by decide +kernel, ?_⟩
  · intro p member
    have value : smallEval p.1 = some "64".toList := by
      revert p
      decide +kernel
    exact ⟨64, value⟩
  · intro rounds
    rcases rounds with _ | _ | rounds <;> rfl

/-- What is left may also evaluate to the right number by chance. -/
example : replaceAllExpressions (fun expr => if expr.all Char.isDigit then some expr else none) 3
    "\\64\\ \\1\\64\\1\\".toList = some "64 1641".toList := by decide +kernel

/-- `shl i\xlen\ %0, \xlen-1\,` -/
def shiftTemplate : Template Char where
  text := "shl i".toList
  pairs := [("xlen".toList, " %0, ".toList), ("xlen-1".toList, ",".toList)]

theorem shift_expanded : replaceAllExpressions smallEval 3 (shiftTemplate.render '\\') =
    some "shl i64 %0, 63,".toList := by
  have paired : Paired shiftTemplate := by decide +kernel
  have integers : Integers smallEval shiftTemplate := by
    intro p member
    rcases List.mem_cons.mp member with rfl | member
    · exact ⟨64, rfl⟩
    · rw [List.mem_singleton.mp member]
      exact ⟨63, rfl⟩
  have separated : ∀ p ∈ shiftTemplate.pairs, ',' ∈ p.2 := by decide +kernel
  have clear : Clear smallEval shiftTemplate :=
    clear_of_separated paired fun p member => ⟨',', separated p member, rfl⟩
  exact (template_expanded paired integers).2 clear 3 (by decide)

end Bleach.ConfigGen
