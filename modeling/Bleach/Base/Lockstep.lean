import Bleach.Base.Transition

/-! Two deterministic machines that make the same steps, what one machine shows of another, and a
machine that stops where a guard fails. -/
namespace Transition
variable {S T U : Type*} {stepA : S → Option S} {stepB : T → Option T} {stepC : U → Option U}
  {R : S → T → Prop} {Q : T → U → Prop}

/-- From related states both machines step to related states, or neither steps. -/
def Lockstep (stepA : S → Option S) (stepB : T → Option T) (R : S → T → Prop) : Prop :=
  ∀ a b, R a b → Option.Rel R (stepA a) (stepB b)

namespace Lockstep
variable {a a' : S} {b b' : T}

theorem symm (same : Lockstep stepA stepB R) : Lockstep stepB stepA fun b a => R a b := by
  intro b a related
  have answer := same a b related
  generalize stepA a = s at answer
  generalize stepB b = t at answer
  cases answer with
  | some next => exact .some next
  | none => exact .none

/-- The first machine need only step with the second where the third one leads it. -/
theorem under (first : ∀ a b c, R a b → Q b c → Option.Rel R (stepA a) (stepB b))
    (second : Lockstep stepB stepC Q) : Lockstep stepA stepC fun a c => ∃ b, R a b ∧ Q b c := by
  rintro a c ⟨b, related, related'⟩
  have left := first a b c related related'
  have right := second b c related'
  generalize stepA a = s at left
  generalize stepB b = t at left right
  generalize stepC c = u at right
  cases left with
  | some next =>
    cases right with
    | some next' => exact .some ⟨_, next, next'⟩
  | none =>
    cases right with
    | none => exact .none

theorem step (same : Lockstep stepA stepB R) (related : R a b) (first : stepA a = some a') :
    ∃ b', stepB b = some b' ∧ R a' b' := by
  have answer := same a b related
  rw [first] at answer
  generalize stepB b = t at answer
  cases answer with
  | some next => exact ⟨_, rfl, next⟩

theorem halted (same : Lockstep stepA stepB R) (related : R a b) : stepA a = none ↔ stepB b = none := by
  have answer := same a b related
  generalize stepA a = s at answer
  generalize stepB b = t at answer
  cases answer <;> simp

theorem reaches (same : Lockstep stepA stepB R) (related : R a b) (path : Reaches stepA a a') :
    ∃ b', Reaches stepB b b' ∧ R a' b' := by
  obtain ⟨n, run⟩ := path
  induction n generalizing a b with
  | zero => exact ⟨b, .refl b, Option.some.inj run ▸ related⟩
  | succ n ih =>
    obtain ⟨middle, first, rest⟩ := Option.bind_eq_some_iff.mp run
    obtain ⟨c, here, related'⟩ := same.step related first
    obtain ⟨b', path, final⟩ := ih related' rest
    exact ⟨b', .head here path, final⟩

theorem halts (same : Lockstep stepA stepB R) (related : R a b) (finishes : Halts stepA a a') :
    ∃ b', Halts stepB b b' ∧ R a' b' := by
  obtain ⟨b', path, final⟩ := same.reaches related finishes.1
  exact ⟨b', ⟨path, (same.halted final).mp finishes.2⟩, final⟩

end Lockstep

/-- From `b` on the right machine passes through what the left one does from `a` on, and halts just
where that halts. -/
structure Exhibits (stepA : S → Option S) (stepB : T → Option T) (Shown Ended : S → T → Prop) (a : S) (b : T) :
    Prop where
  passes : ∀ a', Reaches stepA a a' → ∃ b', Reaches stepB b b' ∧ Shown a' b'
  halts : ∀ a', Halts stepA a a' → ∃ b', Halts stepB b b' ∧ Ended a' b'
  reflects : ∀ b', Halts stepB b b' → ∃ a', Halts stepA a a' ∧ Ended a' b'

section
variable {Shown Ended : S → T → Prop} {a : S} {b b₀ : T}

/-- A simulation that is entered some steps later. -/
theorem Simulation.exhibits {rank : S → Nat} (sim : Simulation stepA stepB R Ended rank) (related : R a b)
    (entry : Reaches stepB b₀ b) (shown : ∀ a b, R a b → Shown a b) :
    Exhibits stepA stepB Shown Ended a b₀ where
  passes a' path := by
    obtain ⟨b', path', related'⟩ := sim.run related path
    exact ⟨b', entry.trans path', shown a' b' related'⟩
  halts a' finishes := by
    obtain ⟨b', ⟨path, halted⟩, ended⟩ := sim.halts related finishes
    exact ⟨b', ⟨entry.trans path, halted⟩, ended⟩
  reflects _ finishes := sim.reflects related (finishes.of_reaches entry)

namespace Exhibits

/-- What is shown of a machine is shown of one in lockstep with it. -/
theorem before {P : U → S → Prop} {Shown' Ended' : U → T → Prop} {c : U}
    (through : Exhibits stepA stepB Shown Ended a b) (same : Lockstep stepC stepA P) (related : P c a)
    (shown : ∀ c a b, P c a → Shown a b → Shown' c b) (ended : ∀ c a b, P c a → Ended a b → Ended' c b) :
    Exhibits stepC stepB Shown' Ended' c b where
  passes c' path := by
    obtain ⟨a', path', related'⟩ := same.reaches related path
    obtain ⟨b', path'', here⟩ := through.passes a' path'
    exact ⟨b', path'', shown c' a' b' related' here⟩
  halts c' finishes := by
    obtain ⟨a', finishes', related'⟩ := same.halts related finishes
    obtain ⟨b', finishes'', here⟩ := through.halts a' finishes'
    exact ⟨b', finishes'', ended c' a' b' related' here⟩
  reflects b' finishes := by
    obtain ⟨a', finishes', here⟩ := through.reflects b' finishes
    obtain ⟨c', finishes'', related'⟩ := same.symm.halts related finishes'
    exact ⟨c', finishes'', ended c' a' b' related' here⟩

/-- What a machine shows, one in lockstep with it shows. -/
theorem behind {Q : T → U → Prop} {Shown' Ended' : S → U → Prop} {c : U}
    (through : Exhibits stepA stepB Shown Ended a b) (same : Lockstep stepB stepC Q) (related : Q b c)
    (shown : ∀ a b c, Q b c → Shown a b → Shown' a c) (ended : ∀ a b c, Q b c → Ended a b → Ended' a c) :
    Exhibits stepA stepC Shown' Ended' a c where
  passes a' path := by
    obtain ⟨b', path', here⟩ := through.passes a' path
    obtain ⟨c', path'', related'⟩ := same.reaches related path'
    exact ⟨c', path'', shown a' b' c' related' here⟩
  halts a' finishes := by
    obtain ⟨b', finishes', here⟩ := through.halts a' finishes
    obtain ⟨c', finishes'', related'⟩ := same.halts related finishes'
    exact ⟨c', finishes'', ended a' b' c' related' here⟩
  reflects c' finishes := by
    obtain ⟨b', finishes', related'⟩ := same.symm.halts related finishes
    obtain ⟨a', finishes'', here⟩ := through.reflects b' finishes'
    exact ⟨a', finishes'', ended a' b' c' related' here⟩

end Exhibits

end

def Always (P : S → Prop) (step : S → Option S) (s : S) : Prop := ∀ t, Reaches step s t → P t

namespace Always
variable {P : S → Prop} {step : S → Option S} {s t : S}

theorem now (always : Always P step s) : P s := always s (.refl s)

theorem next (always : Always P step s) (first : step s = some t) : Always P step t :=
  fun u path => always u (.head first path)

theorem rel {other : Option T} (always : Always P step s) (related : Option.Rel R (step s) other) :
    Option.Rel (fun s t => Always P step s ∧ R s t) (step s) other := by
  have next := fun t => always.next (t := t)
  generalize step s = o at related next
  cases related with
  | some both => exact .some ⟨next _ rfl, both⟩
  | none => exact .none

/-- It is enough to look at the states of a run that ends. -/
theorem of_run {n : Nat} (run : iterate step n s = some t) (halted : step t = none)
    (each : ∀ m ≤ n, ∀ u ∈ iterate step m s, P u) : Always P step s := by
  rintro u ⟨m, path⟩
  rcases Nat.le_total m n with before | behind
  · exact each m before u path
  · obtain ⟨k, rfl⟩ := Nat.exists_eq_add_of_le behind
    have rest : Reaches step t u := by
      rw [iterate_add, run] at path
      exact ⟨k, path⟩
    rw [Reaches.of_halted halted rest]
    exact each n le_rfl t run

end Always

/-- The machine that stops in front of a step the guard forbids. -/
def guarded (P : S → Prop) [DecidablePred P] (step : S → Option S) (s : S) : Option S :=
  if P s then step s else none

end Transition
