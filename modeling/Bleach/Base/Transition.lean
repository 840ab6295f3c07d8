import Mathlib.Data.Nat.Basic
import Mathlib.Tactic.Common

/-! Deterministic machines given by a partial step function. A state without a
successor has halted. Forward simulations may stutter on the simulated side as
long as a rank decreases, so that termination is reflected as well. -/
namespace Transition
variable {S T : Type*}

/-- Exactly `n` steps. -/
def iterate (step : S → Option S) : Nat → S → Option S
  | 0, s => some s
  | n + 1, s => (step s).bind (iterate step n)

@[simp] theorem iterate_zero (step : S → Option S) (s : S) : iterate step 0 s = some s := rfl

theorem iterate_succ (step : S → Option S) (n : Nat) (s : S) :
    iterate step (n + 1) s = (step s).bind (iterate step n) := rfl

theorem iterate_add (step : S → Option S) (m n : Nat) (s : S) :
    iterate step (m + n) s = (iterate step m s).bind (iterate step n) := by
  induction m generalizing s with
  | zero => simp
  | succ m ih =>
    rw [Nat.succ_add, iterate_succ, iterate_succ, Option.bind_assoc]
    exact congrArg _ (funext ih)

def Reaches (step : S → Option S) (s t : S) : Prop := ∃ n, iterate step n s = some t

namespace Reaches
variable {step : S → Option S} {s t u : S}

theorem refl (s : S) : Reaches step s s := ⟨0, rfl⟩

theorem single (h : step s = some t) : Reaches step s t := ⟨1, by simp [iterate, h]⟩

theorem trans (first : Reaches step s t) (second : Reaches step t u) : Reaches step s u := by
  obtain ⟨m, hm⟩ := first
  obtain ⟨n, hn⟩ := second
  exact ⟨m + n, by rw [iterate_add, hm, Option.bind_some, hn]⟩

theorem head (h : step s = some t) (rest : Reaches step t u) : Reaches step s u :=
  (single h).trans rest

theorem invariant {P : S → Prop} (preserves : ∀ {s t}, P s → step s = some t → P t)
    (run : Reaches step s t) (initial : P s) : P t := by
  obtain ⟨n, hn⟩ := run
  induction n generalizing s with
  | zero => exact Option.some.inj hn ▸ initial
  | succ n ih =>
    obtain ⟨middle, first, rest⟩ := Option.bind_eq_some_iff.mp hn
    exact ih (preserves initial first) rest

/-- Of two runs from one state one continues the other. -/
theorem linear (first : Reaches step s t) (second : Reaches step s u) :
    Reaches step t u ∨ Reaches step u t := by
  obtain ⟨m, hm⟩ := first
  obtain ⟨n, hn⟩ := second
  rcases Nat.le_total m n with le | le
  · rw [← Nat.add_sub_cancel' le, iterate_add, hm, Option.bind_some] at hn
    exact .inl ⟨n - m, hn⟩
  · rw [← Nat.add_sub_cancel' le, iterate_add, hn, Option.bind_some] at hm
    exact .inr ⟨m - n, hm⟩

theorem of_halted (halted : step s = none) (run : Reaches step s t) : t = s := by
  obtain ⟨n, hn⟩ := run
  cases n with
  | zero => exact (Option.some.inj hn).symm
  | succ n => simp [iterate_succ, halted] at hn

end Reaches

/-- At least one step. -/
def Advances (step : S → Option S) (s t : S) : Prop := ∃ n, 0 < n ∧ iterate step n s = some t

namespace Advances
variable {step : S → Option S} {s t u : S}

theorem snoc (path : Reaches step s t) (last : step t = some u) : Advances step s u := by
  obtain ⟨n, hn⟩ := path
  refine ⟨n + 1, Nat.succ_pos n, ?_⟩
  rw [iterate_add, hn, Option.bind_some, iterate_succ, last]
  rfl

theorem trans (first : Advances step s t) (rest : Reaches step t u) : Advances step s u := by
  obtain ⟨m, pos, hm⟩ := first
  obtain ⟨n, hn⟩ := rest
  exact ⟨m + n, Nat.add_pos_left pos n, by rw [iterate_add, hm, Option.bind_some, hn]⟩

end Advances

section Map
variable {stepA : S → Option S} {stepB : T → Option T} {f : S → T}
  (keeps : ∀ {s t}, stepA s = some t → stepB (f s) = some (f t)) {s t : S}
include keeps

/-- A map under which every step stays a step keeps runs. -/
theorem iterate_map {n : Nat} (path : iterate stepA n s = some t) : iterate stepB n (f s) = some (f t) := by
  induction n generalizing s with
  | zero => exact congrArg _ (congrArg f (Option.some.inj path))
  | succ n ih =>
    obtain ⟨middle, first, rest⟩ := Option.bind_eq_some_iff.mp path
    rw [iterate_succ, keeps first]
    exact ih rest

theorem Reaches.map (path : Reaches stepA s t) : Reaches stepB (f s) (f t) := by
  obtain ⟨n, path⟩ := path
  exact ⟨n, iterate_map keeps path⟩

theorem Advances.map (path : Advances stepA s t) : Advances stepB (f s) (f t) := by
  obtain ⟨n, pos, path⟩ := path
  exact ⟨n, pos, iterate_map keeps path⟩

end Map

/-- A run all of whose states, both ends included, satisfy `P`. -/
inductive Within (step : S → Option S) (P : S → Prop) : S → S → Prop where
  | refl (here : P s) : Within step P s s
  | next (here : P s) (first : step s = some t) (rest : Within step P t u) : Within step P s u

namespace Within
variable {step : S → Option S} {P Q : S → Prop} {s t : S}

theorem start (run : Within step P s t) : P s := by
  cases run with
  | refl here => exact here
  | next here _ _ => exact here

theorem finish (run : Within step P s t) : P t := by
  induction run with
  | refl here => exact here
  | next _ _ _ ih => exact ih

theorem reaches (run : Within step P s t) : Reaches step s t := by
  induction run with
  | refl _ => exact .refl _
  | next _ first _ ih => exact .head first ih

theorem trans (first : Within step P s t) (second : Within step P t u) : Within step P s u := by
  induction first with
  | refl _ => exact second
  | next here one _ ih => exact .next here one (ih second)

theorem snoc (run : Within step P s t) (last : step t = some u) (here : P u) : Within step P s u :=
  run.trans (.next run.finish last (.refl here))

/-- What a step preserves while `P` holds, the run preserves. -/
theorem invariant (preserves : ∀ {s t}, P s → P t → Q s → step s = some t → Q t)
    (run : Within step P s t) (initial : Q s) : Q t := by
  induction run with
  | refl _ => exact initial
  | next here first rest ih => exact ih (preserves here rest.start initial first)

end Within

def Halts (step : S → Option S) (s t : S) : Prop := Reaches step s t ∧ step t = none

theorem iterate_halted {step : S → Option S} (halted : step s = none)
    (run : iterate step n s = some t) : n = 0 ∧ t = s := by
  cases n with
  | zero => exact ⟨rfl, (Option.some.inj run).symm⟩
  | succ n => simp [iterate, halted] at run

/-- A halting run passes through every state reached before. -/
theorem iterate_split {step : S → Option S} (whole : iterate step n s = some t)
    (halted : step t = none) (part : iterate step m s = some u) :
    m ≤ n ∧ iterate step (n - m) u = some t := by
  by_cases within : m ≤ n
  · refine ⟨within, ?_⟩
    rw [← Nat.add_sub_cancel' within, iterate_add, part] at whole
    simpa using whole
  · have later : iterate step (m - n) t = some u := by
      rw [← Nat.add_sub_cancel' (Nat.le_of_not_le within), iterate_add, whole] at part
      simpa using part
    have := (iterate_halted halted later).1
    omega

theorem Halts.unique {step : S → Option S} (first : Halts step s t) (second : Halts step s u) :
    t = u := by
  obtain ⟨⟨m, hm⟩, halted⟩ := first
  obtain ⟨⟨n, hn⟩, stuck⟩ := second
  obtain ⟨_, rest⟩ := iterate_split hm halted hn
  exact (iterate_halted stuck rest).2

theorem Halts.of_reaches {step : S → Option S} (halts : Halts step s t) (run : Reaches step s u) :
    Halts step u t := by
  obtain ⟨⟨m, hm⟩, halted⟩ := halts
  obtain ⟨n, hn⟩ := run
  exact ⟨⟨m - n, (iterate_split hm halted hn).2⟩, halted⟩

/-- Every step of the left machine is answered by some steps of the right one,
none at all only if the rank drops; where the left machine halts the right one
runs on to a halted state of the same outcome. -/
structure Simulation (stepA : S → Option S) (stepB : T → Option T) (Related : S → T → Prop)
    (Outcome : S → T → Prop) (rank : S → Nat) : Prop where
  step : ∀ {a a' b}, Related a b → stepA a = some a' →
    ∃ n b', iterate stepB n b = some b' ∧ Related a' b' ∧ (n = 0 → rank a' < rank a)
  halt : ∀ {a b}, Related a b → stepA a = none → ∃ b', Halts stepB b b' ∧ Outcome a b'

namespace Simulation
variable {stepA : S → Option S} {stepB : T → Option T} {Related Outcome : S → T → Prop}
  {rank : S → Nat} {a a' : S} {b b' : T}

theorem run (sim : Simulation stepA stepB Related Outcome rank) (related : Related a b)
    (path : Reaches stepA a a') : ∃ b', Reaches stepB b b' ∧ Related a' b' := by
  obtain ⟨n, hn⟩ := path
  induction n generalizing a b with
  | zero => exact ⟨b, .refl b, Option.some.inj hn ▸ related⟩
  | succ n ih =>
    obtain ⟨middle, first, rest⟩ := Option.bind_eq_some_iff.mp hn
    obtain ⟨k, c, hk, related', _⟩ := sim.step related first
    obtain ⟨b', path, final⟩ := ih related' rest
    exact ⟨b', Reaches.trans ⟨k, hk⟩ path, final⟩

theorem halts (sim : Simulation stepA stepB Related Outcome rank) (related : Related a b)
    (finishes : Halts stepA a a') : ∃ b', Halts stepB b b' ∧ Outcome a' b' := by
  obtain ⟨c, path, related'⟩ := sim.run related finishes.1
  obtain ⟨b', ⟨rest, halted⟩, outcome⟩ := sim.halt related' finishes.2
  exact ⟨b', ⟨path.trans rest, halted⟩, outcome⟩

/-- Termination is reflected: the induction is on the right machine's remaining
steps and, while it stands still, on the rank. -/
theorem reflects (sim : Simulation stepA stepB Related Outcome rank) (related : Related a b)
    (finishes : Halts stepB b b') : ∃ a', Halts stepA a a' ∧ Outcome a' b' := by
  obtain ⟨⟨n, hn⟩, halted⟩ := finishes
  induction n using Nat.strong_induction_on generalizing a b with
  | _ n outer =>
    induction hr : rank a using Nat.strong_induction_on generalizing a b with
    | _ r inner =>
      cases first : stepA a with
      | none =>
        obtain ⟨c, done, outcome⟩ := sim.halt related first
        obtain rfl := done.unique ⟨⟨n, hn⟩, halted⟩
        exact ⟨a, ⟨.refl a, first⟩, outcome⟩
      | some next =>
        obtain ⟨k, c, hk, related', drops⟩ := sim.step related first
        obtain ⟨bound, rest⟩ := iterate_split hn halted hk
        have finish : ∃ a', Halts stepA next a' ∧ Outcome a' b' := by
          by_cases still : k = 0
          · subst still
            exact inner (rank next) (hr ▸ drops rfl) related' (by simpa using rest) rfl
          · exact outer (n - k) (by omega) related' rest
        obtain ⟨a', ⟨path, done⟩, outcome⟩ := finish
        exact ⟨a', ⟨.head first path, done⟩, outcome⟩

end Simulation
end Transition
