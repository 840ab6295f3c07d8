import Mathlib.Data.List.Forall2
import Mathlib.Tactic.Common

/-! Computations that may fail: what the parts of one did when the whole succeeded. -/
namespace Bleach
universe u v
variable {ε : Type u} {α β : Type v}

theorem bind_ok {x : Except ε α} {f : α → Except ε β} {r : β} :
    (x >>= f) = .ok r ↔ ∃ a, x = .ok a ∧ f a = .ok r := by
  cases x <;> simp [bind, Except.bind]

theorem mapM_ok {f : α → Except ε β} {l : List α} {r : List β} :
    l.mapM f = .ok r ↔ List.Forall₂ (fun a b => f a = .ok b) l r := by
  induction l generalizing r with
  | nil => simp [pure, Except.pure, eq_comm]
  | cons a l ih =>
    rw [List.mapM_cons, bind_ok]
    constructor
    · rintro ⟨b, here, done⟩
      obtain ⟨r', rest, done⟩ := bind_ok.mp done
      cases done
      exact .cons here (ih.mp rest)
    · intro all
      cases all with
      | cons here rest => exact ⟨_, here, bind_ok.mpr ⟨_, ih.mpr rest, rfl⟩⟩

theorem mapM_ok_map {f : α → Except ε β} {g : α → β} {P : α → Prop} {l : List α} {r : List β}
    (each : ∀ a ∈ l, ∀ b, f a = .ok b ↔ P a ∧ b = g a) :
    l.mapM f = .ok r ↔ (∀ a ∈ l, P a) ∧ r = l.map g := by
  induction l generalizing r with
  | nil => simp [pure, Except.pure, eq_comm]
  | cons a l ih =>
    obtain ⟨here, rest⟩ := List.forall_mem_cons.mp each
    rw [List.mapM_cons, bind_ok, List.forall_mem_cons, List.map_cons]
    constructor
    · rintro ⟨b, first, done⟩
      obtain ⟨r', all, done⟩ := bind_ok.mp done
      obtain ⟨holds, rfl⟩ := (here b).mp first
      obtain ⟨others, rfl⟩ := (ih rest).mp all
      exact ⟨⟨holds, others⟩, (Except.ok.inj done).symm⟩
    · rintro ⟨⟨holds, others⟩, rfl⟩
      exact ⟨_, (here _).mpr ⟨holds, rfl⟩, bind_ok.mpr ⟨_, (ih rest).mpr ⟨others, rfl⟩, rfl⟩⟩

/-- A fold whose state `F` stands for what the elements have contributed so far. -/
theorem foldlM_ok_append {σ γ : Type v} {f : σ → α → Except ε σ} {F : List γ → σ} {g : α → List γ}
    {P : γ → Prop}
    (each : ∀ done a s, f (F done) a = .ok s ↔ (∀ c ∈ g a, P c) ∧ s = F (done ++ g a))
    (l : List α) (done : List γ) {s : σ} :
    l.foldlM f (F done) = .ok s ↔ (∀ c ∈ l.flatMap g, P c) ∧ s = F (done ++ l.flatMap g) := by
  induction l generalizing done with
  | nil => simp [pure, Except.pure, eq_comm]
  | cons a l ih =>
    rw [List.foldlM_cons, bind_ok, List.flatMap_cons, List.forall_mem_append, ← List.append_assoc]
    constructor
    · rintro ⟨s', first, rest⟩
      obtain ⟨here, rfl⟩ := (each done a s').mp first
      obtain ⟨later, same⟩ := (ih _).mp rest
      exact ⟨⟨here, later⟩, same⟩
    · rintro ⟨⟨here, later⟩, same⟩
      exact ⟨_, (each done a _).mpr ⟨here, rfl⟩, (ih _).mpr ⟨later, same⟩⟩

theorem forall₂_get {R : α → β → Prop} {l : List α} {r : List β} (all : List.Forall₂ R l r) {k : Nat}
    {a : α} (found : l[k]? = some a) : ∃ b, r[k]? = some b ∧ R a b := by
  induction all generalizing k with
  | nil => simp at found
  | cons here _ ih =>
    cases k with
    | zero =>
      cases found
      exact ⟨_, rfl, here⟩
    | succ k => exact ih found

theorem forall₂_mem {R : α → β → Prop} {l : List α} {r : List β} (all : List.Forall₂ R l r) {a : α}
    (member : a ∈ l) : ∃ b ∈ r, R a b := by
  obtain ⟨k, found⟩ := List.mem_iff_getElem?.mp member
  obtain ⟨b, there, here⟩ := forall₂_get all found
  exact ⟨b, List.mem_of_getElem? there, here⟩

end Bleach
