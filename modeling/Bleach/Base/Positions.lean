import Bleach.Base.Fallible

/-! Lists inside longer ones: every position of the first has one in the second that
holds the same element. -/
namespace Bleach
universe u v

structure Embeds {α : Type v} (σ : Nat → Nat) (l l' : List α) : Prop where
  injective : Function.Injective σ
  kept : ∀ (k : Nat) (a : α), l[k]? = some a → l'[σ k]? = some a

namespace Embeds
variable {ε : Type u} {α β : Type v} {σ τ : Nat → Nat} {l l' l'' : List α}

theorem refl (l : List α) : Embeds id l l := ⟨Function.injective_id, fun _ _ => id⟩

theorem trans (first : Embeds σ l l') (second : Embeds τ l' l'') : Embeds (τ ∘ σ) l l'' :=
  ⟨second.injective.comp first.injective,
    fun k a found => second.kept (σ k) a (first.kept k a found)⟩

theorem add (a : α) (l : List α) : Embeds Nat.succ l (a :: l) :=
  ⟨fun _ _ => Nat.succ.inj, fun _ _ found => found⟩

theorem cons (a : α) (embeds : Embeds σ l l') :
    Embeds (fun k => Nat.casesOn k 0 fun k => σ k + 1) (a :: l) (a :: l') := by
  constructor
  · rintro (_ | j) (_ | k) same
    · rfl
    · cases same
    · cases same
    · rw [embeds.injective (Nat.succ.inj same)]
  · rintro (_ | k) b found
    · exact found
    · exact embeds.kept k b found

theorem swap (a b : α) (l : List α) :
    Embeds (fun k => if k = 0 then 1 else if k = 1 then 0 else k) (b :: a :: l) (a :: b :: l) := by
  constructor
  · intro j k same
    simp only at same
    split at same <;> split at same <;> (try split at same) <;> (try split at same) <;> omega
  · rintro (_ | _ | k) c found
    · exact found
    · exact found
    · exact found

theorem of_perm (perm : l.Perm l') : ∃ σ, Embeds σ l l' := by
  induction perm with
  | nil => exact ⟨id, refl []⟩
  | cons a _ ih =>
    obtain ⟨σ, embeds⟩ := ih
    exact ⟨_, embeds.cons a⟩
  | swap a b l => exact ⟨_, swap a b l⟩
  | trans _ _ ih ih' =>
    obtain ⟨σ, first⟩ := ih
    obtain ⟨τ, second⟩ := ih'
    exact ⟨_, first.trans second⟩

/-- Results computed element by element keep their positions. -/
theorem mapM {f : α → Except ε β} {r r' : List β} (embeds : Embeds σ l l') (run : l.mapM f = .ok r)
    (run' : l'.mapM f = .ok r') : Embeds σ r r' := by
  refine ⟨embeds.injective, fun k b found => ?_⟩
  obtain ⟨a, at_k, made⟩ := forall₂_get (mapM_ok.mp run).flip found
  obtain ⟨b', at_k', made'⟩ := forall₂_get (mapM_ok.mp run') (embeds.kept k a at_k)
  rw [at_k', Except.ok.inj (made.symm.trans made')]

end Embeds
end Bleach
