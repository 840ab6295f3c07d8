import Bleach.Base.FloatBits
import Mathlib.Data.BitVec
import Mathlib.Data.Set.Finite.Lemmas

/-! Rounding of integers to a format: what every rounding mode guarantees. -/
namespace FloatBits
variable {F : Format}

/-- An integer the format holds. -/
def Representable (F : Format) (n : ℤ) : Prop :=
  ∃ b : BitVec F.width, isNaN b = false ∧ value b = ofRat n

/-- A rounding to numbers keeps the order, and integers the format holds. -/
structure Rounds (round : ℤ → BitVec F.width) : Prop where
  number : ∀ n, isNaN (round n) = false
  mono : ∀ {m n}, m ≤ n → value (round m) ≤ value (round n)
  exact : ∀ {n}, Representable F n → value (round n) = ofRat n

theorem ofRat_le_ofRat {p q : ℚ} : ofRat p ≤ ofRat q ↔ p ≤ q := by
  rw [ofRat, ofRat, WithBot.coe_le_coe, WithTop.coe_le_coe]

/-- Two integers with two representable ones between them are rounded apart. -/
theorem Rounds.separates {round : ℤ → BitVec F.width} (rounds : Rounds round) {m n p q : ℤ}
    (hp : Representable F p) (hq : Representable F q) (below : m ≤ p) (between : p < q) (above : q ≤ n) :
    round m ≠ round n := by
  intro same
  have lower := rounds.mono below
  have upper := rounds.mono above
  rw [rounds.exact hp] at lower
  rw [rounds.exact hq, ← same] at upper
  have back := ofRat_le_ofRat.mp (upper.trans lower)
  exact absurd between (not_lt.mpr (by exact_mod_cast back))

/-- The greatest number that is not above an integer. -/
theorem exists_greatest (F : Format) (n : ℤ) : ∃ b : BitVec F.width, isNaN b = false ∧
    value b ≤ ofRat n ∧ ∀ c : BitVec F.width, isNaN c = false → value c ≤ ofRat n → value c ≤ value b := by
  have finite : Finite (BitVec F.width) := Finite.of_injective BitVec.toFin BitVec.toFin_injective
  let candidates : Set (BitVec F.width) := {b | isNaN b = false ∧ value b ≤ ofRat n}
  have positive := Nat.two_pow_pos F.fractionBits
  have top : exponent (pack F true F.maxExponent 0) = F.maxExponent :=
    exponent_pack _ F.maxExponent_lt positive
  have zero : fraction (pack F true F.maxExponent 0) = 0 := fraction_pack _ F.maxExponent_lt positive
  have least : pack F true F.maxExponent 0 ∈ candidates := by
    refine ⟨by simp [isNaN, zero], ?_⟩
    rw [value_infinite _ top, negative_pack _ F.maxExponent_lt positive]
    exact bot_le
  obtain ⟨b, ⟨number, below⟩, greatest⟩ :=
    Set.exists_max_image candidates value (Set.toFinite _) ⟨_, least⟩
  exact ⟨b, number, below, fun c hc le => greatest c ⟨hc, le⟩⟩

/-- Rounding towards negative infinity. -/
noncomputable def roundDown (F : Format) (n : ℤ) : BitVec F.width := (exists_greatest F n).choose

theorem rounds_roundDown (F : Format) : Rounds (roundDown F) where
  number n := (exists_greatest F n).choose_spec.1
  mono {m n} le := by
    obtain ⟨number, below, -⟩ := (exists_greatest F m).choose_spec
    have above : ofRat (m : ℚ) ≤ ofRat (n : ℚ) := ofRat_le_ofRat.mpr (by exact_mod_cast le)
    exact (exists_greatest F n).choose_spec.2.2 _ number (below.trans above)
  exact {n} representable := by
    obtain ⟨b, number, same⟩ := representable
    obtain ⟨-, below, greatest⟩ := (exists_greatest F n).choose_spec
    have reached := greatest b number same.le
    rw [same] at reached
    exact below.antisymm reached

end FloatBits
