import Mathlib.Data.BitVec
import Mathlib.Logic.Function.Basic
import Mathlib.Tactic.Common

/-! Little-endian access to byte-addressed memories. The address type is any
additive monoid with a one, so that wrapping machine addresses and plain
natural offsets share the same lemmas. -/
namespace ByteMemory
variable {A B : Type*} [AddMonoidWithOne A] [AddMonoidWithOne B] {i n k : Nat}

abbrev Memory (A : Type*) := A → BitVec 8

/-- Byte `i` of a value, counted from the least significant end. -/
def byte (v : BitVec w) (i : Nat) : BitVec 8 := v.extractLsb' (8 * i) 8

def load (m : Memory A) (a : A) : (n : Nat) → BitVec (8 * n)
  | 0 => 0#0
  | n + 1 => (m (a + n) ++ load m a n).cast (by omega)

def store [DecidableEq A] (m : Memory A) (a : A) (v : BitVec w) : Nat → Memory A
  | 0 => m
  | n + 1 => Function.update (store m a v n) (a + n) (byte v n)

/-- The first `n` addresses from `a` on do not wrap onto each other. -/
def Spread (a : A) (n : Nat) : Prop := ∀ i < n, ∀ j < n, a + (i : A) = a + (j : A) → i = j

def Apart (a : A) (n : Nat) (b : A) (k : Nat) : Prop :=
  ∀ i < n, ∀ j < k, a + (i : A) ≠ b + (j : A)

theorem Spread.mono {a : A} (spread : Spread a n) (bound : k ≤ n) : Spread a k :=
  fun i hi j hj => spread i (by omega) j (by omega)

theorem spread_nat (a n : Nat) : Spread a n := by
  intro i _ j _ same
  simpa using same

theorem getLsbD_load (m : Memory A) (a : A) (n j : Nat) :
    (load m a n).getLsbD j = (decide (j < 8 * n) && (m (a + (j / 8 : Nat))).getLsbD (j % 8)) := by
  induction n with
  | zero => simp [load]
  | succ n ih =>
    simp only [load, BitVec.getLsbD_cast, BitVec.getLsbD_append, ih]
    by_cases low : j < 8 * n
    · simp [low, show j < 8 * (n + 1) by omega]
    · by_cases high : j < 8 * (n + 1)
      · have quotient : j / 8 = n := by omega
        have remainder : j - 8 * n = j % 8 := by omega
        simp [low, high, quotient, remainder]
      · have outside : (m (a + n)).getLsbD (j - 8 * n) = false :=
          BitVec.getLsbD_of_ge _ _ (by omega)
        simp [low, high, outside]

/-- Equal bytes load equally, whatever the two address spaces are. -/
theorem load_congr {m : Memory A} {m' : Memory B} {a : A} {b : B}
    (same : ∀ i < n, m (a + (i : A)) = m' (b + (i : B))) : load m a n = load m' b n := by
  induction n with
  | zero => rfl
  | succ n ih =>
    simp only [load, same n (by omega), ih (fun i hi => same i (by omega))]

variable [DecidableEq A]

theorem store_at {m : Memory A} {a : A} {v : BitVec w} (spread : Spread a n) (bound : i < n) :
    store m a v n (a + (i : A)) = byte v i := by
  induction n with
  | zero => omega
  | succ n ih =>
    by_cases last : i = n
    · subst last
      simp [store]
    · have other : a + (i : A) ≠ a + (n : A) :=
        fun same => last (spread i bound n (by omega) same)
      rw [store, Function.update_of_ne other]
      exact ih (spread.mono (by omega)) (by omega)

theorem store_other {m : Memory A} {a x : A} {v : BitVec w} (outside : ∀ i < n, x ≠ a + (i : A)) :
    store m a v n x = m x := by
  induction n with
  | zero => rfl
  | succ n ih =>
    rw [store, Function.update_of_ne (outside n (by omega))]
    exact ih (fun i hi => outside i (by omega))

theorem load_store_same {m : Memory A} {a : A} {v : BitVec w} (spread : Spread a n) :
    load (store m a v n) a n = v.setWidth (8 * n) := by
  apply BitVec.eq_of_getLsbD_eq
  intro j hj
  have inside : j / 8 < n := by omega
  have position : 8 * (j / 8) + j % 8 = j := by omega
  have short : j % 8 < 8 := by omega
  rw [getLsbD_load, store_at spread inside]
  simp [byte, hj, short, position]

theorem load_store_apart {m : Memory A} {a b : A} {v : BitVec w} (apart : Apart a n b k) :
    load (store m b v k) a n = load m a n :=
  load_congr (fun i hi => store_other (fun j hj => apart i hi j hj))

end ByteMemory
