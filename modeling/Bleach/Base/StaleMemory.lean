import Bleach.Base.ByteMemory

/-! Two memories that agree but for some stale bytes. What is loaded from bytes none of which is
stale is the same, and stores of the same value, or of stale ones, agree again. -/
namespace ByteMemory
variable {A : Type*} [AddMonoidWithOne A] {stale : A → Bool} {m m' : Memory A} {a : A} {n : Nat}

def AgreeOff (stale : A → Bool) (m m' : Memory A) : Prop := ∀ a, stale a = false → m a = m' a

/-- Some of the `n` bytes from `a` on are stale. -/
def someStale (stale : A → Bool) (a : A) (n : Nat) : Bool := decide (∃ i < n, stale (a + (i : A)) = true)

theorem AgreeOff.load (agree : AgreeOff stale m m') (fresh : someStale stale a n = false) :
    load m a n = load m' a n := by
  refine load_congr fun i bound => agree _ ?_
  have none := of_decide_eq_false fresh
  simpa using fun stale => none ⟨i, bound, stale⟩

variable [DecidableEq A]

/-- The `n` bytes from `a` on become stale, or fresh. -/
def marked (stale : A → Bool) (a : A) (n : Nat) (s : Bool) : A → Bool := fun x =>
  if ∃ i < n, x = a + (i : A) then s else stale x

theorem AgreeOff.store {w : Nat} {v v' : BitVec w} {s : Bool} (agree : AgreeOff stale m m')
    (spread : Spread a n) (same : s = false → v = v') :
    AgreeOff (marked stale a n s) (store m a v n) (store m' a v' n) := by
  intro x fresh
  unfold marked at fresh
  split at fresh
  · next inside =>
    obtain ⟨i, bound, rfl⟩ := inside
    rw [store_at spread bound, store_at spread bound, same fresh]
  · next outside =>
    have apart : ∀ i < n, x ≠ a + (i : A) := fun i bound here => outside ⟨i, bound, here⟩
    rw [store_other apart, store_other apart]
    exact agree x fresh

end ByteMemory
