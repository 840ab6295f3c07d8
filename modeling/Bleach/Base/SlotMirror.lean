import Bleach.Base.ByteMemory
import Mathlib.Tactic.Abel

/-! An array of slots that mirrors a downward growing memory: slot `s` of `k` bytes
holds the memory from `B - k * s` on. Inside a slot bytes keep their order, so
only whole slots change places. -/
namespace SlotMirror
open ByteMemory (Memory Spread)
variable {m k n s i : Nat} {B : BitVec m} {mem : Memory (BitVec m)} {array : Memory Nat}

def slotAddress (B : BitVec m) (k s : Nat) : BitVec m := B - BitVec.ofNat m (k * s)

def Mirrors (B : BitVec m) (k n : Nat) (mem : Memory (BitVec m)) (array : Memory Nat) : Prop :=
  ∀ s < n, ∀ j < k, array (s * k + j) = mem (slotAddress B k s + (j : BitVec m))

theorem position_inj {a b i j : Nat} (hi : i < k) (hj : j < k) (same : k * a + i = k * b + j) :
    a = b ∧ i = j := by
  have pos : 0 < k := by omega
  have slot := congrArg (· / k) same
  have byte := congrArg (· % k) same
  simp only [Nat.mul_add_div pos, Nat.div_eq_of_lt hi, Nat.div_eq_of_lt hj, Nat.add_zero] at slot
  simp only [Nat.mul_add_mod, Nat.mod_eq_of_lt hi, Nat.mod_eq_of_lt hj] at byte
  exact ⟨slot, byte⟩

/-- Counted from the last slot, addresses grow with the byte position. -/
theorem slotAddress_add (bound : s < n) (j : Nat) :
    slotAddress B k s + (j : BitVec m) =
      slotAddress B k (n - 1) + BitVec.ofNat m (k * (n - 1 - s) + j) := by
  have split : k * (n - 1) = k * s + k * (n - 1 - s) := by
    rw [← Nat.mul_add, Nat.add_sub_cancel' (Nat.le_sub_one_of_lt bound)]
  rw [slotAddress, slotAddress, split, BitVec.ofNat_add, BitVec.ofNat_add, BitVec.natCast_eq_ofNat]
  abel

/-- Different bytes of the array stand for different addresses. -/
theorem slotAddress_inj (fits : k * n ≤ 2 ^ m) {s' j j' : Nat} (bound : s < n) (bound' : s' < n)
    (inside : j < k) (inside' : j' < k)
    (same : slotAddress B k s + (j : BitVec m) = slotAddress B k s' + (j' : BitVec m)) :
    s = s' ∧ j = j' := by
  rw [slotAddress_add bound, slotAddress_add bound', add_right_inj] at same
  have below : ∀ {t i}, t < n → i < k → k * (n - 1 - t) + i < 2 ^ m := by
    intro t i _ _
    have top : k * (n - 1 - t) + k ≤ k * n := by
      rw [← Nat.mul_succ]
      exact Nat.mul_le_mul_left k (by omega)
    omega
  have position := congrArg BitVec.toNat same
  rw [BitVec.toNat_ofNat, BitVec.toNat_ofNat, Nat.mod_eq_of_lt (below bound inside),
    Nat.mod_eq_of_lt (below bound' inside')] at position
  obtain ⟨slot, byte⟩ := position_inj inside inside' position
  exact ⟨by omega, byte⟩

theorem Mirrors.load_eq (mirrors : Mirrors B k n mem array) (bound : s < n) (inside : i ≤ k) :
    ByteMemory.load array (s * k) i = ByteMemory.load mem (slotAddress B k s) i :=
  ByteMemory.load_congr fun j before => mirrors s bound j (by omega)

theorem spread_slot (fits : k * n ≤ 2 ^ m) (bound : s < n) : Spread (slotAddress B k s) k :=
  fun _ hi _ hj same => (slotAddress_inj fits bound bound hi hj same).2

/-- A store to the start of a slot is mirrored by a store to its address. -/
theorem Mirrors.store (mirrors : Mirrors B k n mem array) (fits : k * n ≤ 2 ^ m) (bound : s < n)
    (inside : i ≤ k) (v : BitVec w) :
    Mirrors B k n (ByteMemory.store mem (slotAddress B k s) v i)
      (ByteMemory.store array (s * k) v i) := by
  intro t bound' j inside'
  by_cases hit : t = s ∧ j < i
  · obtain ⟨rfl, before⟩ := hit
    have spread := (spread_slot (B := B) fits bound).mono inside
    have here : ByteMemory.store array (t * k) v i (t * k + (j : Nat)) = ByteMemory.byte v j :=
      ByteMemory.store_at (ByteMemory.spread_nat _ i) before
    rw [here, ByteMemory.store_at spread before]
  · have outside : ∀ l < i, t * k + j ≠ s * k + (l : Nat) := by
      intro l before same
      rw [Nat.mul_comm t, Nat.mul_comm s] at same
      obtain ⟨slot, byte⟩ := position_inj inside' (Nat.lt_of_lt_of_le before inside) same
      exact hit ⟨slot, byte ▸ before⟩
    have outside' : ∀ l < i, slotAddress B k t + (j : BitVec m) ≠
        slotAddress B k s + (l : BitVec m) := by
      intro l before same
      obtain ⟨slot, byte⟩ := slotAddress_inj fits bound' bound inside' (by omega) same
      exact hit ⟨slot, byte ▸ before⟩
    rw [ByteMemory.store_other (a := s * k) outside, ByteMemory.store_other outside']
    exact mirrors t bound' j inside'

end SlotMirror
