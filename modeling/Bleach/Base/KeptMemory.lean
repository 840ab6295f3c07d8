import Bleach.Base.ByteMemory
import Mathlib.Data.List.Find
import Mathlib.Tactic.Abel

/-! A memory some pieces of which are kept in another memory: loads and stores inside a piece
are loads and stores where it is kept. -/
namespace ByteMemory
variable {w : Nat}

/-- `size` bytes from `start` on, kept from `image` on. -/
structure Piece (w : Nat) where
  image : BitVec w
  start : BitVec w
  size : Nat

namespace Piece
variable (s : Piece w) (a p : BitVec w)

/-- The `n` bytes from `a` on. -/
def Covers (n : Nat) : Prop := s.start.toNat ≤ a.toNat ∧ a.toNat + n ≤ s.start.toNat + s.size

instance (n : Nat) : Decidable (s.Covers a n) := inferInstanceAs (Decidable (_ ∧ _))

/-- The byte is one of those kept. -/
def Keeps : Prop := s.image.toNat ≤ p.toNat ∧ p.toNat < s.image.toNat + s.size

instance : Decidable (s.Keeps p) := inferInstanceAs (Decidable (_ ∧ _))

/-- Where a byte is kept. -/
def place : BitVec w := s.image + (a - s.start)

def source : BitVec w := s.start + (p - s.image)

variable {s a p}

@[simp] theorem source_place : s.source (s.place a) = a := by
  rw [source, place]
  abel

@[simp] theorem place_source : s.place (s.source p) = p := by
  rw [source, place]
  abel

theorem place_add (i : BitVec w) : s.place (a + i) = s.place a + i := by
  rw [place, place]
  abel

theorem keeps_place (fits : s.image.toNat + s.size ≤ 2 ^ w) (covers : s.Covers a 1) :
    s.Keeps (s.place a) := by
  obtain ⟨low, high⟩ := covers
  have offset : (a - s.start).toNat = a.toNat - s.start.toNat := BitVec.toNat_sub_of_le low
  have here : (s.place a).toNat = s.image.toNat + (a.toNat - s.start.toNat) := by
    rw [place, BitVec.toNat_add, offset, Nat.mod_eq_of_lt (by omega)]
  constructor <;> omega

theorem covers_source (fits : s.start.toNat + s.size ≤ 2 ^ w) (keeps : s.Keeps p) :
    s.Covers (s.source p) 1 := by
  obtain ⟨low, high⟩ := keeps
  have offset : (p - s.image).toNat = p.toNat - s.image.toNat := BitVec.toNat_sub_of_le low
  have here : (s.source p).toNat = s.start.toNat + (p.toNat - s.image.toNat) := by
    rw [source, BitVec.toNat_add, offset, Nat.mod_eq_of_lt (by omega)]
  constructor <;> omega

/-- Each of the bytes is covered. -/
theorem Covers.at {n i : Nat} (fits : s.start.toNat + s.size ≤ 2 ^ w) (covers : s.Covers a n) (bound : i < n) :
    s.Covers (a + (i : BitVec w)) 1 := by
  obtain ⟨low, high⟩ := covers
  have here : (a + (i : BitVec w)).toNat = a.toNat + i := by
    rw [BitVec.natCast_eq_ofNat, BitVec.toNat_add, BitVec.toNat_ofNat, Nat.add_mod_mod,
      Nat.mod_eq_of_lt (by omega)]
  constructor <;> omega

end Piece

/-- No byte is in two pieces, on either side, and none wraps around. -/
structure Layout (pieces : List (Piece w)) : Prop where
  start : ∀ s ∈ pieces, s.start.toNat + s.size ≤ 2 ^ w
  image : ∀ s ∈ pieces, s.image.toNat + s.size ≤ 2 ^ w
  covers : ∀ s ∈ pieces, ∀ t ∈ pieces, ∀ a, s.Covers a 1 → t.Covers a 1 → s = t
  keeps : ∀ s ∈ pieces, ∀ t ∈ pieces, ∀ p, s.Keeps p → t.Keeps p → s = t

/-- The memory that keeps the pieces of `inner`, and is `outside` elsewhere. -/
def kept (pieces : List (Piece w)) (outside inner : Memory (BitVec w)) : Memory (BitVec w) := fun p =>
  match pieces.find? (·.Keeps p) with
  | some s => inner (s.source p)
  | none => outside p

theorem kept_kept (pieces : List (Piece w)) (outside inner inner' : Memory (BitVec w)) :
    kept pieces (kept pieces outside inner') inner = kept pieces outside inner := by
  funext p
  unfold kept
  split <;> rfl

namespace Layout
variable {pieces : List (Piece w)} {s : Piece w} {a : BitVec w} {outside inner : Memory (BitVec w)}
  {n : Nat}

/-- A piece on its own. -/
theorem single (start : s.start.toNat + s.size ≤ 2 ^ w) (image : s.image.toNat + s.size ≤ 2 ^ w) :
    Layout [s] where
  start := by simpa using start
  image := by simpa using image
  covers := by simp
  keeps := by simp

theorem kept_place (layout : Layout pieces) (member : s ∈ pieces) (covers : s.Covers a 1) :
    kept pieces outside inner (s.place a) = inner a := by
  have keeps := Piece.keeps_place (layout.image s member) covers
  unfold kept
  split
  · next t found =>
    have here : t.Keeps (s.place a) := by simpa using List.find?_some found
    obtain rfl := layout.keeps s member t (List.mem_of_find?_eq_some found) _ keeps here
    rw [Piece.source_place]
  · next none => exact absurd keeps (by simpa using List.find?_eq_none.mp none s member)

theorem load_kept (layout : Layout pieces) (member : s ∈ pieces) (covers : s.Covers a n) :
    load (kept pieces outside inner) (s.place a) n = load inner a n := by
  refine load_congr fun i bound => ?_
  rw [← Piece.place_add]
  exact layout.kept_place member (covers.at (layout.start s member) bound)

theorem store_kept (layout : Layout pieces) (member : s ∈ pieces) (covers : s.Covers a n)
    (spread : Spread a n) (spread' : Spread (s.place a) n) {k : Nat} (v : BitVec k) :
    store (kept pieces outside inner) (s.place a) v n = kept pieces outside (store inner a v n) := by
  funext p
  by_cases written : ∃ i < n, p = s.place a + (i : BitVec w)
  · obtain ⟨i, bound, rfl⟩ := written
    rw [store_at spread' bound, ← Piece.place_add,
      layout.kept_place member (covers.at (layout.start s member) bound), store_at spread bound]
  · have apart : ∀ i < n, p ≠ s.place a + (i : BitVec w) := by simpa using written
    rw [store_other apart]
    unfold kept
    split
    · next t found =>
      have keeps : t.Keeps p := by simpa using List.find?_some found
      have member' := List.mem_of_find?_eq_some found
      refine (store_other fun i bound same => apart i bound ?_).symm
      have here := covers.at (layout.start s member) bound
      have there := Piece.covers_source (layout.start t member') keeps
      rw [same] at there
      obtain rfl := layout.covers s member t member' _ here there
      rw [← Piece.place_add, ← same, Piece.place_source]
    · rfl

end Layout

end ByteMemory
