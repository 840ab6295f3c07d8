import Bleach.ScalarTemplates
import Bleach.StackAccess
import Bleach.Base.BitBlocks

/-! Arithmetic on pointers into the stack. The lifted code of a register-immediate
instruction applies the function of the instruction to a slot and a number of slots; what
the guest computes is in bytes. -/
namespace Bleach.RiscV
open SlotMirror (slotAddress)
open IntegerOps
variable {B a b s t : BitVec 64}

/-- Slot `s` stands for the eight bytes with the address. -/
def Covers (B s a : BitVec 64) : Prop := (a - slotAddress B 8 s.toNat).toNat < 8

instance (B s a : BitVec 64) : Decidable (Covers B s a) := inferInstanceAs (Decidable (_ < _))

theorem slotAddress_eq (B s : BitVec 64) : slotAddress B 8 s.toNat = B - 8#64 * s := by
  rw [slotAddress, BitVec.ofNat_mul, BitVec.ofNat_toNat, BitVec.setWidth_eq]

theorem covers_iff : Covers B s a ↔ ∃ e : Nat, e < 8 ∧ a = B - 8#64 * s + BitVec.ofNat 64 e := by
  rw [Covers, slotAddress_eq]
  constructor
  · intro inside
    refine ⟨_, inside, ?_⟩
    rw [BitVec.ofNat_toNat, BitVec.setWidth_eq]
    abel
  · rintro ⟨e, small, rfl⟩
    have rest : B - 8#64 * s + BitVec.ofNat 64 e - (B - 8#64 * s) = BitVec.ofNat 64 e := by abel
    rw [rest, BitVec.toNat_ofNat]
    omega

/-- Every address lies in some slot. -/
theorem exists_covers (B a : BitVec 64) : ∃ s, Covers B s a := by
  let q := (a - B).toNat / 8
  let e := (a - B).toNat % 8
  refine ⟨-BitVec.ofNat 64 q, covers_iff.mpr ⟨e, by omega, ?_⟩⟩
  have split : a - B = 8#64 * BitVec.ofNat 64 q + BitVec.ofNat 64 e := by
    apply BitVec.eq_of_toNat_eq
    have whole : 8 * q + e = (a - B).toNat := Nat.div_add_mod _ _
    have bound := (a - B).isLt
    rw [← BitVec.ofNat_mul, ← BitVec.ofNat_add, whole, BitVec.ofNat_toNat, BitVec.setWidth_eq]
  calc a = B + (a - B) := by abel
    _ = B - 8#64 * -BitVec.ofNat 64 q + BitVec.ofNat 64 e := by
      rw [split]
      ring

/-- Slots differ as their addresses do, up to the places inside of them. -/
theorem Covers.near (here : Covers B s a) (there : Covers B t b) :
    (b - a + 8#64 * (t - s)).toNat < 8 ∨ 2 ^ 64 - 8 < (b - a + 8#64 * (t - s)).toNat := by
  obtain ⟨e, small, rfl⟩ := covers_iff.mp here
  obtain ⟨e', small', rfl⟩ := covers_iff.mp there
  have apart : B - 8#64 * t + BitVec.ofNat 64 e' - (B - 8#64 * s + BitVec.ofNat 64 e) + 8#64 * (t - s) =
      BitVec.ofNat 64 e' - BitVec.ofNat 64 e := by ring
  rw [apart, BitVec.toNat_sub, BitVec.toNat_ofNat, BitVec.toNat_ofNat]
  omega

/-- At least a slot in either direction. -/
def Far (gap : BitVec 64) : Prop := 8 ≤ gap.toNat ∧ gap.toNat ≤ 0xfffffffffffffff8

instance (gap : BitVec 64) : Decidable (Far gap) := inferInstanceAs (Decidable (_ ∧ _))

theorem Covers.apart (here : Covers B s a) (there : Covers B t b) {gap : BitVec 64}
    (distance : b - a + 8#64 * (t - s) = gap) (far : Far gap) : False := by
  have near := here.near there
  rw [distance] at near
  unfold Far at far
  omega

/-- The opcodes that take a register and an immediate. -/
inductive ImmOp where
  | addi | andi | ori | xori | sltiu | slli | srli | srai | addiw | slliw | srliw | sraiw
  deriving DecidableEq

namespace ImmOp

def name : ImmOp → String
  | addi => "ADDI"
  | andi => "ANDI"
  | ori => "ORI"
  | xori => "XORI"
  | sltiu => "SLTIU"
  | slli => "SLLI"
  | srli => "SRLI"
  | srai => "SRAI"
  | addiw => "ADDIW"
  | slliw => "SLLIW"
  | srliw => "SRLIW"
  | sraiw => "SRAIW"

def template : ImmOp → BitVec 64 → BitVec 64 → Option (BitVec 64)
  | addi => Templates.ADDI
  | andi => Templates.ANDI
  | ori => Templates.ORI
  | xori => Templates.XORI
  | sltiu => Templates.SLTIU
  | slli => Templates.SLLI
  | srli => Templates.SRLI
  | srai => Templates.SRAI
  | addiw => Templates.ADDIW
  | slliw => Templates.SLLIW
  | srliw => Templates.SRLIW
  | sraiw => Templates.SRAIW

/-- The immediates the encoding of an opcode has room for. -/
def Encodes : ImmOp → Int → Prop
  | slli, imm | srli, imm | srai, imm => 0 ≤ imm ∧ imm < 64
  | slliw, imm | srliw, imm | sraiw, imm => 0 ≤ imm ∧ imm < 32
  | _, imm => -2048 ≤ imm ∧ imm < 2048

/-- What the architecture specifies. -/
def guest (op : ImmOp) (a : BitVec 64) (imm : Int) : BitVec 64 :=
  match op with
  | addi => a + .ofInt 64 imm
  | andi => a &&& .ofInt 64 imm
  | ori => a ||| .ofInt 64 imm
  | xori => a ^^^ .ofInt 64 imm
  | sltiu => if a < .ofInt 64 imm then 1 else 0
  | slli => a <<< imm.toNat
  | srli => a >>> imm.toNat
  | srai => a.sshiftRight imm.toNat
  | addiw => ((a + .ofInt 64 imm).setWidth 32).signExtend 64
  | slliw => (a.setWidth 32 <<< imm.toNat).signExtend 64
  | srliw => (a.setWidth 32 >>> imm.toNat).signExtend 64
  | sraiw => ((a.setWidth 32).sshiftRight imm.toNat).signExtend 64

end ImmOp

theorem amount_toNat {n : Nat} (small : n < 64) : (BitVec.ofInt 64 n &&& 63).toNat = n := by
  rw [BitVec.ofInt_natCast, BitVec.toNat_and, BitVec.toNat_ofNat, Nat.mod_eq_of_lt (by omega)]
  exact (Nat.and_two_pow_sub_one_eq_mod n 6).trans (Nat.mod_eq_of_lt small)

theorem word_amount_toNat {n : Nat} (small : n < 32) :
    ((BitVec.ofInt 64 n).setWidth 32).toNat = n ∧ ((BitVec.ofInt 64 n).setWidth 32 &&& 63).toNat = n := by
  have plain : ((BitVec.ofInt 64 n).setWidth 32).toNat = n := by
    rw [BitVec.ofInt_natCast, BitVec.toNat_setWidth, BitVec.toNat_ofNat]
    omega
  refine ⟨plain, ?_⟩
  rw [BitVec.toNat_and, plain]
  exact (Nat.and_two_pow_sub_one_eq_mod n 6).trans (Nat.mod_eq_of_lt (by omega))

/-- On what the guest has the templates compute what the architecture specifies. -/
theorem template_guest {op : ImmOp} {imm : Int} (fits : op.Encodes imm) (a : BitVec 64) :
    op.template a (.ofInt 64 imm) = some (op.guest a imm) := by
  cases op with
  | addi => rfl
  | andi => exact congrArg some (BitVec.and_comm ..)
  | ori => exact congrArg some (BitVec.or_comm ..)
  | xori => exact congrArg some (BitVec.xor_comm ..)
  | sltiu =>
    refine congrArg some ?_
    by_cases below : a < BitVec.ofInt 64 imm
    · rw [BitVec.ult_iff_lt.mpr below]
      exact (if_pos below).symm
    · rw [Bool.eq_false_iff.mpr fun less => below (BitVec.ult_iff_lt.mp less)]
      exact (if_neg below).symm
  | slli | srli | srai =>
    obtain ⟨n, rfl⟩ := Int.eq_ofNat_of_zero_le fits.1
    have small : n < 64 := by exact_mod_cast fits.2
    have amount := amount_toNat small
    have inside : (BitVec.ofInt 64 n &&& 63).toNat < 64 := by rwa [amount]
    simp only [ImmOp.template, ImmOp.guest, Templates.SLLI, Templates.SRLI, Templates.SRAI,
      Templates.maskedShift_eq, shl_of_lt inside, lshr_of_lt inside, ashr_of_lt inside, amount,
      Int.toNat_natCast]
  | addiw =>
    refine congrArg (fun v : BitVec 32 => some (v.signExtend 64)) ?_
    rw [BitVec.setWidth_add _ _ (by omega), add_comm]
  | slliw | srliw =>
    obtain ⟨n, rfl⟩ := Int.eq_ofNat_of_zero_le fits.1
    have small : n < 32 := by exact_mod_cast fits.2
    have amount := (word_amount_toNat small).2
    have inside : ((BitVec.ofInt 64 n).setWidth 32 &&& 63).toNat < 32 := by rwa [amount]
    simp only [ImmOp.template, ImmOp.guest, Templates.SLLIW, Templates.SRLIW,
      Templates.maskedWordShift_map, shl_of_lt inside, lshr_of_lt inside, amount, Int.toNat_natCast,
      Option.map_some]
  | sraiw =>
    obtain ⟨n, rfl⟩ := Int.eq_ofNat_of_zero_le fits.1
    have small : n < 32 := by exact_mod_cast fits.2
    have amount := (word_amount_toNat small).1
    refine (Templates.wordOperation_map ..).trans ?_
    rw [ashr_of_lt (by rwa [amount]), amount]
    rfl

/-- The immediate the function of the instruction is given. -/
def slots (imm : Int) : BitVec 64 := .ofInt 64 ((-imm).tdiv 8)

/-- An instruction takes the slot of any address to the slot of its result. -/
def Commutes (B : BitVec 64) (op : ImmOp) (imm : Int) : Prop :=
  ∀ s a, Covers B s a → ∃ t, op.template s (slots imm) = some t ∧ Covers B t (op.guest a imm)

/-- The power of two above a number below eight. -/
def blockAbove (n : Nat) : Nat := if n = 0 then 1 else if n = 1 then 2 else if n < 4 then 4 else 8

/-- Additions of whole slots, and what leaves the slot or moves to the slot of zero. -/
def KeepsSlots (B : BitVec 64) : ImmOp → Int → Prop
  | .addi, imm => 8 ∣ imm
  | .ori, imm | .xori, imm => 0 ≤ imm ∧ imm < 8 ∧ blockAbove imm.toNat ∣ B.toNat
  | .slli, imm | .srli, imm | .srai, imm => imm = 0
  | .andi, imm => 0 ≤ imm ∧ (-B).toNat + imm.toNat < 8
  | .sltiu, imm => -8 < imm ∧ imm < 8 ∧ (-B).toNat + (if imm = 0 then 0 else 1) < 8
  | _, _ => False

theorem tdiv_slots (imm : Int) : (-imm).tdiv 8 = if 0 ≤ imm then -(imm / 8) else (-imm) / 8 := by
  split_ifs with positive
  · rw [Int.neg_tdiv, Int.tdiv_eq_ediv_of_nonneg positive]
  · rw [Int.tdiv_eq_ediv_of_nonneg (by omega)]

theorem slots_small {imm : Int} (small : -8 < imm ∧ imm < 8) : slots imm = 0 := by
  rw [slots, tdiv_slots]
  split_ifs
  · rw [show imm / 8 = 0 by omega]
    rfl
  · rw [show -imm / 8 = 0 by omega]
    rfl

theorem covers_base (B s : BitVec 64) : Covers B s (B - 8#64 * s) :=
  covers_iff.mpr ⟨0, by omega, (add_zero _).symm⟩

variable {op : ImmOp} {imm : Int}

theorem Commutes.clash (commutes : Commutes B op imm) (s s' : BitVec 64) {t t' gap : BitVec 64}
    (first : op.template s (slots imm) = some t) (second : op.template s' (slots imm) = some t')
    (distance : op.guest (B - 8#64 * s') imm - op.guest (B - 8#64 * s) imm + 8#64 * (t' - t) = gap)
    (far : Far gap) : False := by
  obtain ⟨_, here, covers⟩ := commutes s _ (covers_base B s)
  obtain ⟨_, there, covers'⟩ := commutes s' _ (covers_base B s')
  obtain rfl := Option.some.inj (first.symm.trans here)
  obtain rfl := Option.some.inj (second.symm.trans there)
  exact covers.apart covers' distance far

/-- An addition moves by whole slots and what is left of the immediate. -/
theorem covers_add {e : Nat} (small : e < 8) :
    Covers B (s + slots imm) (B - 8#64 * s + BitVec.ofNat 64 e + .ofInt 64 imm) ↔
      0 ≤ e + imm.tmod 8 ∧ e + imm.tmod 8 < 8 := by
  have split : BitVec.ofInt 64 imm = BitVec.ofInt 64 (imm.tmod 8) - 8#64 * slots imm := by
    have whole : imm = imm.tmod 8 + 8 * imm.tdiv 8 := (Int.tmod_add_mul_tdiv imm 8).symm
    rw [slots, Int.neg_tdiv, BitVec.ofInt_neg]
    conv_lhs => rw [whole, BitVec.ofInt_add, BitVec.ofInt_mul]
    have eight : BitVec.ofInt 64 8 = 8#64 := rfl
    rw [eight]
    ring
  have offset : B - 8#64 * s + BitVec.ofNat 64 e + .ofInt 64 imm - (B - 8#64 * (s + slots imm)) =
      BitVec.ofInt 64 (e + imm.tmod 8) := by
    rw [split, BitVec.ofInt_add, BitVec.ofInt_natCast]
    ring
  have below := Int.tmod_lt_of_pos imm (show (0 : Int) < 8 by omega)
  have above := Int.lt_tmod_of_pos imm (show (0 : Int) < 8 by omega)
  rw [Covers, slotAddress_eq, offset, BitVec.toNat_ofInt]
  omega

theorem addi_commutes_iff : Commutes B .addi imm ↔ 8 ∣ imm := by
  constructor
  · intro commutes
    have room : ∀ e : Nat, e < 8 → 0 ≤ e + imm.tmod 8 ∧ e + imm.tmod 8 < 8 := by
      intro e small
      obtain ⟨t, done, covers⟩ := commutes 0 _ (covers_iff.mpr ⟨e, small, rfl⟩)
      obtain rfl := Option.some.inj done
      exact (covers_add small).mp covers
    have bottom := (room 0 (by omega)).1
    have top := (room 7 (by omega)).2
    exact Int.dvd_of_tmod_eq_zero (by omega)
  · intro whole s a covers
    obtain ⟨e, small, rfl⟩ := covers_iff.mp covers
    refine ⟨_, rfl, (covers_add small).mpr ?_⟩
    rw [Int.tmod_eq_zero_of_dvd whole]
    omega

theorem tdiv_signs {imm : Int} (bounds : -2048 ≤ imm ∧ imm < 2048) :
    -2 ^ 59 ≤ (-imm).tdiv 8 ∧ (-imm).tdiv 8 < 2 ^ 59 ∧ (imm < 0 → ¬(-imm).tdiv 8 < 0) ∧
      (8 ≤ imm → (-imm).tdiv 8 < 0) := by
  rw [tdiv_slots]
  split_ifs <;> omega

/-- A slot far from the first one, and how far its address is. -/
def farSlot : BitVec 64 := 0x0800000000000000#64

def farAddress : BitVec 64 := 0x4000000000000000#64

theorem eight_farSlot (c : BitVec 64) : 8#64 * (c * farSlot) = c * farAddress := by
  have scaled : 8#64 * farSlot = farAddress := by decide
  rw [← scaled]
  ring

/-- What `f` makes of a far address, and of a far slot, in terms of the sign of its second
argument. -/
def AddsUpper (f : BitVec 64 → BitVec 64 → BitVec 64) (negative positive : BitVec 64) : Prop :=
  ∀ (x : BitVec 64) (j : Int), -2 ^ 59 ≤ j ∧ j < 2 ^ 59 →
    f (x + farAddress) (.ofInt 64 j) =
        f x (.ofInt 64 j) + (if j < 0 then negative else positive) * farAddress ∧
      f (x + farSlot) (.ofInt 64 j) = f x (.ofInt 64 j) + (if j < 0 then negative else positive) * farSlot

theorem and_addsUpper : AddsUpper (· &&& ·) 1 0 := by
  intro x j small
  have address := BitBlocks.and_add_upper (q := 2) (p := 62) (j := j) 1#2 x ⟨by omega, by omega⟩
  have slot := BitBlocks.and_add_upper (q := 5) (p := 59) (j := j) 1#5 x small
  split_ifs at address slot ⊢ <;> exact ⟨address, slot⟩

theorem or_addsUpper : AddsUpper (· ||| ·) 0 1 := by
  intro x j small
  have address := BitBlocks.or_add_upper (q := 2) (p := 62) (j := j) 1#2 x ⟨by omega, by omega⟩
  have slot := BitBlocks.or_add_upper (q := 5) (p := 59) (j := j) 1#5 x small
  split_ifs at address slot ⊢ <;> exact ⟨address, slot⟩

theorem xor_addsUpper : AddsUpper (· ^^^ ·) (-1) 1 := by
  intro x j small
  have address := BitBlocks.xor_add_upper (q := 2) (p := 62) (j := j) 1#2 x ⟨by omega, by omega⟩
  have slot := BitBlocks.xor_add_upper (q := 5) (p := 59) (j := j) 1#5 x small
  split_ifs at address slot ⊢ <;> exact ⟨address, slot⟩

/-- An immediate beyond a slot changes addresses and slots in different ways: its sign is the
other one where it counts slots. -/
theorem bitwise_clash {f : BitVec 64 → BitVec 64 → BitVec 64} {negative positive : BitVec 64}
    (upper : AddsUpper f negative positive)
    (template : ∀ s k, op.template s k = some (f s k)) (guest : ∀ a, op.guest a imm = f a (.ofInt 64 imm))
    (differ : Far ((negative - positive) * farAddress) ∧ Far ((positive - negative) * farAddress))
    (bounds : -2048 ≤ imm ∧ imm < 2048) (beyond : imm < 0 ∨ 8 ≤ imm) : ¬Commutes B op imm := by
  intro commutes
  obtain ⟨above, below, less, more⟩ := tdiv_signs bounds
  have address := (upper (B - 8#64 * farSlot) imm ⟨by omega, by omega⟩).1
  have slot := (upper 0 ((-imm).tdiv 8) ⟨above, below⟩).2
  rw [zero_add] at slot
  have base : B - 8#64 * 0 = B - 8#64 * farSlot + farAddress := by
    have scaled := eight_farSlot 1
    rw [one_mul, one_mul] at scaled
    rw [scaled]
    ring
  have parts : ∀ x y c c' : BitVec 64,
      x + c * farAddress - x + 8#64 * (y - (y + c' * farSlot)) = (c - c') * farAddress := by
    intro x y c c'
    rw [sub_mul, ← eight_farSlot c']
    ring
  rcases beyond with neg | pos
  · apply commutes.clash farSlot 0 (template ..) (template ..) ?_ differ.1
    rw [base, guest, guest, address, if_pos neg, slots, slot, if_neg (less neg), parts]
  · apply commutes.clash farSlot 0 (template ..) (template ..) ?_ differ.2
    rw [base, guest, guest, address, if_neg (by omega), slots, slot, if_pos (more pos), parts]

theorem ofNat_small {n : Nat} (small : n < 8) : (BitVec.ofInt 64 n).toNat = n := by
  rw [BitVec.ofInt_natCast, BitVec.toNat_ofNat]
  omega

/-- The slot of zero, where it is the first one. -/
theorem covers_zero {n : Nat} (small : n < 8) :
    Covers B 0 0 ∧ Covers B 0 (BitVec.ofNat 64 n) ↔ (-B).toNat + n < 8 := by
  have base : ∀ v : BitVec 64, Covers B 0 v ↔ (v - B).toNat < 8 := by
    intro v
    rw [Covers, slotAddress_eq, mul_zero, sub_zero]
  rw [base, base, zero_sub, BitVec.toNat_sub, BitVec.toNat_neg, BitVec.toNat_ofNat]
  have bound := B.isLt
  omega

theorem andi_commutes_iff (bounds : -2048 ≤ imm ∧ imm < 2048) :
    Commutes B .andi imm ↔ KeepsSlots B .andi imm := by
  by_cases beyond : imm < 0 ∨ 8 ≤ imm
  · have clash : ¬Commutes B .andi imm := by
      refine bitwise_clash and_addsUpper (fun s k => ?_) (fun _ => rfl) (by decide) bounds beyond
      exact congrArg some (BitVec.and_comm k s)
    refine iff_of_false clash ?_
    rintro ⟨positive, small⟩
    omega
  · obtain ⟨n, rfl⟩ := Int.eq_ofNat_of_zero_le (show 0 ≤ imm by omega)
    have small : n < 8 := by omega
    have zero : slots n = 0 := slots_small ⟨by omega, by omega⟩
    have template : ∀ s, ImmOp.andi.template s (slots n) = some 0 := by
      intro s
      rw [zero]
      exact congrArg some (BitVec.zero_and ..)
    have corners := covers_zero (B := B) small
    constructor
    · intro commutes
      have first : ∀ a, Covers B 0 (a &&& BitVec.ofInt 64 n) := by
        intro a
        obtain ⟨s, covers⟩ := exists_covers B a
        obtain ⟨t, done, result⟩ := commutes s a covers
        obtain rfl := Option.some.inj ((template s).symm.trans done)
        exact result
      have all := first (BitVec.allOnes 64)
      rw [BitVec.allOnes_and, BitVec.ofInt_natCast] at all
      have none : Covers B 0 0 := by simpa using first 0
      exact ⟨by omega, corners.mp ⟨none, all⟩⟩
    · rintro ⟨-, inside⟩ s a -
      refine ⟨0, template s, ?_⟩
      have masked : (a &&& BitVec.ofInt 64 n).toNat ≤ n := by
        rw [BitVec.toNat_and, ofNat_small small]
        exact Nat.and_le_right
      have result := (covers_zero (B := B) (n := (a &&& BitVec.ofInt 64 n).toNat) (by omega)).mpr (by
        rw [Int.toNat_natCast] at inside
        omega)
      rw [BitVec.ofNat_toNat, BitVec.setWidth_eq] at result
      exact result.2

/-- A small number changes an address inside of its block of eight. -/
theorem or_low (x : BitVec 64) {n : Nat} (small : n < 8) :
    (x ||| BitVec.ofInt 64 n).toNat = x.toNat / 8 * 8 + (x.toNat % 8 ||| n) := by
  rw [BitVec.toNat_or, ofNat_small small]
  have upper : (x.toNat ||| n) / 8 = x.toNat / 8 := by
    refine (Nat.or_div_two_pow (n := 3)).trans ?_
    rw [Nat.div_eq_of_lt small, Nat.or_zero]
  have lower : (x.toNat ||| n) % 8 = x.toNat % 8 ||| n := by
    refine (Nat.or_mod_two_pow (n := 3)).trans ?_
    rw [Nat.mod_eq_of_lt (show n < 2 ^ 3 from small)]
  omega

theorem xor_low (x : BitVec 64) {n : Nat} (small : n < 8) :
    (x ^^^ BitVec.ofInt 64 n).toNat = x.toNat / 8 * 8 + (x.toNat % 8 ^^^ n) := by
  rw [BitVec.toNat_xor, ofNat_small small]
  have upper : (x.toNat ^^^ n) / 8 = x.toNat / 8 := by
    refine (Nat.xor_div_two_pow (n := 3)).trans ?_
    rw [Nat.div_eq_of_lt small, Nat.xor_zero]
  have lower : (x.toNat ^^^ n) % 8 = x.toNat % 8 ^^^ n := by
    refine (Nat.xor_mod_two_pow (n := 3)).trans ?_
    rw [Nat.mod_eq_of_lt (show n < 2 ^ 3 from small)]
  omega

/-- Where in its block of eight an address may be so that `f` leaves it in its slot. -/
def StaysInside (f : Nat → Nat → Nat) (b n : Nat) : Prop :=
  ∀ e < 8, (b + e) % 8 ≤ e + f ((b + e) % 8) n ∧ e + f ((b + e) % 8) n < (b + e) % 8 + 8

instance (f : Nat → Nat → Nat) (b n : Nat) : Decidable (StaysInside f b n) :=
  inferInstanceAs (Decidable (∀ e < 8, _))

theorem low_covers_iff {f : Nat → Nat → Nat} {n e : Nat} {g : BitVec 64 → BitVec 64} (small : e < 8)
    (bounded : ∀ r < 8, f r n < 8) (low : ∀ x, (g x).toNat = x.toNat / 8 * 8 + f (x.toNat % 8) n) :
    Covers B s (g (B - 8#64 * s + BitVec.ofNat 64 e)) ↔
      (B.toNat % 8 + e) % 8 ≤ e + f ((B.toNat % 8 + e) % 8) n ∧
        e + f ((B.toNat % 8 + e) % 8) n < (B.toNat % 8 + e) % 8 + 8 := by
  have scaled : (8#64 * s).toNat % 8 = 0 := by
    rw [BitVec.toNat_mul, BitVec.toNat_ofNat]
    omega
  have base : (B - 8#64 * s).toNat % 8 = B.toNat % 8 := by
    rw [BitVec.toNat_sub]
    have bound := (8#64 * s).isLt
    omega
  rw [Covers, slotAddress_eq, BitVec.toNat_sub, low]
  generalize B - 8#64 * s = A at base
  have place : (A + BitVec.ofNat 64 e).toNat % 8 = (B.toNat % 8 + e) % 8 := by
    rw [BitVec.toNat_add, BitVec.toNat_ofNat]
    omega
  have value : (A + BitVec.ofNat 64 e).toNat = (A.toNat + e) % 2 ^ 64 := by
    rw [BitVec.toNat_add, BitVec.toNat_ofNat]
    omega
  have inside := bounded _ (Nat.mod_lt ((A + BitVec.ofNat 64 e).toNat) (show 0 < 8 by omega))
  rw [place] at inside ⊢
  generalize f ((B.toNat % 8 + e) % 8) n = r at inside ⊢
  have bound := A.isLt
  omega

theorem low_commutes_iff {f : Nat → Nat → Nat} {n : Nat} (below : n < 8)
    (bounded : ∀ r < 8, f r n < 8) (template : ∀ s, op.template s 0 = some s)
    (low : ∀ x, (op.guest x n).toNat = x.toNat / 8 * 8 + f (x.toNat % 8) n)
    (blocks : ∀ b < 8, StaysInside f b n ↔ blockAbove n ∣ b) :
    Commutes B op n ↔ blockAbove n ∣ B.toNat := by
  have slot : ∀ s, op.template s (slots n) = some s := by
    intro s
    rw [slots_small ⟨by omega, by omega⟩, template]
  have block : blockAbove n ∣ B.toNat ↔ blockAbove n ∣ B.toNat % 8 := by
    have divides : blockAbove n ∣ 8 := by
      unfold blockAbove
      split_ifs <;> decide
    exact (Nat.dvd_mod_iff divides).symm
  rw [block, ← blocks _ (Nat.mod_lt _ (by omega))]
  constructor
  · intro commutes e small
    obtain ⟨t, done, result⟩ := commutes 0 _ (covers_iff.mpr ⟨e, small, rfl⟩)
    obtain rfl := Option.some.inj ((slot 0).symm.trans done)
    exact (low_covers_iff small bounded low).mp result
  · intro stays s a covers
    obtain ⟨e, small, rfl⟩ := covers_iff.mp covers
    exact ⟨s, slot s, (low_covers_iff small bounded low).mpr (stays e small)⟩

theorem or_blocks : ∀ n < 8, (∀ r < 8, r ||| n < 8) ∧
    ∀ b < 8, StaysInside (· ||| ·) b n ↔ blockAbove n ∣ b := by decide +kernel

theorem xor_blocks : ∀ n < 8, (∀ r < 8, r ^^^ n < 8) ∧
    ∀ b < 8, StaysInside (· ^^^ ·) b n ↔ blockAbove n ∣ b := by decide +kernel

/-- An operation that clashes beyond a slot and keeps to the blocks below. -/
theorem commutes_iff_blocks (clash : imm < 0 ∨ 8 ≤ imm → ¬Commutes B op imm)
    (low : ∀ n : Nat, n < 8 → (Commutes B op n ↔ blockAbove n ∣ B.toNat)) :
    Commutes B op imm ↔ 0 ≤ imm ∧ imm < 8 ∧ blockAbove imm.toNat ∣ B.toNat := by
  by_cases beyond : imm < 0 ∨ 8 ≤ imm
  · refine iff_of_false (clash beyond) ?_
    rintro ⟨positive, small, -⟩
    omega
  · obtain ⟨n, rfl⟩ := Int.eq_ofNat_of_zero_le (show 0 ≤ imm by omega)
    rw [low n (by omega)]
    exact ⟨fun divides => ⟨by omega, by omega, divides⟩, fun keeps => keeps.2.2⟩

/-- A bitwise operation clashes beyond a slot and keeps to the blocks below. -/
theorem bitwise_commutes_iff {f : BitVec 64 → BitVec 64 → BitVec 64} {negative positive : BitVec 64}
    {bits : Nat → Nat → Nat} (upper : AddsUpper f negative positive)
    (differ : Far ((negative - positive) * farAddress) ∧ Far ((positive - negative) * farAddress))
    (template : ∀ s k, op.template s k = some (f s k))
    (guest : ∀ a imm, op.guest a imm = f a (.ofInt 64 imm)) (neutral : ∀ s, f s 0 = s)
    (low : ∀ x {n : Nat}, n < 8 →
      (f x (.ofInt 64 n)).toNat = x.toNat / 8 * 8 + bits (x.toNat % 8) n)
    (blocks : ∀ n < 8, (∀ r < 8, bits r n < 8) ∧ ∀ b < 8, StaysInside bits b n ↔ blockAbove n ∣ b)
    (bounds : -2048 ≤ imm ∧ imm < 2048) :
    Commutes B op imm ↔ 0 ≤ imm ∧ imm < 8 ∧ blockAbove imm.toNat ∣ B.toNat := by
  refine commutes_iff_blocks (bitwise_clash upper template (guest · imm) differ bounds) fun n small => ?_
  obtain ⟨bounded, aligned⟩ := blocks n small
  have keeps : ∀ s, op.template s 0 = some s := fun s => by rw [template, neutral]
  have slot : ∀ x, (op.guest x n).toNat = x.toNat / 8 * 8 + bits (x.toNat % 8) n :=
    fun x => by rw [guest, low x small]
  exact low_commutes_iff small bounded keeps slot aligned

/-- A slot with the address of the first one. -/
def aliasSlot : BitVec 64 := 0x8000000000000000#64

theorem slots_natCast (n : Nat) : slots n = .ofInt 64 (-(n / 8 : Nat)) := by
  rw [slots, tdiv_slots, if_pos (Int.natCast_nonneg n)]
  rfl

/-- A short shift leaves the slot and moves the address. -/
theorem shift_commutes_iff {n : Nat} (zero : ∀ s, op.template s 0 = some s)
    (same : ∀ a, op.guest a (0 : Nat) = a) (short : 1 ≤ n → n < 8 → ∃ a, Far (op.guest a n - a))
    (long : 8 ≤ n → ¬Commutes B op n) : Commutes B op n ↔ (n : Int) = 0 := by
  constructor
  · intro commutes
    by_contra positive
    by_cases small : n < 8
    · obtain ⟨a, far⟩ := short (by omega) small
      obtain ⟨s, covers⟩ := exists_covers B a
      obtain ⟨t, done, result⟩ := commutes s a covers
      rw [slots_small ⟨by omega, by omega⟩, zero] at done
      obtain rfl := Option.some.inj done
      refine covers.apart result ?_ far
      rw [sub_self, mul_zero, add_zero]
    · exact long (by omega) commutes
  · intro none
    obtain rfl : n = 0 := by omega
    intro s a covers
    refine ⟨s, ?_, ?_⟩
    · rw [slots_small ⟨by omega, by omega⟩, zero]
    · rwa [same]

/-- A long shift to the right parts two slots of one address. -/
theorem alias_clash {n : Nat} (bounds : 8 ≤ n ∧ n < 64)
    (apart : ∀ q < 8, 1 ≤ q → op.template 0 (.ofInt 64 (-(q : Nat))) = some 0 ∧
      ∃ t, op.template aliasSlot (.ofInt 64 (-(q : Nat))) = some t ∧ Far (8#64 * t)) :
    ¬Commutes B op n := by
  intro commutes
  obtain ⟨first, t, second, far⟩ := apart (n / 8) (by omega) (by omega)
  rw [← slots_natCast] at first second
  have address : 8#64 * aliasSlot = 8#64 * 0 := by decide
  refine commutes.clash 0 aliasSlot first second ?_ far
  rw [address, sub_self, zero_add, sub_zero]

theorem masked_zero (s : BitVec 64) : Templates.maskedShift IntegerOps.shl s 0 = some s ∧
    Templates.maskedShift lshr s 0 = some s ∧ Templates.maskedShift ashr s 0 = some s := by
  refine ⟨?_, ?_, ?_⟩
  · exact (shl_of_lt (by decide)).trans (congrArg some (BitVec.shiftLeft_zero s))
  · exact (lshr_of_lt (by decide)).trans (congrArg some (BitVec.ushiftRight_zero s))
  · exact (ashr_of_lt (by decide)).trans (congrArg some BitVec.sshiftRight_zero)

theorem shl_far : ∀ n < 64, 1 ≤ n → Far (7#64 <<< n) := by decide +kernel

/-- Eight addresses of one slot are parted by a shift to the left. -/
theorem slli_clash {n : Nat} (bounds : 1 ≤ n ∧ n < 64) : ¬Commutes B .slli n := by
  intro commutes
  obtain ⟨t, done, first⟩ := commutes 0 _ (covers_iff.mpr ⟨0, by omega, rfl⟩)
  obtain ⟨t', done', last⟩ := commutes 0 _ (covers_iff.mpr ⟨7, by omega, rfl⟩)
  obtain rfl := Option.some.inj (done.symm.trans done')
  refine first.apart last ?_ (shl_far n bounds.2 bounds.1)
  simp only [ImmOp.guest, Int.toNat_natCast, BitVec.shiftLeft_add_distrib]
  have none : BitVec.ofNat 64 0 <<< n = 0 := BitVec.zero_shiftLeft n
  rw [none, sub_self, mul_zero, add_zero, add_zero, add_sub_cancel_left]

theorem slli_short : ∀ n < 8, 1 ≤ n → Far (0x2000000000000000#64 <<< n - 0x2000000000000000#64) := by
  decide +kernel

theorem srli_short : ∀ n < 8, 1 ≤ n → Far (farAddress >>> n - farAddress) := by decide +kernel

theorem srai_short : ∀ n < 8, 1 ≤ n → Far (farAddress.sshiftRight n - farAddress) := by
  decide +kernel

theorem srli_alias : ∀ q < 8, 1 ≤ q → ImmOp.srli.template 0 (.ofInt 64 (-(q : Nat))) = some 0 ∧
    ImmOp.srli.template aliasSlot (.ofInt 64 (-(q : Nat))) = some (aliasSlot >>> (64 - q)) ∧
    Far (8#64 * (aliasSlot >>> (64 - q))) := by
  decide +kernel

theorem srai_alias : ∀ q < 8, 1 ≤ q → ImmOp.srai.template 0 (.ofInt 64 (-(q : Nat))) = some 0 ∧
    ImmOp.srai.template aliasSlot (.ofInt 64 (-(q : Nat))) = some (aliasSlot.sshiftRight (64 - q)) ∧
    Far (8#64 * (aliasSlot.sshiftRight (64 - q))) := by
  decide +kernel

theorem shifts_commute_iff {n : Nat} (bound : n < 64) : (Commutes B .slli n ↔ (n : Int) = 0) ∧
    (Commutes B .srli n ↔ (n : Int) = 0) ∧ (Commutes B .srai n ↔ (n : Int) = 0) := by
  refine ⟨?_, ?_, ?_⟩
  · exact shift_commutes_iff (fun s => (masked_zero s).1) BitVec.shiftLeft_zero
      (fun positive small => ⟨_, slli_short n small positive⟩) (fun long => slli_clash ⟨by omega, bound⟩)
  · refine shift_commutes_iff (fun s => (masked_zero s).2.1) BitVec.ushiftRight_zero
      (fun positive small => ⟨_, srli_short n small positive⟩) (fun long => ?_)
    refine alias_clash ⟨long, bound⟩ fun q small positive => ?_
    obtain ⟨first, second, far⟩ := srli_alias q small positive
    exact ⟨first, _, second, far⟩
  · refine shift_commutes_iff (fun s => (masked_zero s).2.2) (fun _ => BitVec.sshiftRight_zero)
      (fun positive small => ⟨_, srai_short n small positive⟩) (fun long => ?_)
    refine alias_clash ⟨long, bound⟩ fun q small positive => ?_
    obtain ⟨first, second, far⟩ := srai_alias q small positive
    exact ⟨first, _, second, far⟩

/-- A slot whose address has the lower half of the first one's. -/
def wordSlot : BitVec 64 := 0x20000000#64

/-- The operations on words do not tell addresses apart that slots do. -/
theorem word_clash {g : BitVec 32 → BitVec 64} (word : ∀ a, op.guest a imm = g (a.setWidth 32))
    {t t' : BitVec 64} (first : op.template 0 (slots imm) = some t)
    (second : op.template wordSlot (slots imm) = some t') (moved : t' - t = wordSlot) :
    ¬Commutes B op imm := by
  intro commutes
  have low : (B - 8#64 * wordSlot).setWidth 32 = (B - 8#64 * 0).setWidth 32 := by
    apply BitVec.eq_of_toNat_eq
    have scaled : 8#64 * wordSlot = 0x100000000#64 := by decide
    rw [scaled, mul_zero, sub_zero, BitVec.toNat_setWidth, BitVec.toNat_setWidth, BitVec.toNat_sub,
      BitVec.toNat_ofNat]
    omega
  refine commutes.clash 0 wordSlot first second ?_ (show Far (8#64 * wordSlot) by decide)
  rw [word, word, low, sub_self, zero_add, moved]

theorem word_shifts_clash {n : Nat} (bound : n < 32) :
    ¬Commutes B .slliw n ∧ ¬Commutes B .srliw n ∧ ¬Commutes B .sraiw n := by
  by_cases small : n < 8
  · have zero : slots n = 0 := slots_small ⟨by omega, by omega⟩
    have unshifted : ∀ op ∈ [ImmOp.slliw, .srliw, .sraiw], op.template 0 0 = some 0 ∧
        op.template wordSlot 0 = some wordSlot := by decide
    have clash : ∀ op ∈ [ImmOp.slliw, .srliw, .sraiw], ∀ g : BitVec 32 → BitVec 64,
        (∀ a, op.guest a n = g (a.setWidth 32)) → ¬Commutes B op n := by
      intro op member g word
      obtain ⟨first, second⟩ := unshifted op member
      exact word_clash word (zero.symm ▸ first : op.template 0 (slots n) = some 0) (by rw [zero, second])
        (sub_zero _)
    exact ⟨clash .slliw (by decide) (fun v => (v <<< n).signExtend 64) fun _ => rfl,
      clash .srliw (by decide) (fun v => (v >>> n).signExtend 64) fun _ => rfl,
      clash .sraiw (by decide) (fun v => (v.sshiftRight n).signExtend 64) fun _ => rfl⟩
  · -- the masked amount is still beyond the width
    have poison : ∀ q < 4, 1 ≤ q → ImmOp.slliw.template 0 (.ofInt 64 (-(q : Nat))) = none ∧
        ImmOp.srliw.template 0 (.ofInt 64 (-(q : Nat))) = none ∧
        ImmOp.sraiw.template 0 (.ofInt 64 (-(q : Nat))) = none := by
      decide +kernel
    obtain ⟨left, right, arithmetic⟩ := poison (n / 8) (by omega) (by omega)
    rw [← slots_natCast] at left right arithmetic
    have undefined : ∀ op : ImmOp, op.template 0 (slots n) = none → ¬Commutes B op n := by
      intro op none commutes
      obtain ⟨t, done, -⟩ := commutes 0 _ (covers_base B 0)
      rw [none] at done
      cases done
    exact ⟨undefined _ left, undefined _ right, undefined _ arithmetic⟩

theorem setWidth_ofInt (z : Int) : (BitVec.ofInt 64 z).setWidth 32 = BitVec.ofInt 32 z := by
  apply BitVec.eq_of_toNat_eq
  rw [BitVec.toNat_setWidth, BitVec.toNat_ofInt, BitVec.toNat_ofInt]
  omega

theorem signExtend_ofInt {z : Int} (fits : -2 ^ 31 ≤ z ∧ z < 2 ^ 31) :
    (BitVec.ofInt 32 z).signExtend 64 = BitVec.ofInt 64 z :=
  congrArg (BitVec.ofInt 64) (BitVec.toInt_ofInt_eq_self (by omega) fits.1 fits.2)

theorem addiw_ofInt {j z : Int} (fits : -2 ^ 31 ≤ j + z ∧ j + z < 2 ^ 31) :
    ImmOp.addiw.template (.ofInt 64 z) (.ofInt 64 j) = some (.ofInt 64 (j + z)) := by
  have word : (BitVec.ofInt 64 j).setWidth 32 + (BitVec.ofInt 64 z).setWidth 32 = BitVec.ofInt 32 (j + z) := by
    rw [setWidth_ofInt, setWidth_ofInt, BitVec.ofInt_add]
  refine congrArg some ?_
  rw [word, signExtend_ofInt fits]

theorem addiw_clash (bounds : -2048 ≤ imm ∧ imm < 2048) : ¬Commutes B .addiw imm := by
  have count : -256 ≤ (-imm).tdiv 8 ∧ (-imm).tdiv 8 ≤ 256 := by
    rw [tdiv_slots]
    split_ifs <;> omega
  have word : ∀ a, ImmOp.addiw.guest a imm = (a.setWidth 32 + .ofInt 32 imm).signExtend 64 := by
    intro a
    rw [ImmOp.guest, BitVec.setWidth_add _ _ (by omega), setWidth_ofInt]
  have zero : (0 : BitVec 64) = .ofInt 64 0 := by decide
  have word' : wordSlot = .ofInt 64 0x20000000 := by decide
  have first : ImmOp.addiw.template 0 (slots imm) = some (.ofInt 64 ((-imm).tdiv 8 + 0)) := by
    rw [zero]
    exact addiw_ofInt ⟨by omega, by omega⟩
  have second : ImmOp.addiw.template wordSlot (slots imm) =
      some (.ofInt 64 ((-imm).tdiv 8 + 0x20000000)) := by
    rw [word']
    exact addiw_ofInt ⟨by omega, by omega⟩
  have moved : BitVec.ofInt 64 ((-imm).tdiv 8 + 0x20000000) - BitVec.ofInt 64 ((-imm).tdiv 8 + 0) =
      wordSlot := by
    rw [BitVec.ofInt_add, BitVec.ofInt_add, add_sub_add_left_eq_sub, ← word', ← zero, sub_zero]
  exact word_clash (g := fun v => (v + BitVec.ofInt 32 imm).signExtend 64) word first second moved

theorem sltiu_below {s t : BitVec 64} (less : s.toNat < t.toNat) : ImmOp.sltiu.template s t = some 1 := by
  have below : s.ult t = true := BitVec.ult_iff_lt.mpr (BitVec.lt_def.mpr less)
  exact congrArg (fun v => some ((BitVec.ofBool v).setWidth 64)) below

theorem sltiu_above {s t : BitVec 64} (bound : t.toNat ≤ s.toNat) : ImmOp.sltiu.template s t = some 0 := by
  have above : s.ult t = false := by
    rw [Bool.eq_false_iff, Ne, BitVec.ult_iff_lt, BitVec.lt_def, Nat.not_lt]
    exact bound
  exact congrArg (fun v => some ((BitVec.ofBool v).setWidth 64)) above

/-- Two slots of one address, on both sides of the bound. -/
theorem sltiu_clash (beyond : imm ≤ -8 ∨ 8 ≤ imm) (bounds : -2048 ≤ imm ∧ imm < 2048) :
    ¬Commutes B .sltiu imm := by
  intro commutes
  have count := tdiv_slots imm
  rcases beyond with less | more
  · have positive : 1 ≤ (slots imm).toNat ∧ (slots imm).toNat ≤ 256 := by
      rw [slots, count, if_neg (by omega), BitVec.toNat_ofInt]
      omega
    have first : ImmOp.sltiu.template 0 (slots imm) = some 1 := sltiu_below positive.1
    have second : ImmOp.sltiu.template aliasSlot (slots imm) = some 0 :=
      sltiu_above (positive.2.trans (by decide))
    have address : 8#64 * aliasSlot = 8#64 * 0 := by decide
    refine commutes.clash 0 aliasSlot first second ?_ (show Far (8#64 * (0 - 1)) by decide)
    rw [address, sub_self, zero_add]
  · have negative : 2 ^ 64 - 256 ≤ (slots imm).toNat := by
      rw [slots, count, if_pos (by omega), BitVec.toNat_ofInt]
      omega
    have first : ImmOp.sltiu.template (-1) (slots imm) = some 0 :=
      sltiu_above (Nat.le_of_lt_succ (slots imm).isLt)
    have place : (-1 + aliasSlot).toNat = 0x7fffffffffffffff := by decide
    have second : ImmOp.sltiu.template (-1 + aliasSlot) (slots imm) = some 1 := sltiu_below (by omega)
    have address : 8#64 * (-1 + aliasSlot) = 8#64 * -1 := by decide
    refine commutes.clash (-1) (-1 + aliasSlot) first second ?_ (show Far (8#64 * (1 - 0)) by decide)
    rw [address, sub_self, zero_add]

theorem sltiu_commutes_iff (bounds : -2048 ≤ imm ∧ imm < 2048) :
    Commutes B .sltiu imm ↔ KeepsSlots B .sltiu imm := by
  by_cases beyond : imm ≤ -8 ∨ 8 ≤ imm
  · refine iff_of_false (sltiu_clash beyond bounds) ?_
    rintro ⟨above, below, -⟩
    omega
  · have zero : slots imm = 0 := slots_small ⟨by omega, by omega⟩
    have template : ∀ s, ImmOp.sltiu.template s (slots imm) = some 0 := by
      intro s
      rw [zero]
      exact sltiu_above (Nat.zero_le _)
    have reached : Commutes B .sltiu imm ↔ ∀ a, Covers B 0 (ImmOp.sltiu.guest a imm) := by
      constructor
      · intro commutes a
        obtain ⟨s, covers⟩ := exists_covers B a
        obtain ⟨t, done, result⟩ := commutes s a covers
        obtain rfl := Option.some.inj ((template s).symm.trans done)
        exact result
      · intro result s a _
        exact ⟨0, template s, result a⟩
    have corners := covers_zero (B := B) (n := if imm = 0 then 0 else 1) (by split_ifs <;> decide)
    rw [reached, show KeepsSlots B .sltiu imm ↔ _ from
      ⟨fun keeps => corners.mpr keeps.2.2, fun inside => ⟨by omega, by omega, corners.mp inside⟩⟩]
    constructor
    · intro result
      have above : ¬BitVec.allOnes 64 < BitVec.ofInt 64 imm := by
        rw [BitVec.lt_def, BitVec.toNat_allOnes]
        have bound := (BitVec.ofInt 64 imm).isLt
        omega
      have top := result (BitVec.allOnes 64)
      have bottom := result 0
      rw [ImmOp.guest, if_neg above] at top
      refine ⟨top, ?_⟩
      split_ifs with none
      · exact top
      · have below : (0 : BitVec 64) < BitVec.ofInt 64 imm := by
          rw [BitVec.lt_def, BitVec.toNat_ofInt]
          change 0 < _
          omega
        rw [ImmOp.guest, if_pos below] at bottom
        exact bottom
    · rintro ⟨none, one⟩ a
      rw [ImmOp.guest]
      split_ifs with below
      · rw [if_neg] at one
        · exact one
        · rintro rfl
          exact Nat.not_lt_zero _ (BitVec.lt_def.mp below)
      · exact none

/-- An instruction keeps the map exactly where it keeps slots. -/
theorem commutes_iff (fits : op.Encodes imm) : Commutes B op imm ↔ KeepsSlots B op imm := by
  cases op with
  | addi => exact addi_commutes_iff
  | andi => exact andi_commutes_iff fits
  | ori =>
    exact bitwise_commutes_iff or_addsUpper (by decide) (fun s k => congrArg some (BitVec.or_comm k s))
      (fun _ _ => rfl) (fun _ => BitVec.or_zero) or_low or_blocks fits
  | xori =>
    exact bitwise_commutes_iff xor_addsUpper (by decide) (fun s k => congrArg some (BitVec.xor_comm k s))
      (fun _ _ => rfl) (fun _ => BitVec.xor_zero) xor_low xor_blocks fits
  | sltiu => exact sltiu_commutes_iff fits
  | addiw => exact iff_of_false (addiw_clash fits) id
  | slli | srli | srai =>
    obtain ⟨n, rfl⟩ := Int.eq_ofNat_of_zero_le fits.1
    obtain ⟨left, right, arithmetic⟩ := shifts_commute_iff (B := B) (n := n) (by exact_mod_cast fits.2)
    assumption
  | slliw | srliw | sraiw =>
    obtain ⟨n, rfl⟩ := Int.eq_ofNat_of_zero_le fits.1
    obtain ⟨left, right, arithmetic⟩ := word_shifts_clash (B := B) (n := n) (by exact_mod_cast fits.2)
    exact iff_of_false (by assumption) id

end Bleach.RiscV
