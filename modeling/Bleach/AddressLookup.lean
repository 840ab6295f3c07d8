import Bleach.SectionTable
import Mathlib.Tactic.Abel
import Mathlib.Data.List.Find

/-! The lookup over the whole address space. The end of a section is computed modulo `2 ^ 64`,
so that a section which ends there has no address. -/
namespace Bleach
open ByteMemory (Memory)
variable {mem : Memory (BitVec 64)} {addr base : BitVec 64} {s : BleachSection}
  {sections : List BleachSection}

namespace BleachSection

/-- As integers. -/
def Contains (s : BleachSection) (addr : BitVec 64) : Prop :=
  s.start.toNat ≤ addr.toNat ∧ addr.toNat - s.start.toNat < s.size.toNat

instance (s : BleachSection) (addr : BitVec 64) : Decidable (s.Contains addr) :=
  inferInstanceAs (Decidable (_ ∧ _))

/-- The last byte has an address. -/
def InSpace (s : BleachSection) : Prop := s.start.toNat + s.size.toNat ≤ 2 ^ 64

instance (s : BleachSection) : Decidable s.InSpace := inferInstanceAs (Decidable (_ ≤ _))

def EndsAtTop (s : BleachSection) : Prop := s.start.toNat + s.size.toNat = 2 ^ 64

instance (s : BleachSection) : Decidable s.EndsAtTop := inferInstanceAs (Decidable (_ = _))

/-- Where the byte at an address is kept. -/
def translate (s : BleachSection) (addr : BitVec 64) : BitVec 64 := s.data + (addr - s.start)

/-- The test of the loop. -/
def Matches (s : BleachSection) (addr : BitVec 64) : Prop := s.start ≤ addr ∧ addr < s.start + s.size

instance (s : BleachSection) (addr : BitVec 64) : Decidable (s.Matches addr) :=
  inferInstanceAs (Decidable (_ ∧ _))

theorem InSpace.matches_iff (inSpace : s.InSpace) : s.Matches addr ↔ s.Contains addr ∧ ¬s.EndsAtTop := by
  have bound := addr.isLt
  unfold InSpace at inSpace
  rw [Matches, Contains, EndsAtTop, BitVec.le_def, BitVec.lt_def, BitVec.toNat_add]
  by_cases top : s.start.toNat + s.size.toNat = 2 ^ 64
  · rw [top, Nat.mod_self]
    omega
  · rw [Nat.mod_eq_of_lt (by omega)]
    omega

theorem translate_eq_iff (s t : BleachSection) (addr : BitVec 64) :
    t.translate addr = s.translate addr ↔ t.data - t.start = s.data - s.start := by
  have regroup : ∀ s : BleachSection, s.translate addr = addr + (s.data - s.start) := by
    intro s
    rw [translate]
    abel
  rw [regroup, regroup, add_right_inj]

end BleachSection

/-- The sections of an array. -/
def sectionsAt (mem : Memory (BitVec 64)) (base : BitVec 64) (count : Nat) : List BleachSection :=
  (List.range count).map (bleachSection mem base)

/-- The answer for the first section with a property, or null. -/
def firstTranslated (sections : List BleachSection) (addr : BitVec 64) (p : BleachSection → Bool) :
    BitVec 64 :=
  (sections.find? p).elim 0 (·.translate addr)

/-- What the lookup is to return: the place of the address in the first section that contains
it, and null exactly where none does. -/
structure LookupExact (sections : List BleachSection) (addr result : BitVec 64) : Prop where
  found : ∀ s, sections.find? (·.Contains addr) = some s → result = s.translate addr
  null : result = 0 ↔ ∀ s ∈ sections, ¬s.Contains addr

/-- The loop answers for the first section its test holds of. -/
theorem tryGetRealAddrFrom_eq_first (n i : Nat) : tryGetRealAddrFrom mem addr base n i =
    firstTranslated ((List.range' i n).map (bleachSection mem base)) addr (·.Matches addr) := by
  induction n generalizing i with
  | zero => rfl
  | succ n ih =>
    rw [tryGetRealAddrFrom, List.range'_succ, List.map_cons, firstTranslated]
    by_cases here : (bleachSection mem base i).Matches addr
    · rw [List.find?_cons_of_pos (by simpa using here)]
      exact if_pos here
    · rw [List.find?_cons_of_neg (by simpa using here)]
      exact (if_neg here).trans (ih (i + 1))

theorem sectionsAt_eq (count : Nat) :
    sectionsAt mem base count = (List.range' 0 count).map (bleachSection mem base) := by
  rw [sectionsAt, List.range_eq_range']

theorem lookup_eq_first {count : Nat} (inSpace : ∀ s ∈ sectionsAt mem base count, s.InSpace) :
    bleachTryGetRealAddrImpl mem addr base count =
      firstTranslated (sectionsAt mem base count) addr (fun s => s.Contains addr ∧ ¬s.EndsAtTop) := by
  rw [bleachTryGetRealAddrImpl, tryGetRealAddrFrom_eq_first, ← sectionsAt_eq, firstTranslated,
    firstTranslated]
  congr 1
  refine List.find?_congr fun s member => ?_
  simp only [(inSpace s member).matches_iff]

section
variable {sections : List BleachSection} {s : BleachSection} {p : BleachSection → Bool}

theorem firstTranslated_some (found : sections.find? p = some s) :
    firstTranslated sections addr p = s.translate addr := by
  rw [firstTranslated, found]
  rfl

theorem firstTranslated_none (none : sections.find? p = none) : firstTranslated sections addr p = 0 := by
  rw [firstTranslated, none]
  rfl

/-- Where some section has the address, the place in the first one is the only exact answer. -/
theorem lookupExact_iff_of_found (first : sections.find? (·.Contains addr) = some s) (result : BitVec 64) :
    LookupExact sections addr result ↔ s.translate addr ≠ 0 ∧ result = s.translate addr := by
  have somewhere : ¬∀ s ∈ sections, ¬s.Contains addr := by
    intro none
    have here : s.Contains addr := by simpa using List.find?_some first
    exact none s (List.mem_of_find?_eq_some first) here
  constructor
  · intro holds
    have answer := holds.found s first
    exact ⟨fun null => somewhere (holds.null.mp (answer.trans null)), answer⟩
  · rintro ⟨stored, rfl⟩
    refine ⟨fun s' found => ?_, iff_of_false stored somewhere⟩
    rw [Option.some.inj (first.symm.trans found)]

theorem find_below_top (first : sections.find? (·.Contains addr) = some s) (below : ¬s.EndsAtTop) :
    sections.find? (fun t => t.Contains addr ∧ ¬t.EndsAtTop) = some s := by
  obtain ⟨here, before, after, split, earlier⟩ := List.find?_eq_some_iff_append.mp first
  have contains : s.Contains addr := by simpa using here
  refine List.find?_eq_some_iff_append.mpr ⟨by simp [contains, below], before, after, split, ?_⟩
  intro t inside
  have absent : ¬t.Contains addr := by simpa using earlier t inside
  simp [absent]

end

/-- The lookup is exact exactly where the first section with the address does not end at the
top, or where the first one with it that does not end there maps it to the same place, and no
byte of storage is at null. -/
theorem lookup_exact_iff {count : Nat} (inSpace : ∀ s ∈ sectionsAt mem base count, s.InSpace) :
    LookupExact (sectionsAt mem base count) addr (bleachTryGetRealAddrImpl mem addr base count) ↔
      ∀ s, (sectionsAt mem base count).find? (·.Contains addr) = some s →
        s.translate addr ≠ 0 ∧ (s.EndsAtTop →
          ∃ t, (sectionsAt mem base count).find? (fun t => t.Contains addr ∧ ¬t.EndsAtTop) = some t ∧
            t.data - t.start = s.data - s.start) := by
  rw [lookup_eq_first inSpace]
  generalize sectionsAt mem base count = sections
  cases first : sections.find? (·.Contains addr) with
  | none =>
    have nowhere : ∀ s ∈ sections, ¬s.Contains addr := by simpa using first
    have passed : sections.find? (fun s => s.Contains addr ∧ ¬s.EndsAtTop) = none := by
      simpa using fun s member here => absurd here (nowhere s member)
    refine iff_of_true ⟨by simp [first], ?_⟩ (by simp)
    exact iff_of_true (firstTranslated_none passed) nowhere
  | some s =>
    simp only [lookupExact_iff_of_found first, Option.some.injEq, forall_eq']
    refine and_congr_right fun stored => ?_
    by_cases top : s.EndsAtTop
    · simp only [top, true_imp_iff]
      cases second : sections.find? (fun t => t.Contains addr ∧ ¬t.EndsAtTop) with
      | none =>
        rw [firstTranslated_none second]
        simpa using stored.symm
      | some t =>
        simp only [firstTranslated_some second, BleachSection.translate_eq_iff, Option.some.injEq,
          exists_eq_left']
    · exact iff_of_true (firstTranslated_some (find_below_top first top)) fun ends => absurd ends top

/-- A table of one row at address 0: a section of 16 bytes at the top, kept at `0x1000`. -/
def topImage : List (BitVec 8) :=
  [0, 0x10, 0, 0, 0, 0, 0, 0, 0xf0, 0xff, 0xff, 0xff, 0xff, 0xff, 0xff, 0xff, 0x10, 0, 0, 0, 0, 0, 0, 0]

def topMemory : Memory (BitVec 64) := fun a => (topImage[a.toNat]?).getD 0

/-- The last byte of the address space is not found. -/
theorem top_section_missed :
    (∀ s ∈ sectionsAt topMemory 0 1, s.InSpace ∧ s.Contains 0xffffffffffffffff ∧
      s.translate 0xffffffffffffffff = 0x100f) ∧
    bleachTryGetRealAddrImpl topMemory 0xffffffffffffffff 0 1 = 0 ∧
    ¬LookupExact (sectionsAt topMemory 0 1) 0xffffffffffffffff
      (bleachTryGetRealAddrImpl topMemory 0xffffffffffffffff 0 1) := by
  have missed : bleachTryGetRealAddrImpl topMemory 0xffffffffffffffff 0 1 = 0 := by decide +kernel
  refine ⟨by decide +kernel, missed, fun holds => ?_⟩
  exact holds.null.mp missed _ List.mem_cons_self (by decide +kernel)

theorem small_section_found :
    LookupExact (sectionsAt smallMemory 8 2) 0x11 (bleachTryGetRealAddrImpl smallMemory 0x11 8 2) := by
  have below : ∀ s ∈ sectionsAt smallMemory 8 2, ¬s.EndsAtTop := by decide +kernel
  have stored : ∀ s ∈ sectionsAt smallMemory 8 2, s.translate 0x11 ≠ 0 := by decide +kernel
  apply (lookup_exact_iff (by decide +kernel)).mpr
  intro s found
  have member := List.mem_of_find?_eq_some found
  exact ⟨stored s member, fun top => absurd top (below s member)⟩

end Bleach
