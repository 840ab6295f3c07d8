import Bleach.AddressLookup
import Bleach.Base.KeptMemory
import Bleach.LoadStore

/-! Guest memory kept in the data of the sections: inside a section the loads and stores of the
templates are those of the guest. -/
namespace Bleach.Templates
open ByteMemory
variable {table : List BleachSection} {s : BleachSection} {a base offset value : BitVec 64}
  {outside inner : Memory (BitVec 64)} {n : Nat}

/-- The guest bytes of a section, kept in its data. -/
def piece (s : BleachSection) : Piece 64 := ⟨s.data, s.start, s.size.toNat⟩

/-- Sections with addresses and data of their own, none at the top of the address space. -/
structure Mapped (table : List BleachSection) : Prop where
  layout : Layout (table.map piece)
  below : ∀ s ∈ table, s.start.toNat + s.size.toNat < 2 ^ 64
  nonnull : ∀ s ∈ table, s.data ≠ 0

/-- Some section has the bytes. -/
def inSection (table : List BleachSection) (a : BitVec 64) (n : Nat) : Bool :=
  table.any fun s => (piece s).Covers a n

/-- Host memory with the guest memory in its sections. -/
def hostMemory (table : List BleachSection) (outside inner : Memory (BitVec 64)) : Memory (BitVec 64) :=
  kept (table.map piece) outside inner

theorem inSection_iff : inSection table a n = true ↔ ∃ s ∈ table, (piece s).Covers a n := by
  simp [inSection]

namespace Mapped

theorem single (below : s.start.toNat + s.size.toNat < 2 ^ 64) (image : s.data.toNat + s.size.toNat ≤ 2 ^ 64)
    (nonnull : s.data ≠ 0) : Mapped [s] where
  layout := .single (Nat.le_of_lt below) image
  below := by simpa using below
  nonnull := by simpa using nonnull

theorem covers_of_matches (mapped : Mapped table) (member : s ∈ table)
    (found : s.start ≤ a ∧ a < s.start + s.size) : (piece s).Covers a 1 := by
  have inSpace : s.InSpace := Nat.le_of_lt (mapped.below s member)
  obtain ⟨⟨low, high⟩, -⟩ := inSpace.matches_iff.mp found
  constructor <;> simp only [piece] <;> omega

theorem matches_of_covers (mapped : Mapped table) (member : s ∈ table) (covers : (piece s).Covers a 1) :
    s.start ≤ a ∧ a < s.start + s.size := by
  have inSpace : s.InSpace := Nat.le_of_lt (mapped.below s member)
  have below := mapped.below s member
  obtain ⟨low, high⟩ := covers
  simp only [piece] at low high
  refine inSpace.matches_iff.mpr ⟨⟨low, by omega⟩, ?_⟩
  unfold BleachSection.EndsAtTop
  omega

/-- The lookup answers with the place in the section. -/
theorem realAddr_eq (mapped : Mapped table) (member : s ∈ table) (covers : (piece s).Covers a 1) :
    realAddr table a = (piece s).place a ∧ realAddr table a ≠ 0 := by
  have found := mapped.matches_of_covers member covers
  have same : realAddr table a = (piece s).place a := by
    unfold realAddr
    split
    · next t first =>
      have member' := List.mem_of_find?_eq_some first
      have here := mapped.covers_of_matches member' (by simpa using List.find?_some first)
      have equal := mapped.layout.covers (piece s) (List.mem_map_of_mem member) (piece t)
        (List.mem_map_of_mem member') a covers here
      exact congrArg (Piece.place · a) equal.symm
    · next none => exact absurd found (by simpa using List.find?_eq_none.mp none s member)
  refine ⟨same, fun null => ?_⟩
  have keeps := Piece.keeps_place (mapped.layout.image (piece s) (List.mem_map_of_mem member)) covers
  rw [← same, null] at keeps
  have zero : s.data.toNat = 0 := Nat.le_zero.mp keeps.1
  exact mapped.nonnull s member (BitVec.eq_of_toNat_eq zero)

theorem hostLocation_eq (mapped : Mapped table) (member : s ∈ table) (covers : (piece s).Covers a 1) :
    hostLocation table a = (piece s).place a := by
  obtain ⟨same, found⟩ := mapped.realAddr_eq member covers
  exact (if_neg found).trans same

end Mapped

theorem covers_first {s : Piece 64} (covers : s.Covers a (n + 1)) : s.Covers a 1 := by
  obtain ⟨low, high⟩ := covers
  exact ⟨low, by omega⟩

/-- The bytes a template accesses. -/
def StoreTemplate.size : StoreTemplate → Nat
  | .SD | .FSD => 8
  | .SW | .FSW => 4

def LoadTemplate.size : LoadTemplate → Nat
  | .LD | .FLD => 8
  | .LW | .FLW => 4

theorem store_hosted (mapped : Mapped table) (t : StoreTemplate)
    (inside : inSection table (base + offset) t.size = true) :
    t.run table .rv64 (hostMemory table outside inner) value base offset =
      .ok ((), ⟨hostMemory table outside (t.after inner value (base + offset)),
        [hostLocation table (base + offset)]⟩) := by
  obtain ⟨s, member, covers⟩ := inSection_iff.mp inside
  have place : hostLocation table (base + offset) = (piece s).place (base + offset) :=
    mapped.hostLocation_eq member (covers_first (n := t.size - 1) (by cases t <;> exact covers))
  have listed := List.mem_map_of_mem (f := piece) member
  have spread : ∀ a : BitVec 64, Spread a t.size := fun a => spread_word a (by cases t <;> decide)
  have stored : ∀ {k : Nat} (v : BitVec k), ByteMemory.store (hostMemory table outside inner)
      ((piece s).place (base + offset)) v t.size = hostMemory table outside
        (ByteMemory.store inner (base + offset) v t.size) :=
    fun v => mapped.layout.store_kept listed covers (spread _) (spread _) v
  have after : t.after (hostMemory table outside inner) value ((piece s).place (base + offset)) =
      hostMemory table outside (t.after inner value (base + offset)) := by cases t <;> exact stored _
  rw [t.run_ok value (fun _ => rfl), place, after]

theorem load_hosted (mapped : Mapped table) (t : LoadTemplate)
    (inside : inSection table (base + offset) t.size = true) :
    t.run table .rv64 (hostMemory table outside inner) base offset =
      .ok (t.loaded inner (base + offset), ⟨hostMemory table outside inner,
        [hostLocation table (base + offset)]⟩) := by
  obtain ⟨s, member, covers⟩ := inSection_iff.mp inside
  have first : (piece s).Covers (base + offset) 1 :=
    covers_first (n := t.size - 1) (by cases t <;> exact covers)
  have place := mapped.hostLocation_eq member first
  have loaded : ByteMemory.load (hostMemory table outside inner) ((piece s).place (base + offset)) t.size =
      ByteMemory.load inner (base + offset) t.size :=
    mapped.layout.load_kept (List.mem_map_of_mem member) covers
  have same : t.loaded (hostMemory table outside inner) ((piece s).place (base + offset)) =
      t.loaded inner (base + offset) := by
    cases t with
    | LD | FLD => exact congrArg (IRValue.int 64) loaded
    | LW => exact congrArg (fun v : BitVec 32 => IRValue.int 64 (v.signExtend 64)) loaded
    | FLW =>
      exact congrArg (fun v : BitVec 32 => IRValue.int 64 (v.setWidth 64 ||| 4294967295#64 <<< 32#64)) loaded
  rw [t.run_ok (fun _ => rfl) (fun _ => (mapped.realAddr_eq member first).2), place, same]

inductive Access where
  | store (t : StoreTemplate) (value base offset : BitVec 64)
  | load (t : LoadTemplate) (base offset : BitVec 64)

def Access.addr : Access → BitVec 64
  | store _ _ base offset | load _ base offset => base + offset

def Access.size : Access → Nat
  | store t .. => t.size
  | load t .. => t.size

/-- The values loaded, and host memory behind the last access. -/
def runAccesses (table : List BleachSection) :
    Memory (BitVec 64) → List Access → Except IRError (List IRValue × Memory (BitVec 64))
  | mem, [] => .ok ([], mem)
  | mem, .store t value base offset :: rest => do
    let ((), state) ← t.run table .rv64 mem value base offset
    runAccesses table state.mem rest
  | mem, .load t base offset :: rest => do
    let (val, state) ← t.run table .rv64 mem base offset
    let (vals, mem) ← runAccesses table state.mem rest
    return (val :: vals, mem)

/-- The accesses on guest memory. -/
def guestAccesses : Memory (BitVec 64) → List Access → List IRValue × Memory (BitVec 64)
  | mem, [] => ([], mem)
  | mem, .store t value base offset :: rest => guestAccesses (t.after mem value (base + offset)) rest
  | mem, .load t base offset :: rest =>
    (t.loaded mem (base + offset) :: (guestAccesses mem rest).1, (guestAccesses mem rest).2)

/-- As long as they stay inside sections, accesses of any templates load what they load from guest
memory, leave it in the sections as it is there, and change nothing beside it. -/
theorem accesses_hosted (mapped : Mapped table) (outside inner : Memory (BitVec 64)) {accesses : List Access}
    (inside : ∀ a ∈ accesses, inSection table a.addr a.size = true) :
    runAccesses table (hostMemory table outside inner) accesses =
      .ok ((guestAccesses inner accesses).1, hostMemory table outside (guestAccesses inner accesses).2) := by
  induction accesses generalizing inner with
  | nil => rfl
  | cons a rest ih =>
    obtain ⟨here, later⟩ := List.forall_mem_cons.mp inside
    cases a with
    | store t value base offset =>
      have stored := @store_hosted table base offset value outside inner mapped t here
      calc runAccesses table (hostMemory table outside inner) (.store t value base offset :: rest)
          = runAccesses table (hostMemory table outside (t.after inner value (base + offset))) rest := by
            rw [runAccesses, stored]
            rfl
        _ = _ := ih (t.after inner value (base + offset)) later
    | load t base offset =>
      have loaded := @load_hosted table base offset outside inner mapped t here
      rw [runAccesses, loaded]
      simp only [bind, Except.bind, ih inner later]
      rfl

/-- A doubleword is stored and its upper word is changed and loaded. -/
theorem accesses_hosted_here : (runAccesses [⟨0x500000, 0x2000, 32⟩]
      (hostMemory [⟨0x500000, 0x2000, 32⟩] (fun _ => 0) (fun _ => 0))
      [.store .SD 0x100000002 0x2008 0, .store .SW (-1) 0x2000 12, .load .LW 0x200c 0,
        .load .LD 0x2010 (-8)]).map Prod.fst = .ok [.int 64 (-1), .int 64 0xffffffff00000002] := by
  have mapped : Mapped [⟨0x500000, 0x2000, 32⟩] := .single (by decide) (by decide) (by decide)
  rw [accesses_hosted mapped _ _ (by decide)]
  exact congrArg Except.ok (by decide)

end Bleach.Templates
