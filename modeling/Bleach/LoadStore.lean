import Bleach.MemoryTemplates

/-! Which pairs of templates see each other's accesses. Both ways to resolve an address
agree where the lookup finds one. -/
namespace Bleach.Templates
open ByteMemory
variable {table : List BleachSection} {state : HostState} {mem : Memory (BitVec 64)}

theorem spread_word (a : BitVec 64) {n : Nat} (bound : n ≤ 2 ^ 64) : Spread a n := by
  intro i hi j hj same
  have equal : ((i : BitVec 64) : BitVec 64).toNat = ((j : BitVec 64) : BitVec 64).toNat :=
    congrArg BitVec.toNat (add_left_cancel same)
  simp only [BitVec.natCast_eq_ofNat, BitVec.toNat_ofNat] at equal
  rwa [Nat.mod_eq_of_lt (by omega), Nat.mod_eq_of_lt (by omega)] at equal

/-- The loop over the table in memory is the lookup in the list of its entries. -/
theorem tryGetRealAddrFrom_eq (mem : Memory (BitVec 64)) (addr sections : BitVec 64) (n i : Nat) :
    tryGetRealAddrFrom mem addr sections n i =
      realAddr ((List.range' i n).map (bleachSection mem sections)) addr := by
  induction n generalizing i with
  | zero => rfl
  | succ n ih =>
    rw [tryGetRealAddrFrom, List.range'_succ, List.map_cons, realAddr, List.find?_cons]
    by_cases inside : (bleachSection mem sections i).start ≤ addr ∧
        addr < (bleachSection mem sections i).start + (bleachSection mem sections i).size
    · simp only [if_pos inside, decide_eq_true inside]
    · rw [if_neg inside, ih]
      simp only [decide_eq_false inside]
      rfl

/-- The function the templates call looks up the entries the table has in memory. -/
theorem bleachTryGetRealAddr_eq (addressOf : GlobalId → BitVec 64) (mem : Memory (BitVec 64))
    (sectionsArray : GlobalId) (count : Nat) (addr : BitVec 64) :
    Bleach.bleachTryGetRealAddr addressOf mem sectionsArray count addr =
      realAddr ((List.range' 0 count).map (bleachSection mem (addressOf sectionsArray))) addr :=
  tryGetRealAddrFrom_eq mem addr _ count 0

theorem bind_run {α β : Type} {x : Template α} {f : α → Template β} {v : α} {state' : HostState}
    (ran : x state = .ok (v, state')) : (x >>= f) state = f v state' := by
  simp only [bind, StateT.bind, ran, Except.bind]

theorem bind_failed {α β : Type} {x : Template α} {f : α → Template β} {e : IRError}
    (failed : x state = .error e) : (x >>= f) state = .error e := by
  simp only [bind, StateT.bind, failed, Except.bind]

section
variable {w : Nat} (a b : BitVec w) (p q : BitVec 64)

theorem asInt_run : asInt w (.int w a) state = .ok (a, state) := by
  rw [asInt, dif_pos rfl]
  rfl

theorem asInt_failed {w' : Nat} (other : w' ≠ w) : asInt w' (.int w a) state = .error .typeMismatch := by
  rw [asInt, dif_neg other.symm]
  rfl

theorem asPtr_run : asPtr (.ptr p) state = .ok (p, state) := rfl

theorem add_run : add w (.int w a) (.int w b) state = .ok (.int w (a + b), state) := by
  rw [add, bind_run (asInt_run a), bind_run (asInt_run b)]
  rfl

theorem trunc_run {dest : Nat} (narrow : dest < w) :
    trunc w (.int w a) dest state = .ok (.int dest (a.setWidth dest), state) := by
  rw [trunc, bind_run (asInt_run a), if_pos narrow]
  rfl

theorem icmpUgt_run :
    icmpUgt w (.int w a) (.int w b) state = .ok (.int 1 (BitVec.ofBool (b < a)), state) := by
  rw [icmpUgt, bind_run (asInt_run a), bind_run (asInt_run b)]
  rfl

theorem icmpNe_run : icmpNe (.ptr p) (.ptr q) state = .ok (.int 1 (BitVec.ofBool (p ≠ q)), state) := rfl

theorem ptrtoint_run {dest : Nat} :
    ptrtoint (.ptr p) dest state = .ok (.int dest (p.setWidth dest), state) := rfl

theorem inttoptr_run : inttoptr w (.int w a) state = .ok (.ptr (a.setWidth 64), state) := by
  rw [inttoptr, bind_run (asInt_run a)]
  rfl

theorem selectPtr_run (c : BitVec 1) :
    selectPtr (.int 1 c) (.ptr p) (.ptr q) state = .ok (.ptr (if c = 1 then p else q), state) := by
  rw [selectPtr, bind_run (asInt_run c), bind_run (asPtr_run p), bind_run (asPtr_run q)]
  rfl

theorem bleachTryGetRealAddr_run (addr : BitVec 64) :
    bleachTryGetRealAddr table (.int 64 addr) state = .ok (.ptr (realAddr table addr), state) := by
  rw [bleachTryGetRealAddr, bind_run (asInt_run addr)]
  rfl

end

/-- Where an access goes that falls back to the guest address. -/
def hostLocation (table : List BleachSection) (addr : BitVec 64) : BitVec 64 :=
  if realAddr table addr = 0#64 then addr else realAddr table addr

theorem actualAddr_run (base offset : BitVec 64) :
    actualAddr table (.int 64 base) (.int 64 offset) state =
      .ok (.ptr (hostLocation table (base + offset)), state) := by
  rw [actualAddr, bind_run (add_run base offset), bind_run (bleachTryGetRealAddr_run _),
    bind_run (ptrtoint_run _), bind_run (icmpUgt_run _ _), bind_run (inttoptr_run _), selectPtr_run]
  simp only [BitVec.setWidth_eq, hostLocation]
  by_cases absent : realAddr table (base + offset) = 0#64
  · simp [absent]
  · have positive : 0#64 < realAddr table (base + offset) := by
      rw [BitVec.lt_def]
      exact Nat.pos_of_ne_zero (fun zero => absent (BitVec.eq_of_toNat_eq zero))
    simp [absent, positive]

variable {val : IRValue → Template IRValue} {default : IRValue} {base offset : BitVec 64}

theorem loadIfFound_found (found : realAddr table (base + offset) ≠ 0#64) :
    loadIfFound table (.int 64 base) (.int 64 offset) val default state =
      val (.ptr (hostLocation table (base + offset))) state := by
  rw [loadIfFound, bind_run (add_run base offset), bind_run (bleachTryGetRealAddr_run _),
    bind_run (icmpNe_run _ _), bind_run (asInt_run _)]
  simp [found, hostLocation]

theorem loadIfFound_absent (absent : realAddr table (base + offset) = 0#64) :
    loadIfFound table (.int 64 base) (.int 64 offset) val default state = .ok (default, state) := by
  rw [loadIfFound, bind_run (add_run base offset), bind_run (bleachTryGetRealAddr_run _),
    bind_run (icmpNe_run _ _), bind_run (asInt_run _)]
  simp [absent]
  rfl

/-- An address of another width than the host's is rejected. -/
theorem actualAddr_rejected {w : Nat} (other : 64 ≠ w) (base offset : BitVec w) :
    actualAddr table (.int w base) (.int w offset) state = .error .typeMismatch :=
  bind_failed (bind_failed (asInt_failed base other))

theorem loadIfFound_rejected {w : Nat} (other : 64 ≠ w) (base offset : BitVec w) :
    loadIfFound table (.int w base) (.int w offset) val default state = .error .typeMismatch :=
  bind_failed (bind_failed (asInt_failed base other))

variable (value : BitVec 64)

/-- What a store does where it may run. -/
def StoreTemplate.after (s : StoreTemplate) (mem : Memory (BitVec 64)) (value p : BitVec 64) :
    Memory (BitVec 64) :=
  match s with
  | .SD | .FSD => ByteMemory.store mem p value 8
  | .SW | .FSW => ByteMemory.store mem p (value.setWidth 32) 4

theorem StoreTemplate.run_ok {arch : Arch} (s : StoreTemplate) (wide : s = .SW → arch = .rv64) :
    s.run table arch mem value base offset =
      .ok ((), ⟨s.after mem value (hostLocation table (base + offset)),
        [hostLocation table (base + offset)]⟩) := by
  cases s with
  | SD =>
    simp only [StoreTemplate.run, StoreTemplate.func, StoreTemplate.argWidth, BitVec.setWidth_eq,
      Templates.SD]
    rw [bind_run (actualAddr_run base offset)]
    rfl
  | SW =>
    cases wide rfl
    simp only [StoreTemplate.run, StoreTemplate.func, StoreTemplate.argWidth, Arch.xlen,
      BitVec.setWidth_eq, Templates.SW]
    rw [bind_run (actualAddr_run base offset), bind_run (trunc_run value (by omega))]
    rfl
  | FSD =>
    simp only [StoreTemplate.run, StoreTemplate.func, StoreTemplate.argWidth, BitVec.setWidth_eq,
      Templates.FSD]
    rw [bind_run (actualAddr_run base offset)]
    rfl
  | FSW =>
    simp only [StoreTemplate.run, StoreTemplate.func, StoreTemplate.argWidth, BitVec.setWidth_eq,
      Templates.FSW]
    rw [bind_run (trunc_run value (by omega)), bind_run (actualAddr_run base offset)]
    rfl

theorem StoreTemplate.run_rejected : StoreTemplate.SW.run table .rv32 mem value base offset =
    .error .typeMismatch :=
  bind_failed (actualAddr_rejected (by decide) _ _)

theorem LoadTemplate.run_rejected : LoadTemplate.LW.run table .rv32 mem base offset =
    .error .typeMismatch :=
  loadIfFound_rejected (by decide) _ _

/-- What a load returns where it may run. -/
def LoadTemplate.loaded (l : LoadTemplate) (mem : Memory (BitVec 64)) (p : BitVec 64) : IRValue :=
  match l with
  | .LD | .FLD => .int 64 (ByteMemory.load mem p 8)
  | .LW => .int 64 ((ByteMemory.load mem p 4).signExtend 64)
  | .FLW => .int 64 ((ByteMemory.load mem p 4).setWidth 64 ||| 4294967295#64 <<< 32#64)

theorem LoadTemplate.run_ok {arch : Arch} (l : LoadTemplate) (wide : l = .LW → arch = .rv64)
    (found : l = .LW ∨ l = .FLD → realAddr table (base + offset) ≠ 0#64) :
    l.run table arch mem base offset =
      .ok (l.loaded mem (hostLocation table (base + offset)),
        ⟨mem, [hostLocation table (base + offset)]⟩) := by
  cases l with
  | LD =>
    simp only [LoadTemplate.run, LoadTemplate.func, LoadTemplate.argWidth, BitVec.setWidth_eq,
      Templates.LD]
    rw [bind_run (actualAddr_run base offset)]
    rfl
  | LW =>
    cases wide rfl
    simp only [LoadTemplate.run, LoadTemplate.func, LoadTemplate.argWidth, Arch.xlen,
      BitVec.setWidth_eq, Templates.LW]
    rw [loadIfFound_found (found (.inl rfl))]
    rfl
  | FLD =>
    simp only [LoadTemplate.run, LoadTemplate.func, LoadTemplate.argWidth, BitVec.setWidth_eq,
      Templates.FLD]
    rw [loadIfFound_found (found (.inr rfl))]
    rfl
  | FLW =>
    simp only [LoadTemplate.run, LoadTemplate.func, LoadTemplate.argWidth, BitVec.setWidth_eq,
      Templates.FLW]
    rw [bind_run (actualAddr_run base offset)]
    rfl

/-- Without a host address the defaulting loads access nothing. -/
theorem LoadTemplate.run_absent {arch : Arch} {l : LoadTemplate} (defaults : l = .LW ∨ l = .FLD)
    (wide : l = .LW → arch = .rv64) (absent : realAddr table (base + offset) = 0#64) :
    l.run table arch mem base offset = .ok (.int 64 0, ⟨mem, []⟩) := by
  rcases defaults with rfl | rfl
  · cases wide rfl
    simp only [LoadTemplate.run, LoadTemplate.func, LoadTemplate.argWidth, Arch.xlen,
      BitVec.setWidth_eq, Templates.LW]
    exact loadIfFound_absent absent
  · simp only [LoadTemplate.run, LoadTemplate.func, LoadTemplate.argWidth, BitVec.setWidth_eq,
      Templates.FLD]
    exact loadIfFound_absent absent

/-- The upper half of ones, as `FLW` computes it. -/
theorem nan_boxed (low : BitVec 32) :
    low.setWidth 64 ||| 4294967295#64 <<< 32#64 = BitVec.allOnes 32 ++ low := by
  have ones : 4294967295#64 <<< 32#64 = BitVec.allOnes 32 ++ 0#32 := by decide
  have wide : low.setWidth 64 = 0#32 ++ low := by simp [BitVec.setWidth_eq_append]
  rw [ones, wide, BitVec.or_append, BitVec.zero_or, BitVec.or_zero]

theorem loaded_after (s : StoreTemplate) (p : BitVec 64) :
    s.load.loaded (s.after mem value p) p = s.load.result .rv64 value := by
  cases s <;> simp only [StoreTemplate.load, StoreTemplate.after, LoadTemplate.loaded, LoadTemplate.result,
    load_store_same (spread_word p (show 8 ≤ 2 ^ 64 by omega)),
    load_store_same (spread_word p (show 4 ≤ 2 ^ 64 by omega)), BitVec.setWidth_eq, nan_boxed, Arch.xlen]

/-- No `LW` or `SW` on 32 bits, and a host address for the loads that default. -/
def Resolves (table : List BleachSection) (arch : Arch) (s : StoreTemplate) (l : LoadTemplate)
    (addr : BitVec 64) : Prop :=
  (s = .SW ∨ l = .LW → arch = .rv64) ∧ (l = .LW ∨ l = .FLD → realAddr table addr ≠ 0#64)

variable {s : StoreTemplate} {l : LoadTemplate} {arch : Arch} {base' offset' : BitVec 64}

theorem loadSeesStore_of_resolves (same : base + offset = base' + offset')
    (resolves : Resolves table arch s l (base + offset)) :
    LoadSeesStore table arch s l mem value base offset base' offset' := by
  obtain ⟨wide, found⟩ := resolves
  have loads := @LoadTemplate.run_ok table
    (s.after mem value (hostLocation table (base + offset))) base' offset' arch l
    (fun here => wide (.inr here)) (by rwa [← same])
  rw [← same] at loads
  refine ⟨_, _, s.run_ok value (fun here => wide (.inl here)), _, loads, ?_⟩
  rintro rfl
  rw [loaded_after]
  cases s with
  | SW =>
    cases wide (.inl rfl)
    rfl
  | SD | FSD | FSW => rfl

theorem resolves_of_loadSeesStore (same : base + offset = base' + offset')
    (sees : LoadSeesStore table arch s l mem value base offset base' offset') :
    Resolves table arch s l (base + offset) := by
  obtain ⟨p, mem', stores, v, loads, -⟩ := sees
  have wide : s = .SW ∨ l = .LW → arch = .rv64 := by
    intro either
    by_contra narrow
    have here : arch = .rv32 := by cases arch <;> simp_all
    subst here
    rcases either with rfl | rfl
    · rw [StoreTemplate.run_rejected] at stores
      cases stores
    · rw [LoadTemplate.run_rejected] at loads
      cases loads
  refine ⟨wide, ?_⟩
  intro defaults absent
  rw [same] at absent
  rw [LoadTemplate.run_absent defaults (fun here => wide (.inr here)) absent] at loads
  cases loads

/-- The store and the load resolve one address to one host location, and the load of the same
width returns the stored value, exactly where the load does not default and neither is the
32-bit instance of `SW` or `LW`. -/
theorem load_sees_store_iff (arch : Arch) (s : StoreTemplate) (l : LoadTemplate) (table : List BleachSection)
    (mem : Memory (BitVec 64)) (value base offset base' offset' : BitVec 64)
    (same : base + offset = base' + offset') :
    LoadSeesStore table arch s l mem value base offset base' offset' ↔
      Resolves table arch s l (base + offset) :=
  ⟨resolves_of_loadSeesStore value same, loadSeesStore_of_resolves value same⟩

/-- In a section `FLD` reads what `FSD` wrote. -/
theorem section_double_kept :
    LoadSeesStore [⟨0x100, 0x2000, 8⟩] .rv64 .FSD .FLD (fun _ => 0) 42 0x1ff8 8 0x2000 0 :=
  (load_sees_store_iff .rv64 .FSD .FLD [⟨0x100, 0x2000, 8⟩] (fun _ => 0) 42 0x1ff8 8 0x2000 0 rfl).mpr
    ⟨by simp, fun _ => by decide⟩

/-- Outside of every section `SW` writes to the guest address and `LW` returns `0`. -/
theorem unmapped_word_lost :
    ∃ mem', StoreTemplate.SW.run [] .rv64 (fun _ => 0) 1 0x2000 0 = .ok ((), ⟨mem', [0x2000]⟩) ∧
      ByteMemory.load mem' 0x2000 4 = 1 ∧
      LoadTemplate.LW.run [] .rv64 mem' 0x2000 0 = .ok (.int 64 0, ⟨mem', []⟩) ∧
      ¬LoadSeesStore [] .rv64 .SW .LW (fun _ => 0) 1 0x2000 0 0x2000 0 := by
  refine ⟨_, StoreTemplate.run_ok 1 .SW (fun _ => rfl), by decide,
    LoadTemplate.run_absent (.inl rfl) (fun _ => rfl) rfl, ?_⟩
  intro sees
  exact (resolves_of_loadSeesStore 1 rfl sees).2 (.inl rfl) rfl

end Bleach.Templates
