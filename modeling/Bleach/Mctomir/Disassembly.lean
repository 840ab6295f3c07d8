import Bleach.Mctomir.Transfers

/-! `process_disassembly`: every function symbol of the object is decoded from the
bytes of one section. The record of the decoding keeps the section each slice was
taken of, so that it can be compared with the symbol's. -/
namespace Bleach.Mctomir

/-- A section with its contents; its end is an address. -/
structure Section where
  address : Address
  contents : List (BitVec 8)
  fits : address.toNat + contents.length < 2 ^ 64

inductive SymbolType where
  | function
  | unknown
  | other
  deriving DecidableEq

structure Symbol where
  name : Option String
  type : Option SymbolType
  value : Option Address
  size : Address
  /-- The section that defines the symbol. -/
  definedIn : Option Nat
  deriving DecidableEq

structure Object where
  sections : List Section
  symbols : List Symbol

/-- `MCDisassembler::getInstruction` takes at least one and at most all of the bytes. -/
structure MCDisassembler where
  getInstruction : List (BitVec 8) → Address → Option (MCInst × Nat)
  takes : ∀ {bytes addr inst size}, getInstruction bytes addr = some (inst, size) →
    0 < size ∧ size ≤ bytes.length

/-- One round of the decode loop: what the slice of a section gave at an address. -/
structure Visit where
  readFrom : Nat
  address : Address
  inst : Option MCInst
  deriving DecidableEq

def Visit.translated (v : Visit) : Option TranslatedInst := v.inst.map fun inst => ⟨v.address, inst⟩

/-- The functions the symbols of the object stand for. -/
def Symbol.function? (s : Symbol) : Option DecodedFunction :=
  match s.name, s.type, s.value with
  | some name, some type, some addr =>
    if name ≠ "" ∧ (type = .function ∨ type = .unknown) then some ⟨name, addr, addr + s.size, []⟩
    else none
  | _, _, _ => none

variable (dis : MCDisassembler)

/-- The loop over the addresses of a function; an illegal instruction is one byte long. -/
def decodeLoop (n : Nat) (sec : Section) (last : Address) : Nat → Address → Translate (List Visit)
  | 0, addr => if addr < last then .error .diverges else .ok []
  | fuel + 1, addr =>
    if addr < last then
      let diff := (addr - sec.address).toNat
      if diff ≤ sec.contents.length then
        match dis.getInstruction (sec.contents.drop diff) addr with
        | some (inst, size) => do
          let visits ← decodeLoop n sec last fuel (addr + BitVec.ofNat 64 size)
          .ok (⟨n, addr, some inst⟩ :: visits)
        | none => do
          let visits ← decodeLoop n sec last fuel (addr + 1)
          .ok (⟨n, addr, none⟩ :: visits)
      else .error .assertion
    else .ok []

def decodeFunction (n : Nat) (sec : Section) (func : DecodedFunction) : Translate (List Visit) :=
  decodeLoop dis n sec func.end (func.end.toNat - func.start.toNat) func.start

/-- `ranges::sort` by start address: any order of equal starts. -/
structure StartSort where
  sort : List DecodedFunction → List DecodedFunction
  perm : ∀ funcs, (sort funcs).Perm funcs
  sorted : ∀ funcs, (sort funcs).Pairwise fun d e => d.start ≤ e.start

/-- Decode the function symbols of the object from section `n`. -/
def processDisassembly (order : StartSort) (n : Nat) (sec : Section) (symbols : List Symbol) :
    Translate (List DecodedFunction) :=
  (order.sort (symbols.filterMap Symbol.function?)).mapM fun func => do
    let visits ← decodeFunction dis n sec func
    .ok { func with insts := visits.filterMap Visit.translated }

variable {dis} {n : Nat} {sec : Section} {last addr : Address} {fuel : Nat} {visits : List Visit}

def Section.Holds (sec : Section) (addr : Address) : Prop :=
  sec.address ≤ addr ∧ (addr - sec.address).toNat < sec.contents.length

/-- The visit is of a byte of the section and shows what its bytes from there on decode to. -/
structure Visit.ReadsFrom (dis : MCDisassembler) (sec : Section) (v : Visit) : Prop where
  holds : sec.Holds v.address
  decoded : v.inst =
    (dis.getInstruction (sec.contents.drop (v.address - sec.address).toNat) v.address).map Prod.fst

/-- The loop reaches `next` behind `addr` after reading `inst`. -/
def Steps (dis : MCDisassembler) (sec : Section) (addr : Address) (inst : Option MCInst) (next : Address) :
    Prop :=
  match dis.getInstruction (sec.contents.drop (addr - sec.address).toNat) addr with
  | some (inst', size) => inst = some inst' ∧ next = addr + BitVec.ofNat 64 size
  | none => inst = none ∧ next = addr + 1

theorem decodeLoop_succ :
    decodeLoop dis n sec last (fuel + 1) addr = .ok visits ↔
      (¬addr < last ∧ visits = []) ∨
        (addr < last ∧ (addr - sec.address).toNat ≤ sec.contents.length ∧ ∃ inst next rest,
          Steps dis sec addr inst next ∧ decodeLoop dis n sec last fuel next = .ok rest ∧
            visits = ⟨n, addr, inst⟩ :: rest) := by
  rw [decodeLoop]
  by_cases before : addr < last
  · by_cases inside : (addr - sec.address).toNat ≤ sec.contents.length
    · simp only [before, inside, if_true, not_true_eq_false, false_and, true_and, false_or, Steps]
      cases dis.getInstruction (sec.contents.drop (addr - sec.address).toNat) addr with
      | none =>
        simp only [bind_ok, Except.ok.injEq]
        constructor
        · rintro ⟨rest, run, rfl⟩
          exact ⟨none, _, rest, ⟨rfl, rfl⟩, run, rfl⟩
        · rintro ⟨_, _, rest, ⟨rfl, rfl⟩, run, rfl⟩
          exact ⟨rest, run, rfl⟩
      | some found =>
        simp only [bind_ok, Except.ok.injEq]
        constructor
        · rintro ⟨rest, run, rfl⟩
          exact ⟨_, _, rest, ⟨rfl, rfl⟩, run, rfl⟩
        · rintro ⟨_, _, rest, ⟨rfl, rfl⟩, run, rfl⟩
          exact ⟨rest, run, rfl⟩
    · simp only [before, inside, if_true, if_false, not_true_eq_false, false_and, and_false,
        or_false, reduceCtorEq]
  · simp [before, eq_comm]

/-- A slice that may be taken starts in the section or right behind it. -/
theorem Section.address_le (sec : Section) (inside : (addr - sec.address).toNat ≤ sec.contents.length) :
    sec.address ≤ addr ∧ (addr - sec.address).toNat = addr.toNat - sec.address.toNat := by
  have fits := sec.fits
  have bound := addr.isLt
  have bound' := sec.address.isLt
  rw [BitVec.toNat_sub] at inside ⊢
  rw [BitVec.le_def]
  omega

theorem Steps.advances {inst : Option MCInst} {next : Address} (step : Steps dis sec addr inst next)
    (before : addr < last) (inside : (addr - sec.address).toNat ≤ sec.contents.length) :
    addr.toNat < next.toNat ∧ (next.toNat = addr.toNat + 1 ∨
      next.toNat ≤ sec.address.toNat + sec.contents.length) := by
  have fits := sec.fits
  obtain ⟨above, offset⟩ := sec.address_le inside
  rw [BitVec.le_def] at above
  rw [BitVec.lt_def] at before
  have bound := last.isLt
  unfold Steps at step
  split at step
  · next inst' size found =>
    obtain ⟨-, rfl⟩ := step
    obtain ⟨positive, limit⟩ := dis.takes found
    rw [List.length_drop, offset] at limit
    rw [BitVec.toNat_add, BitVec.toNat_ofNat]
    have small : size % 2 ^ 64 = size := Nat.mod_eq_of_lt (by omega)
    rw [small, Nat.mod_eq_of_lt (by omega)]
    omega
  · obtain ⟨-, rfl⟩ := step
    rw [BitVec.toNat_add, Nat.mod_eq_of_lt (by simp; omega)]
    simp

theorem Steps.reads {inst : Option MCInst} {next : Address} (step : Steps dis sec addr inst next)
    (holds : sec.Holds addr) : Visit.ReadsFrom dis sec ⟨n, addr, inst⟩ := by
  refine ⟨holds, ?_⟩
  unfold Steps at step
  split at step
  · next inst' size found => rw [found, Option.map_some, step.1]
  · next missing => rw [missing, Option.map_none, step.1]

theorem decodeLoop_ordered (run : decodeLoop dis n sec last fuel addr = .ok visits) :
    (∀ v ∈ visits, addr ≤ v.address ∧ v.address < last ∧ v.readFrom = n) ∧
      visits.Pairwise fun v w => v.address < w.address := by
  induction fuel generalizing addr visits with
  | zero =>
    rw [decodeLoop] at run
    split at run
    · cases run
    · cases run
      exact ⟨by simp, .nil⟩
  | succ fuel ih =>
    rcases decodeLoop_succ.mp run with ⟨-, rfl⟩ | ⟨before, inside, inst, next, rest, step, onward, rfl⟩
    · exact ⟨by simp, .nil⟩
    · obtain ⟨later, ordered⟩ := ih onward
      have advances := (step.advances before inside).1
      have behind : ∀ v ∈ rest, addr < v.address := by
        intro v member
        have above := (later v member).1
        rw [BitVec.le_def] at above
        rw [BitVec.lt_def]
        omega
      constructor
      · intro v member
        rcases List.mem_cons.mp member with rfl | member
        · exact ⟨BitVec.le_refl _, before, rfl⟩
        · exact ⟨BitVec.le_of_lt (behind v member), (later v member).2⟩
      · exact List.pairwise_cons.mpr ⟨behind, ordered⟩

/-- A range inside the section is decoded from its own bytes, to the end. -/
theorem decodeLoop_inside (above : sec.address ≤ addr)
    (below : last.toNat ≤ sec.address.toNat + sec.contents.length)
    (enough : last.toNat - addr.toNat ≤ fuel) :
    ∃ visits, decodeLoop dis n sec last fuel addr = .ok visits ∧
      ∀ v ∈ visits, v.readFrom = n ∧ v.ReadsFrom dis sec := by
  induction fuel generalizing addr with
  | zero =>
    have past : ¬addr < last := by
      rw [BitVec.lt_def]
      omega
    exact ⟨[], by rw [decodeLoop, if_neg past], by simp⟩
  | succ fuel ih =>
    by_cases before : addr < last
    · have start := above
      rw [BitVec.le_def] at start
      have here := before
      rw [BitVec.lt_def] at here
      have offset : (addr - sec.address).toNat = addr.toNat - sec.address.toNat := by
        rw [BitVec.toNat_sub]
        have bound := addr.isLt
        omega
      have holds : sec.Holds addr := ⟨above, by omega⟩
      obtain ⟨inst, next, step⟩ : ∃ inst next, Steps dis sec addr inst next := by
        unfold Steps
        cases dis.getInstruction (sec.contents.drop (addr - sec.address).toNat) addr with
        | none => exact ⟨_, _, rfl, rfl⟩
        | some found => exact ⟨_, _, rfl, rfl⟩
      have advances := (step.advances before (Nat.le_of_lt holds.2)).1
      obtain ⟨rest, run, all⟩ := @ih next (by rw [BitVec.le_def]; omega) (by omega)
      refine ⟨⟨n, addr, inst⟩ :: rest, ?_, ?_⟩
      · exact decodeLoop_succ.mpr (.inr ⟨before, Nat.le_of_lt holds.2, inst, next, rest, step, run, rfl⟩)
      · intro v member
        rcases List.mem_cons.mp member with rfl | member
        · exact ⟨rfl, step.reads holds⟩
        · exact all v member
    · exact ⟨[], decodeLoop_succ.mpr (.inl ⟨before, rfl⟩), by simp⟩

/-- A run that only reads bytes of the section reads the whole range there. -/
theorem decodeLoop_within (run : decodeLoop dis n sec last fuel addr = .ok visits) (before : addr < last)
    (holds : ∀ v ∈ visits, sec.Holds v.address) :
    sec.address ≤ addr ∧ last.toNat ≤ sec.address.toNat + sec.contents.length := by
  induction fuel generalizing addr visits with
  | zero =>
    rw [decodeLoop, if_pos before] at run
    cases run
  | succ fuel ih =>
    rcases decodeLoop_succ.mp run with ⟨past, -⟩ | ⟨-, inside, inst, next, rest, step, onward, rfl⟩
    · exact absurd before past
    · have here := holds _ List.mem_cons_self
      refine ⟨here.1, ?_⟩
      by_cases again : next < last
      · exact (ih onward again fun v member => holds v (List.mem_cons_of_mem _ member)).2
      · rw [BitVec.lt_def] at again
        have advances := step.advances before inside
        have offset := (sec.address_le inside).2
        have start := here.1
        have room := here.2
        rw [BitVec.le_def] at start
        simp only at start room
        omega

/-- Every byte read for the symbol is a byte of the section that defines it. -/
def OwnBytes (dis : MCDisassembler) (sections : List Section) (n : Nat) (sec : Section) (s : Symbol)
    (func : DecodedFunction) : Prop :=
  ∃ visits, decodeFunction dis n sec func = .ok visits ∧ ∀ v ∈ visits,
    s.definedIn = some v.readFrom ∧ ∃ home, sections[v.readFrom]? = some home ∧ v.ReadsFrom dis home

/-- The range of the symbol lies in section `n`, which defines it; a range that wraps
around is not decoded at all. -/
def LiesIn (n : Nat) (sec : Section) (s : Symbol) (func : DecodedFunction) : Prop :=
  2 ^ 64 ≤ func.start.toNat + s.size.toNat ∨ (s.definedIn = some n ∧ sec.address ≤ func.start ∧
    func.start.toNat + s.size.toNat ≤ sec.address.toNat + sec.contents.length)

theorem Symbol.function?_eq {s : Symbol} {func : DecodedFunction} (found : s.function? = some func) :
    func.end = func.start + s.size ∧ func.insts = [] := by
  unfold Symbol.function? at found
  split at found
  · split at found
    · cases found
      exact ⟨rfl, rfl⟩
    · cases found
  · cases found

theorem own_bytes_iff {sections : List Section} {s : Symbol} {func : DecodedFunction}
    (at_n : sections[n]? = some sec) (found : s.function? = some func) (sized : s.size ≠ 0) :
    OwnBytes dis sections n sec s func ↔ LiesIn n sec s func := by
  have range := (Symbol.function?_eq found).1
  have positive : 0 < s.size.toNat := by
    rw [Nat.pos_iff_ne_zero]
    intro zero
    exact sized (BitVec.eq_of_toNat_eq zero)
  have limit := func.start.isLt
  have limit' := s.size.isLt
  by_cases wraps : 2 ^ 64 ≤ func.start.toNat + s.size.toNat
  · have past : func.end.toNat ≤ func.start.toNat := by
      rw [range, BitVec.toNat_add]
      omega
    have idle : decodeFunction dis n sec func = .ok [] := by
      rw [decodeFunction, Nat.sub_eq_zero_of_le past, decodeLoop, if_neg]
      rw [BitVec.lt_def]
      omega
    constructor
    · intro _
      exact .inl wraps
    · intro _
      exact ⟨[], idle, by simp⟩
  · have plain : func.end.toNat = func.start.toNat + s.size.toNat := by
      rw [range, BitVec.toNat_add, Nat.mod_eq_of_lt (Nat.lt_of_not_le wraps)]
    have before : func.start < func.end := by
      rw [BitVec.lt_def]
      omega
    constructor
    · rintro ⟨visits, run, own⟩
      right
      have readFrom := (decodeLoop_ordered run).1
      have holds : ∀ v ∈ visits, sec.Holds v.address := by
        intro v member
        obtain ⟨-, home, at_home, reads⟩ := own v member
        rw [(readFrom v member).2.2, at_n] at at_home
        cases at_home
        exact reads.holds
      obtain ⟨above, below⟩ := decodeLoop_within run before holds
      refine ⟨?_, above, by omega⟩
      cases visits with
      | nil =>
        rw [decodeFunction] at run
        have steps : func.end.toNat - func.start.toNat =
            (func.end.toNat - func.start.toNat - 1) + 1 := by omega
        rw [steps] at run
        rcases decodeLoop_succ.mp run with ⟨past, -⟩ | ⟨-, -, _, _, _, _, _, empty⟩
        · exact absurd before past
        · cases empty
      | cons v rest =>
        rw [(own v List.mem_cons_self).1, (readFrom v List.mem_cons_self).2.2]
    · rintro (past | ⟨home, above, below⟩)
      · exact absurd past wraps
      · obtain ⟨visits, run, all⟩ := @decodeLoop_inside dis n sec func.end func.start _ above
          (by omega) (Nat.le_refl _)
        refine ⟨visits, run, fun v member => ?_⟩
        obtain ⟨from_n, reads⟩ := all v member
        rw [from_n]
        exact ⟨home, sec, at_n, reads⟩

/-- Functions are decoded from their own bytes exactly when all of them lie in the
section that is decoded. -/
theorem functions_own_bytes_iff (dis : MCDisassembler) (obj : Object) {n : Nat} {sec : Section}
    (at_n : obj.sections[n]? = some sec) :
    (∀ s ∈ obj.symbols, ∀ func, s.function? = some func → s.size ≠ 0 →
        OwnBytes dis obj.sections n sec s func) ↔
      ∀ s ∈ obj.symbols, ∀ func, s.function? = some func → s.size ≠ 0 → LiesIn n sec s func := by
  constructor
  · intro own s member func found sized
    exact (own_bytes_iff at_n found sized).mp (own s member func found sized)
  · intro lies s member func found sized
    exact (own_bytes_iff at_n found sized).mpr (lies s member func found sized)

/-- Four byte instructions: opcode, register, displacement and an unused byte. -/
def smallDecode : List (BitVec 8) → Address → Option (MCInst × Nat)
  | op :: reg :: imm :: _ :: _, _ =>
    if op.toNat ≤ 4 then some (⟨op.toNat, [.reg reg.toNat, .imm imm.toInt]⟩, 4) else none
  | _, _ => none

def smallDisassembler : MCDisassembler where
  getInstruction := smallDecode
  takes := by
    intro bytes addr inst size found
    unfold smallDecode at found
    split at found
    · split at found
      · cases found
        simp
      · cases found
    · cases found

/-- Two functions of a relocatable object, each the start of a section of its own. -/
def splitSections : Object where
  sections := [⟨0, [0, 10, 1, 0, 4, 0, 0, 0], by decide⟩, ⟨0, [4, 0, 0, 0], by decide⟩]
  symbols := [⟨some "helper", some .function, some 0, 8, some 0⟩,
    ⟨some "main", some .function, some 0, 4, some 1⟩]

/-- `main` is decoded from the code of `helper`. -/
theorem split_sections_mixed :
    decodeFunction smallDisassembler 0 ⟨0, [0, 10, 1, 0, 4, 0, 0, 0], by decide⟩ ⟨"main", 0, 4, []⟩ =
        .ok [⟨0, 0, some ⟨0, [.reg 10, .imm 1]⟩⟩] ∧
      ¬∀ s ∈ splitSections.symbols, ∀ func, s.function? = some func → s.size ≠ 0 →
        OwnBytes smallDisassembler splitSections.sections 0 ⟨0, [0, 10, 1, 0, 4, 0, 0, 0], by decide⟩
          s func := by
  have run : decodeFunction smallDisassembler 0 ⟨0, [0, 10, 1, 0, 4, 0, 0, 0], by decide⟩
      ⟨"main", 0, 4, []⟩ = .ok [⟨0, 0, some ⟨0, [.reg 10, .imm 1]⟩⟩] := rfl
  refine ⟨run, fun own => ?_⟩
  obtain ⟨visits, run', reads⟩ := own ⟨some "main", some .function, some 0, 4, some 1⟩ (by decide)
    ⟨"main", 0, 4, []⟩ rfl (by decide)
  rw [run] at run'
  cases run'
  have home := (reads _ List.mem_cons_self).1
  revert home
  decide

/-- Two functions one behind the other in the only section. -/
def wholeSection : Object where
  sections := [⟨0, [0, 10, 1, 0, 4, 0, 0, 0], by decide⟩]
  symbols := [⟨some "helper", some .function, some 0, 4, some 0⟩,
    ⟨some "main", some .function, some 4, 4, some 0⟩]

theorem split_sections_iff :
    ((∀ s ∈ splitSections.symbols, ∀ func, s.function? = some func → s.size ≠ 0 →
        OwnBytes smallDisassembler splitSections.sections 0 ⟨0, [0, 10, 1, 0, 4, 0, 0, 0], by decide⟩
          s func) ↔
      ∀ s ∈ splitSections.symbols, ∀ func, s.function? = some func → s.size ≠ 0 →
        LiesIn 0 ⟨0, [0, 10, 1, 0, 4, 0, 0, 0], by decide⟩ s func) ∧
    ∀ s ∈ wholeSection.symbols, ∀ func, s.function? = some func → s.size ≠ 0 →
      OwnBytes smallDisassembler wholeSection.sections 0 ⟨0, [0, 10, 1, 0, 4, 0, 0, 0], by decide⟩ s func := by
  refine ⟨functions_own_bytes_iff smallDisassembler splitSections rfl,
    (functions_own_bytes_iff smallDisassembler wholeSection rfl).mpr ?_⟩
  have lies : ∀ s ∈ wholeSection.symbols, ∀ func ∈ s.function?,
      LiesIn 0 ⟨0, [0, 10, 1, 0, 4, 0, 0, 0], by decide⟩ s func := by
    unfold LiesIn
    decide +kernel
  exact fun s member func found _ => lies s member func found

theorem decodeFunction_ordered {func : DecodedFunction} (run : decodeFunction dis n sec func = .ok visits) :
    (∀ t ∈ visits.filterMap Visit.translated, func.start ≤ t.address ∧ t.address < func.end) ∧
      (visits.filterMap Visit.translated).Pairwise fun t u => t.address < u.address := by
  obtain ⟨range, ordered⟩ := decodeLoop_ordered run
  have same : ∀ (v : Visit) (t : TranslatedInst), v.translated = some t → t.address = v.address := by
    intro v t here
    obtain ⟨inst, -, rfl⟩ := Option.map_eq_some_iff.mp here
    rfl
  constructor
  · intro t member
    obtain ⟨v, inside, here⟩ := List.mem_filterMap.mp member
    rw [same v t here]
    exact ⟨(range v inside).1, (range v inside).2.1⟩
  · refine List.pairwise_filterMap.mpr (ordered.imp fun {v w} before t at_t u at_u => ?_)
    rw [same v t at_t, same w u at_u]
    exact before

theorem processDisassembly_ordered {order : StartSort} {symbols : List Symbol}
    {funcs : List DecodedFunction} (run : processDisassembly dis order n sec symbols = .ok funcs) :
    ∀ d ∈ funcs, (∀ t ∈ d.insts, d.start ≤ t.address ∧ t.address < d.end) ∧
      d.insts.Pairwise fun t u => t.address < u.address := by
  intro d member
  obtain ⟨func, -, made⟩ := forall₂_mem (mapM_ok.mp run).flip member
  obtain ⟨visits, decoded, made⟩ := bind_ok.mp made
  cases made
  exact decodeFunction_ordered decoded

end Bleach.Mctomir
