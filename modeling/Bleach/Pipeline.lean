import Bleach.Mctomir.Preservation
import Bleach.Lifter.ErasedRuns
import Bleach.Mctomir.Aliases

/-! Both tools in a row: the bytes of a section are disassembled and translated to machine
functions, and these are lifted. The lifted function does what the machine does that fetches
its instructions from the bytes. -/
namespace Bleach
open Transition
open Mctomir (CodeState)
variable {W : Type} {w : Nat → Nat} {cx : Context W} {mf : MachineFunction} {spReg : Register}

/-- What is seen of a machine that executes one function. -/
structure View (W : Type) where
  returned : Bool
  registers : Register → Option APInt
  world : W

namespace View

/-- The lifted function shows the registers in its local variables, and behind its return in
the register state. -/
def Shown (stats : RegisterStats) (v : View W) (c : Config w W) : Prop :=
  c.shared.world = v.world ∧
    match c.frames with
    | [] => v.returned = true ∧ ∀ r, stateValue stats c.shared.slots r = v.registers r
    | fr :: rest => rest = [] ∧ v.returned = false ∧ ∀ r, registerValue stats fr.locals r = v.registers r

/-- It has stopped with the same outcome. -/
structure Ended (stats : RegisterStats) (v : View W) (c : Config w W) : Prop where
  returned : v.returned = true ↔ c.frames = []
  registers : v.returned = true → ∀ r, stateValue stats c.shared.slots r = v.registers r
  world : c.shared.world = v.world

end View

def Guest.view (stats : RegisterStats) (g : Guest w W) : View W :=
  ⟨g.place.isNone, registerValue stats g.regs, g.world⟩

theorem SameState.shown {stats : RegisterStats} {g : Guest w W} {c : Config w W}
    (same : SameState stats g c) : (g.view stats).Shown stats c := by
  obtain ⟨world, frames⟩ := same
  refine ⟨world, ?_⟩
  split at frames
  · next none => simpa [none, Guest.view] using frames
  · next fr rest some => simpa [some, Guest.view, Option.isSome_iff_ne_none] using frames

theorem SameEnd.ended {stats : RegisterStats} {g : Guest w W} {c : Config w W} (same : SameEnd stats g c) :
    (g.view stats).Ended stats c :=
  ⟨by simpa [Guest.view] using same.returned, fun done => same.registers (by simpa [Guest.view] using done),
    same.world⟩

/-- The lifted function from `c` on and the machine from `s` on show the same. -/
abbrev Runs {S : Type} (stats : RegisterStats) (step : S → Option S) (view : S → View W) (M : IRModule W)
    (s : S) (c : Config M.widths W) : Prop :=
  Exhibits step M.step (fun s c => (view s).Shown stats c) (fun s c => (view s).Ended stats c) s c

/-- A lifted function does what every machine does that runs as the guest does. -/
theorem Hosted.runs {S : Type} {step : S → Option S} {view : S → View W} {M : IRModule W}
    {R : S → Guest M.widths W → Prop} {mfs : List MachineFunction} {addrs : FuncId → FunctionAddresses}
    {adds : List Inst} {f : FuncId} {fin : Builder} (host : Hosted cx mfs addrs adds M f mf fin spReg)
    (found : mfs[f]? = some mf) (same : Lockstep step (guestStep cx mf) R)
    (seen : ∀ s g, R s g → view s = g.view cx.stats) {regs : Locals M.widths} {shared : Shared M.widths W}
    (agrees : Agrees cx.stats regs shared.slots) {s : S} (start : R s ⟨some (0, 0), regs, shared.world⟩) :
    Runs cx.stats step view M s ⟨[M.entryFrame f (liftedBody cx adds fin)], shared⟩ := by
  obtain ⟨c, entry, tracks⟩ := host.starts found agrees
  have through := host.simulation.exhibits tracks entry fun g c => Tracks.sameState
  refine through.before same start (fun s g c related same => ?_) fun s g c related same => ?_
  · rw [seen s g related]
    exact same.shown
  · rw [seen s g related]
    exact same.ended

theorem View.Shown.erased {stats : RegisterStats} {v : View W} {c : Config w W} (shown : v.Shown stats c) :
    v.Shown stats c.erased := by
  obtain ⟨frames, shared⟩ := c
  refine ⟨shown.1, ?_⟩
  have seen := shown.2
  cases frames with
  | nil => exact seen
  | cons fr rest =>
    obtain ⟨rfl, running, registers⟩ := seen
    exact ⟨rfl, running, registers⟩

theorem View.Ended.erased {stats : RegisterStats} {v : View W} {c : Config w W} (ended : v.Ended stats c) :
    v.Ended stats c.erased where
  returned := by
    rw [ended.returned, Config.erased]
    exact List.map_eq_nil_iff.symm
  registers := ended.registers
  world := ended.world

/-- The pass behind the lifter changes none of it. -/
theorem Runs.erased {S : Type} {stats : RegisterStats} {step : S → Option S} {view : S → View W}
    {M : IRModule W} {s : S} {c : Config M.widths W} (runs : Runs stats step view M s c) :
    Runs stats step view M.erased s c.erased := by
  refine runs.behind (erased_lockstep M) rfl (fun s c e same shown => ?_) fun s c e same ended => ?_
  · rw [same]
    exact shown.erased
  · rw [same]
    exact ended.erased

namespace Mctomir
variable {mia : MCInstrAnalysis} {opcodes : Nat → InstrDesc} {disp : MCInst → Address}
  {dis : MCDisassembler} {n : Nat} {sec : Section} {k : FuncId} {d : DecodedFunction}
  {funcs : List DecodedFunction} {func : TranslatedFunction}

/-- Decode the bytes of the section from an address on. -/
def Section.fetch (dis : MCDisassembler) (sec : Section) : Fetch := fun addr =>
  if sec.address ≤ addr then
    (dis.getInstruction (sec.contents.drop (addr - sec.address).toNat) addr).map fun (inst, size) =>
      (inst, addr + BitVec.ofNat 64 size)
  else none

/-- Every byte of the function belongs to an instruction. -/
def Legal (dis : MCDisassembler) (n : Nat) (sec : Section) (d : DecodedFunction) : Prop :=
  ∀ visits, decodeFunction dis n sec d = .ok visits → ∀ v ∈ visits, v.inst ≠ none

theorem Legal.of_decoded {n : Nat} {d : DecodedFunction} (decoded : decodeFunction dis n sec d =
    .ok (d.insts.map fun t => ⟨n, t.address, some t.inst⟩)) : Legal dis n sec d := by
  intro visits same
  rw [decoded] at same
  cases same
  intro v member
  obtain ⟨t, -, rfl⟩ := List.mem_map.mp member
  simp

theorem Steps.fetch {addr next : Address} {inst : MCInst} (step : Steps dis sec addr (some inst) next)
    (inside : (addr - sec.address).toNat ≤ sec.contents.length) :
    sec.fetch dis addr = some (inst, next) := by
  rw [Section.fetch, if_pos (sec.address_le inside).1]
  unfold Steps at step
  split at step
  · next inst' size found =>
    obtain ⟨same, rfl⟩ := step
    cases same
    rw [found]
    rfl
  · cases step.1

/-- A run of the decode loop lays out what is fetched from the same bytes. -/
theorem decodeLoop_laidOut {last addr : Address} {fuel : Nat} {visits : List Visit}
    (run : decodeLoop dis n sec last fuel addr = .ok visits) (legal : ∀ v ∈ visits, v.inst ≠ none) :
    (∀ t ∈ visits.filterMap Visit.translated, ∃ next, sec.fetch dis t.address = some (t.inst, next)) ∧
      (∀ {before t u after next}, visits.filterMap Visit.translated = before ++ t :: u :: after →
        sec.fetch dis t.address = some (t.inst, next) → next = u.address) ∧
      ∀ t, (visits.filterMap Visit.translated).head? = some t → t.address = addr := by
  induction fuel generalizing addr visits with
  | zero =>
    rw [decodeLoop] at run
    split at run
    · cases run
    · cases run
      simp
  | succ fuel ih =>
    rcases decodeLoop_succ.mp run with ⟨-, rfl⟩ | ⟨before, inside, inst, next, rest, step, onward, rfl⟩
    · simp
    · obtain ⟨inst, rfl⟩ := Option.ne_none_iff_exists'.mp (legal _ List.mem_cons_self)
      obtain ⟨fetched, followed, head⟩ := ih onward fun v member => legal v (List.mem_cons_of_mem _ member)
      have here : (⟨n, addr, some inst⟩ :: rest : List Visit).filterMap Visit.translated =
          ⟨addr, inst⟩ :: rest.filterMap Visit.translated := rfl
      have first := step.fetch inside
      rw [here]
      refine ⟨?_, ?_, ?_⟩
      · intro t member
        rcases List.mem_cons.mp member with rfl | member
        · exact ⟨next, first⟩
        · exact fetched t member
      · intro front t u after next' shape fetch
        cases front with
        | nil =>
          obtain ⟨rfl, later⟩ := List.cons.inj shape
          rw [first] at fetch
          cases fetch
          exact (head u (by rw [later]; rfl)).symm
        | cons x front => exact followed (List.cons.inj shape).2 fetch
      · rintro t ⟨⟩
        rfl

theorem processDisassembly_laidOut {order : StartSort} {symbols : List Symbol}
    (run : processDisassembly dis order n sec symbols = .ok funcs) (member : d ∈ funcs)
    (legal : Legal dis n sec d) :
    LaidOut (sec.fetch dis) d.insts ∧ ∀ t, d.insts.head? = some t → t.address = d.start := by
  obtain ⟨func, -, made⟩ := forall₂_mem (mapM_ok.mp run).flip member
  obtain ⟨visits, decoded, made⟩ := bind_ok.mp made
  cases made
  obtain ⟨fetched, followed, head⟩ := decodeLoop_laidOut decoded (legal visits decoded)
  exact ⟨⟨fetched, followed⟩, head⟩

def CodeState.view (stats : RegisterStats) (s : CodeState w W) : View W :=
  ⟨s.pc.isNone, registerValue stats s.regs, s.world⟩

theorem Corresponds.view_eq {stats : RegisterStats} {s : CodeState w W} {g : Guest w W}
    (same : Corresponds func s g) : s.view stats = g.view stats := by
  cases same with
  | inside _ _ => rfl
  | returned => rfl

/-- The translated function of liftable code, lifted. -/
theorem hosted_of_translated {tr : Translation} {addrs : FuncId → FunctionAddresses}
    {finfo : Option FileInfo} {stackSize : Nat} {liftedPrefix : String} {M : IRModule W}
    (at_k : tr.funcs[k]? = some func) (trans : Translated mia opcodes disp d func)
    (liftable : LiftableCode cx mia opcodes disp spReg d.insts) (disjoint : cx.stats.Disjoint)
    (module : bleachModule cx (tr.funcs.map (TranslatedFunction.toMachine opcodes)) addrs finfo stackSize
      liftedPrefix = .ok M) :
    ∃ mfs adds fin, mfs[k]? = some ((func.toMachine opcodes).plainReturns cx) ∧
      Hosted cx mfs addrs adds M k ((func.toMachine opcodes).plainReturns cx) fin spReg := by
  obtain ⟨-, adds, -, lifted, -⟩ := lifted_of_bleachModule module
  have sub := liftable.sublanguage trans
  have found : ((tr.funcs.map (TranslatedFunction.toMachine opcodes)).map
      (MachineFunction.plainReturns cx))[k]? = some ((func.toMachine opcodes).plainReturns cx) := by
    simp [at_k]
  obtain ⟨fin, whole, body⟩ := lifted.plainReturns.functions found
  rw [if_neg (by simpa using sub.function)] at body
  exact ⟨_, adds, fin, found, lifted.plainReturns, disjoint, whole, body, sub⟩

/-- From the bytes of a function to its lifted body without redundant branches. Started with the same
registers and world, the lifted function passes through the states of the machine that decodes as it
goes, returns where that returns, and stops only where that stops. -/
theorem lifted_bytes_run {order : StartSort} {symbols : List Symbol} {tr : Translation}
    {addrs : FuncId → FunctionAddresses} {finfo : Option FileInfo} {stackSize : Nat} {liftedPrefix : String}
    {M : IRModule W} (disassembled : processDisassembly dis order n sec symbols = .ok funcs)
    (done : finalize mia funcs = .ok tr) (found : funcs[k]? = some d) (legal : Legal dis n sec d)
    (code : PlainCode mia disp funcs) (liftable : LiftableCode cx mia opcodes disp spReg d.insts)
    (disjoint : cx.stats.Disjoint)
    (module : bleachModule cx (tr.funcs.map (TranslatedFunction.toMachine opcodes)) addrs finfo stackSize
      liftedPrefix = .ok M) :
    ∃ blocks, M.erased.body k = some blocks ∧ ∀ (regs : Locals M.widths) (shared : Shared M.widths W),
      Agrees cx.stats regs shared.slots →
        Runs cx.stats (codeStep cx mia opcodes (sec.fetch dis)) (CodeState.view cx.stats) M.erased
          ⟨some d.start, regs, shared.world⟩ ⟨[M.erased.entryFrame k blocks], shared⟩ := by
  obtain ⟨-, all⟩ := finalize_ok done
  obtain ⟨func, at_k, result⟩ := all k d found
  have member := List.mem_of_getElem? found
  have trans : Translated mia opcodes disp d func := result.translated code found liftable.noCalls
  obtain ⟨laid, start⟩ := processDisassembly_laidOut disassembled member legal
  obtain ⟨first, head⟩ : ∃ first, d.insts.head? = some first :=
    ⟨_, List.head?_eq_some_head liftable.nonempty⟩
  obtain ⟨mfs, adds, fin, at_k', host⟩ := hosted_of_translated at_k trans liftable disjoint module
  have same : Lockstep (codeStep cx mia opcodes (sec.fetch dis))
      (guestStep cx ((func.toMachine opcodes).plainReturns cx)) (Corresponds (w := M.widths) func) := by
    intro s g related
    rw [guestStep_plainReturns]
    exact translation_lockstep code member liftable trans laid s g related
  refine ⟨_, IRModule.body_erased_of host.body, fun regs shared agrees => ?_⟩
  rw [← start first head]
  exact (host.runs at_k' same (fun s g => Corresponds.view_eq) agrees
    (trans.starts head regs shared.world)).erased

/-- An instruction is its opcode, two registers and an immediate. -/
def fewDisassembler : MCDisassembler where
  getInstruction
    | op :: r :: r' :: imm :: _, _ => some (⟨op.toNat, [.reg r.toNat, .reg r'.toNat, .imm imm.toInt]⟩, 4)
    | _, _ => none
  takes := by
    intro bytes addr inst size found
    split at found
    · cases found
      simp
    · cases found

def decrementSection : Section :=
  ⟨0x1000, [0, 10, 10, 0, 1, 10, 0, 8, 0, 10, 10, 0xff, 4, 0, 1, 0], by decide⟩

def decrementSymbol : Symbol := ⟨some "decrement", some .function, some 0x1000, 16, some 0⟩

theorem decrement_disassembled :
    processDisassembly fewDisassembler startSort 0 decrementSection [decrementSymbol] = .ok [decrement] := rfl

theorem decrement_legal : Legal fewDisassembler 0 decrementSection decrement := .of_decoded rfl

/-- From its bytes to its lifted body, the function returns with one less. -/
theorem decrement_lifted : ∃ tr M blocks, finalize fewTarget [decrement] = .ok tr ∧
    bleachModule RiscV.context (tr.funcs.map (TranslatedFunction.toMachine fewOpcodes)) (fun _ => none)
      none 64 "" = .ok M ∧ M.erased.body 0 = some blocks ∧
    ∃ c, Halts M.erased.step ⟨[M.erased.entryFrame 0 blocks], ⟨fun _ => 3, fun _ => 0, [], fun _ => 0⟩⟩ c ∧
      c.frames = [] ∧ stateValue RiscV.context.stats c.shared.slots RiscV.X10 = some ⟨64, 2⟩ := by
  obtain ⟨tr, done⟩ : ∃ tr, finalize fewTarget [decrement] = .ok tr := ⟨_, rfl⟩
  obtain ⟨M, module⟩ : ∃ M, bleachModule RiscV.context
      (tr.funcs.map (TranslatedFunction.toMachine fewOpcodes)) (fun _ => none) none 64 "" = .ok M := by
    cases done
    exact ⟨_, rfl⟩
  obtain ⟨_, _, -, lifted, -⟩ := lifted_of_bleachModule module
  have found : [decrement][0]? = some decrement := rfl
  obtain ⟨blocks, body, runs⟩ := lifted_bytes_run decrement_disassembled done found decrement_legal
    decrement_plain decrement_liftable (by decide) module
  refine ⟨tr, M, blocks, done, module, body, ?_⟩
  have result := runs (fun _ => 3) ⟨fun _ => 3, fun _ => 0, [], fun _ => 0⟩ fun _ _ => rfl
  have ends : ∀ {w : Nat → Nat}, w = RiscV.context.stats.widths →
      ((iterate (codeStep (w := w) RiscV.context fewTarget fewOpcodes
        (decrementSection.fetch fewDisassembler)) 4 ⟨some 0x1000, fun _ => 3, fun _ => 0⟩).map fun s =>
          (s.pc, registerValue RiscV.context.stats s.regs RiscV.X10)) = some (none, some ⟨64, 2⟩) := by
    rintro w rfl
    decide
  obtain ⟨s, path, outcome⟩ := Option.map_eq_some_iff.mp (ends lifted.widths)
  obtain ⟨returned, value⟩ := Prod.mk.inj outcome
  have done' : (s.view RiscV.context.stats).returned = true := by simp [CodeState.view, returned]
  have halted : codeStep RiscV.context fewTarget fewOpcodes (decrementSection.fetch fewDisassembler) s =
      none := by simp [codeStep, returned]
  obtain ⟨c, halts, ended⟩ := result.halts s ⟨⟨4, path⟩, halted⟩
  exact ⟨c, halts, ended.returned.mp done', (ended.registers done' RiscV.X10).trans value⟩

end Mctomir
end Bleach
