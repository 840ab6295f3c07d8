import Bleach.Lifter.RegisterTransfer

/-! Execution of the register-copy code. Saving makes `register_state` agree
with the locals, loading makes the locals agree with `register_state`, and
neither changes anything but the variables it copies to. -/
namespace Bleach
variable {W : Type} {stats : RegisterStats} {w : Nat → Nat}

namespace Transfer

def save (w : Nat → Nat) (t : Transfer) : List Inst :=
  [.load (.copy t.cell) (w t.cls) (.cell t.cell), .store (.ssa (.copy t.cell)) (.slot t.slot)]

def reload (w : Nat → Nat) (t : Transfer) : List Inst :=
  [.load (.copy t.cell) (w t.cls) (.slot t.slot), .store (.ssa (.copy t.cell)) (.cell t.cell)]

def materialize (w : Nat → Nat) (t : Transfer) : List Inst := .alloca t.cell :: t.reload w

end Transfer

/-- A loop over classes and ranks is the flattening of the transfers. -/
theorem flatMap_transfers (code : Transfer → List Inst) :
    (transfers stats).flatMap code = stats.zipIdx.flatMap fun (rclass, cls) =>
      rclass.regs.keys.zipIdx.flatMap fun (reg, idx) => code ⟨cls, reg, idx⟩ := by
  simp only [transfers, List.flatMap_assoc, List.flatMap_map]

theorem widths_of_mem {rclass : RegisterClass} {cls : Nat} (member : (rclass, cls) ∈ stats.zipIdx) :
    stats[cls]? = some rclass ∧ stats.widths cls = rclass.bitsize := by
  have found : stats[cls]? = some rclass := List.mem_zipIdx_iff_getElem?.mp member
  exact ⟨found, by simp [RegisterStats.widths, found]⟩

theorem saveRegisters_eq (disjoint : stats.Disjoint) :
    saveRegisters (registerMap stats) stats = (transfers stats).flatMap (Transfer.save stats.widths) := by
  rw [saveRegisters, flatMap_transfers]
  apply List.flatMap_congr
  intro e member
  obtain ⟨found, width⟩ := widths_of_mem member
  simp only [classEntries_eq disjoint found, List.flatMap_map, Transfer.save, width]

theorem loadRegisters_eq (disjoint : stats.Disjoint) :
    loadRegisters (registerMap stats) stats =
      (transfers stats).flatMap (Transfer.reload stats.widths) := by
  rw [loadRegisters, flatMap_transfers]
  apply List.flatMap_congr
  intro e member
  obtain ⟨found, width⟩ := widths_of_mem member
  simp only [classEntries_eq disjoint found, List.flatMap_map, Transfer.reload, width]

theorem materializeRegisters_eq :
    materializeRegisters stats = (transfers stats).flatMap (Transfer.materialize stats.widths) := by
  rw [materializeRegisters, flatMap_transfers]
  apply List.flatMap_congr
  intro e member
  simp only [materializeRegister, Transfer.materialize, Transfer.reload, (widths_of_mem member).2]

/-- The slots hold what the locals hold. -/
def Agrees (stats : RegisterStats) (locals : Locals w) (slots : Slots w) : Prop :=
  ∀ t ∈ transfers stats, slots t.slot = locals t.cell

/-- Values other than those of the copy loops are untouched. -/
def SameValues (env env' : Env) : Prop := ∀ id, (∀ c, id ≠ .copy c) → env' id = env id

theorem SameValues.refl (env : Env) : SameValues env env := fun _ _ => rfl

theorem SameValues.trans {env env' env'' : Env} (first : SameValues env env')
    (second : SameValues env' env'') : SameValues env env'' :=
  fun v other => (second v other).trans (first v other)

theorem SameValues.bind (env : Env) (c : Cell) (v : Option RuntimeValue) :
    SameValues env (Function.update env (.copy c) v) :=
  fun _ other => Function.update_of_ne (other c) v env

variable {M : IRModule W}

def Data.setSlot (d : Data w W) (s : Slot) (v : BitVec (w s.cls)) : Data w W :=
  { d with shared := { d.shared with slots := Function.update d.shared.slots s v } }

def Data.setCell (d : Data w W) (c : Cell) (v : BitVec (w c.cls)) : Data w W :=
  { d with locals := Function.update d.locals c v }

theorem exec_save (t : Transfer) (d : Data M.widths W) :
    execCode M (t.save M.widths) d =
      some ((d.bind (.copy t.cell) (.int ⟨_, d.locals t.cell⟩)).setSlot t.slot (d.locals t.cell)) := by
  have write : overwrite (d.shared.slots t.slot) ⟨M.widths t.cell.cls, d.locals t.cell⟩ =
      some (d.locals t.cell) := overwrite_full (d.shared.slots t.slot) (d.locals t.cell)
  simp [Transfer.save, execCode, execInst, loadPtr, evalInt, evalValue, Data.bind, storePtr,
    write, Data.setSlot]

theorem exec_reload (t : Transfer) (d : Data M.widths W) :
    execCode M (t.reload M.widths) d =
      some ((d.bind (.copy t.cell) (.int ⟨_, d.shared.slots t.slot⟩)).setCell t.cell
        (d.shared.slots t.slot)) := by
  have write : overwrite (d.locals t.cell) ⟨M.widths t.slot.cls, d.shared.slots t.slot⟩ =
      some (d.shared.slots t.slot) := overwrite_full (d.locals t.cell) (d.shared.slots t.slot)
  simp [Transfer.reload, execCode, execInst, loadPtr, evalInt, evalValue, Data.bind, storePtr,
    write, Data.setCell]

theorem exec_materialize (t : Transfer) (d : Data M.widths W) :
    execCode M (t.materialize M.widths) d =
      some ((d.bind (.copy t.cell) (.int ⟨_, d.shared.slots t.slot⟩)).setCell t.cell
        (d.shared.slots t.slot)) := by
  have cleared : execInst M d (.alloca t.cell) = some (d.setCell t.cell 0) := rfl
  rw [Transfer.materialize, execCode, cleared, Option.bind_some, exec_reload]
  simp only [Data.setCell, Data.bind]
  rw [Function.update_idem]

/-- What saving some registers does. -/
structure Saved (ts : List Transfer) (d d' : Data w W) : Prop where
  copied : ∀ t ∈ ts, d'.shared.slots t.slot = d.locals t.cell
  others : ∀ s, (∀ t ∈ ts, t.slot ≠ s) → d'.shared.slots s = d.shared.slots s
  locals : d'.locals = d.locals
  shared : d'.shared = { d.shared with slots := d'.shared.slots }
  values : SameValues d.env d'.env

/-- What loading some registers does. -/
structure Reloaded (ts : List Transfer) (d d' : Data w W) : Prop where
  copied : ∀ t ∈ ts, d'.locals t.cell = d.shared.slots t.slot
  others : ∀ c, (∀ t ∈ ts, t.cell ≠ c) → d'.locals c = d.locals c
  shared : d'.shared = d.shared
  values : SameValues d.env d'.env

theorem exec_saves {ts : List Transfer} (members : ∀ t ∈ ts, t ∈ transfers stats)
    (d : Data M.widths W) : ∃ d', execCode M (ts.flatMap (Transfer.save M.widths)) d = some d' ∧
      Saved ts d d' := by
  induction ts generalizing d with
  | nil => exact ⟨d, rfl, by simp, by simp, rfl, rfl, .refl _⟩
  | cons t rest ih =>
    obtain ⟨ht, hrest⟩ := List.forall_mem_cons.mp members
    obtain ⟨d', run, copied, others, locals, shared, values⟩ := ih hrest
      ((d.bind (.copy t.cell) (.int ⟨_, d.locals t.cell⟩)).setSlot t.slot (d.locals t.cell))
    refine ⟨d', ?_, ?_, ?_, locals, shared, ?_⟩
    · rw [List.flatMap_cons, execCode_append, exec_save, Option.bind_some, run]
    · refine List.forall_mem_cons.mpr ⟨?_, copied⟩
      -- a later transfer to this slot is the same transfer
      by_cases again : ∃ u ∈ rest, u.slot = t.slot
      · obtain ⟨u, hu, same⟩ := again
        obtain rfl := slot_determines (hrest u hu) ht same
        exact copied u hu
      · rw [others t.slot fun u hu same => again ⟨u, hu, same⟩]
        exact Function.update_self ..
    · intro s apart
      obtain ⟨first, later⟩ := List.forall_mem_cons.mp apart
      rw [others s later]
      exact Function.update_of_ne (Ne.symm first) ..
    · exact (SameValues.bind _ _ _).trans values

/-- Loading is the same for the plain copies and for those behind an `alloca`. -/
theorem exec_reloads {code : Transfer → List Inst}
    (each : ∀ t (d : Data M.widths W), execCode M (code t) d =
      some ((d.bind (.copy t.cell) (.int ⟨_, d.shared.slots t.slot⟩)).setCell t.cell
        (d.shared.slots t.slot)))
    {ts : List Transfer} (members : ∀ t ∈ ts, t ∈ transfers stats) (d : Data M.widths W) :
    ∃ d', execCode M (ts.flatMap code) d = some d' ∧ Reloaded ts d d' := by
  induction ts generalizing d with
  | nil => exact ⟨d, rfl, by simp, by simp, rfl, .refl _⟩
  | cons t rest ih =>
    obtain ⟨ht, hrest⟩ := List.forall_mem_cons.mp members
    obtain ⟨d', run, copied, others, shared, values⟩ := ih hrest
      ((d.bind (.copy t.cell) (.int ⟨_, d.shared.slots t.slot⟩)).setCell t.cell
        (d.shared.slots t.slot))
    refine ⟨d', ?_, ?_, ?_, shared, ?_⟩
    · rw [List.flatMap_cons, execCode_append, each, Option.bind_some, run]
    · refine List.forall_mem_cons.mpr ⟨?_, copied⟩
      by_cases again : ∃ u ∈ rest, u.cell = t.cell
      · obtain ⟨u, hu, same⟩ := again
        obtain rfl := cell_determines (hrest u hu) ht same
        exact copied u hu
      · rw [others t.cell fun u hu same => again ⟨u, hu, same⟩]
        exact Function.update_self ..
    · intro c apart
      obtain ⟨first, later⟩ := List.forall_mem_cons.mp apart
      rw [others c later]
      exact Function.update_of_ne (Ne.symm first) ..
    · exact (SameValues.bind _ _ _).trans values

theorem run_saveRegisters (disjoint : stats.Disjoint) (hw : M.widths = stats.widths)
    (d : Data M.widths W) : ∃ d', execCode M (saveRegisters (registerMap stats) stats) d = some d' ∧
      Saved (transfers stats) d d' := by
  rw [saveRegisters_eq disjoint, ← hw]
  exact exec_saves (fun _ member => member) d

theorem run_loadRegisters (disjoint : stats.Disjoint) (hw : M.widths = stats.widths)
    (d : Data M.widths W) : ∃ d', execCode M (loadRegisters (registerMap stats) stats) d = some d' ∧
      Reloaded (transfers stats) d d' := by
  rw [loadRegisters_eq disjoint, ← hw]
  exact exec_reloads exec_reload (fun _ member => member) d

theorem run_materializeRegisters (hw : M.widths = stats.widths) (d : Data M.widths W) :
    ∃ d', execCode M (materializeRegisters stats) d = some d' ∧ Reloaded (transfers stats) d d' := by
  rw [materializeRegisters_eq, ← hw]
  exact exec_reloads exec_materialize (fun _ member => member) d

theorem Saved.agrees {d d' : Data w W} (saved : Saved (transfers stats) d d') :
    Agrees stats d'.locals d'.shared.slots :=
  fun t member => by rw [saved.copied t member, saved.locals]

theorem Reloaded.agrees {d d' : Data w W} (reloaded : Reloaded (transfers stats) d d') :
    Agrees stats d'.locals d'.shared.slots :=
  fun t member => by rw [reloaded.copied t member, reloaded.shared]

/-- The value of a register in a lifted function: a subregister has its register's. -/
def registerValue (stats : RegisterStats) (locals : Locals w) (r : Register) : Option APInt :=
  ((registerMap stats).find r).map fun c => ⟨w c.cls, locals c⟩

/-- The slot `register_state` keeps for a local variable. -/
def slotOf (stats : RegisterStats) (c : Cell) : Option Slot :=
  (stats[c.cls]?).bind fun rclass => (rclass.regs.keys.idxOf? c.reg).map fun idx => ⟨c.cls, idx⟩

/-- The value of a register in `register_state`. -/
def stateValue (stats : RegisterStats) (slots : Slots w) (r : Register) : Option APInt :=
  ((registerMap stats).find r).bind fun c => (slotOf stats c).map fun s => ⟨w s.cls, slots s⟩

theorem slotOf_cell {t : Transfer} (member : t ∈ transfers stats) :
    slotOf stats t.cell = some t.slot := by
  obtain ⟨rclass, found, key⟩ := mem_transfers.mp member
  obtain ⟨bound, here⟩ := List.getElem?_eq_some_iff.mp key
  have rank : rclass.regs.keys.idxOf? t.reg = some t.idx := by
    rw [List.idxOf?_eq_some_iff]
    refine ⟨bound, by simp [here], fun j before same => ?_⟩
    have := (rclass.regs.keys_nodup.getElem_inj_iff).mp (same.trans here.symm)
    omega
  simp [slotOf, Transfer.slot, found, rank]

theorem Agrees.stateValue_eq {locals : Locals w} {slots : Slots w}
    (agrees : Agrees stats locals slots) (r : Register) :
    stateValue stats slots r = registerValue stats locals r := by
  cases found : (registerMap stats).find r with
  | none => simp [stateValue, registerValue, found]
  | some c =>
    obtain ⟨t, member, rfl⟩ := transfer_of_find found
    simp only [stateValue, registerValue, found, slotOf_cell member, Option.bind_some, Option.map_some]
    rw [agrees t member]

end Bleach
