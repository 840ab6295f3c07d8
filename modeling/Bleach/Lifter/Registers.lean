import Bleach.Config

/-! The loops that copy registers between `register_state` and the locals of a
lifted function: on entry, around every call and before every return. -/
namespace Bleach

/-- The copy of one register that `materialize_registers` emits. -/
def materializeRegister (cls width : Nat) (reg : Register) (idx : Nat) : List Inst :=
  [.alloca ⟨cls, reg⟩, .load (.copy ⟨cls, reg⟩) width (.slot ⟨cls, idx⟩),
    .store (.ssa (.copy ⟨cls, reg⟩)) (.cell ⟨cls, reg⟩)]

/-- The code of `materialize_registers`: classes in order, registers of a class
in increasing order. -/
def materializeRegisters (stats : RegisterStats) : List Inst :=
  stats.zipIdx.flatMap fun (rclass, cls) =>
    rclass.regs.keys.zipIdx.flatMap fun (reg, idx) =>
      materializeRegister cls rclass.bitsize reg idx

/-- The map `materialize_registers` fills while it emits the copies. A register
that is bound already keeps its variable. -/
def registerMap (stats : RegisterStats) : Reg2Vals :=
  stats.zipIdx.foldl (fun rmap (rclass, cls) =>
    rclass.regs.entries.foldl (fun rmap (reg, subregs) =>
      subregs.foldl (fun rmap r => rmap.tryEmplace r ⟨cls, reg⟩)
        (rmap.tryEmplace reg ⟨cls, reg⟩)) rmap) .empty

/-- The entries of the register map that belong to a class, renumbered. -/
def classEntries (rmap : Reg2Vals) (rclass : RegisterClass) : List ((Register × Cell) × Nat) :=
  (rmap.entries.filter (fun e => rclass.regs.contains e.1)).zipIdx

def saveRegisters (rmap : Reg2Vals) (stats : RegisterStats) : List Inst :=
  stats.zipIdx.flatMap fun (rclass, cls) =>
    (classEntries rmap rclass).flatMap fun ((_, addr), idx) =>
      [.load (.copy addr) rclass.bitsize (.cell addr),
        .store (.ssa (.copy addr)) (.slot ⟨cls, idx⟩)]

def loadRegisters (rmap : Reg2Vals) (stats : RegisterStats) : List Inst :=
  stats.zipIdx.flatMap fun (rclass, cls) =>
    (classEntries rmap rclass).flatMap fun ((_, addr), idx) =>
      [.load (.copy addr) rclass.bitsize (.slot ⟨cls, idx⟩),
        .store (.ssa (.copy addr)) (.cell addr)]

/-- `save_registers_before_return` on one block: in front of its first return. -/
def saveRegistersBeforeReturn (save : List Inst) : List Inst → List Inst
  | [] => []
  | .retVoid :: rest => save ++ .retVoid :: rest
  | i :: rest => i :: saveRegistersBeforeReturn save rest

end Bleach
