import Bleach.Lifter.Generate

/-! Lifting a whole module: the clones share the positions of the functions they
were made from, so calls need no renumbering. -/
namespace Bleach
variable {W : Type}

/-- `mctomir::function_symbol`. -/
structure FunctionSymbol where
  name : String
  start : BitVec 64
  «end» : BitVec 64
  deriving DecidableEq

/-- `mctomir::file_info`. -/
abbrev FileInfo := List FunctionSymbol

def FileInfo.getStartOf (finfo : FileInfo) (func : String) : Lift (BitVec 64) :=
  match finfo.find? (fun fs => fs.name = func) with
  | some fs => .ok fs.start
  | none => .error (.runtimeError ("Symbol info not found for: " ++ func))

/-- Lift the functions of a module in order. -/
def generateFunctions (cx : Context W) (addrs : FuncId → FunctionAddresses) :
    List MachineFunction → FuncId → Lift (List LiftedFunction)
  | [], _ => .ok []
  | mf :: rest, f => do
    let body ← generateFunction cx mf (addrs f)
    let funcs ← generateFunctions cx addrs rest (f + 1)
    .ok (⟨mf.name, body⟩ :: funcs)

/-- The registrations `fill_symtab_at` emits for the functions with a body,
numbered from `f`. Each is inserted in front of the previous ones. -/
def symtabAdds (finfo : FileInfo) : List LiftedFunction → FuncId → Lift (List Inst)
  | [], _ => .ok []
  | func :: rest, f => do
    if func.body.isNone then symtabAdds finfo rest (f + 1)
    else
      let addr ← finfo.getStartOf func.name
      let later ← symtabAdds finfo rest (f + 1)
      .ok (later ++ [.symtabAdd addr f])

def fillSymtabAt (adds : List Inst) (func : LiftedFunction) : LiftedFunction :=
  { func with body := func.body.map fun blocks =>
      Function.update blocks entryLabel (adds ++ blocks entryLabel) }

def fillSymtab (finfo : Option FileInfo) (funcs : List LiftedFunction) :
    Lift (List LiftedFunction) :=
  match finfo with
  | none => .ok funcs
  | some finfo => do
    let adds ← symtabAdds finfo funcs 0
    .ok (funcs.map (fillSymtabAt adds))

/-- The element width `create_state_type` gives the inline stack. -/
def largestRegsize (stats : RegisterStats) : Nat :=
  stats.foldl (fun m rc => max m rc.bitsize) 0

/-- `bleach_module`, from the register statistics on. -/
def bleachModule (cx : Context W) (mfs : List MachineFunction)
    (addrs : FuncId → FunctionAddresses) (finfo : Option FileInfo) (stackSize : Nat)
    (liftedPrefix : String) : Lift (IRModule W) := do
  if cx.stats.isEmpty then .error .assertion
  else
    let funcs ← generateFunctions cx addrs mfs 0
    let funcs ← fillSymtab finfo funcs
    .ok {
      widths := cx.stats.widths
      stackElemBits := largestRegsize cx.stats
      stackCount := stackSize / (largestRegsize cx.stats / 8)
      getFunction := cx.instrs.getFunction
      funcs := funcs.map fun f => { f with name := liftedPrefix ++ f.name } }

end Bleach
