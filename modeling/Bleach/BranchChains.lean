import Bleach.Lifter.BranchEraser
import Bleach.Lifter.Shape
import Bleach.Lifter.Operands
import Bleach.RiscV

/-! Blocks that end in several conditional branches and perhaps a jump: where control
goes, and in which IR blocks the code of the branches stands. -/
namespace Bleach
variable {W : Type} {w : Nat → Nat} {cx : Context W} {numBlocks b : Nat} {mbb : MachineBasicBlock}
  {st st' : Builder} {addrs : BlockAddresses} {generics conds : List MachineInstr}
  {jump : Option MachineInstr}

/-- Whether a conditional branch is taken for the values of its operands. -/
def branchTaken (cx : Context W) (minst : MachineInstr) (regs : Locals w) (world : W) :
    Option (Bool × W) := do
  let f ← cx.instrs.getFunction minst.desc.name
  let vs ← (minst.uses.filter (!·.isMBB)).mapM (argumentValue cx regs)
  if vs.map APInt.width = f.params ∧ f.ret = 1 then
    let (r, world) ← f.eval vs world
    some (r.toNat == 1, world)
  else none

/-- The target of the first branch that is taken, else `otherwise`. -/
def firstTaken (cx : Context W) (regs : Locals w) (otherwise : BlockId) :
    List MachineInstr → W → Option (BlockId × W)
  | [], world => some (otherwise, world)
  | minst :: rest, world => do
    let (taken, world) ← branchTaken cx minst regs world
    if taken then
      let t ← (minst.operands[2]?).bind MachineOperand.mbb?
      some (t, world)
    else firstTaken cx regs otherwise rest world

/-- The target of the jump, else the next block. -/
def otherwiseTarget (b : BlockId) : Option MachineInstr → Option BlockId
  | none => some (b + 1)
  | some minst => minst.mbbOperand

/-- An instruction that is no control transfer to the lifter. -/
def IsStraight (cx : Context W) (minst : MachineInstr) : Prop :=
  dispatch cx minst ∅ ∉ [.ret, .indirect, .jump, .branch, .call]

/-- The machine block: instructions without control transfer, conditional branches, a jump. -/
structure BranchBlock (cx : Context W) (mbb : MachineBasicBlock) (generics conds : List MachineInstr)
    (jump : Option MachineInstr) : Prop where
  instrs : mbb = generics ++ conds ++ jump.toList
  straight : ∀ minst ∈ generics, IsStraight cx minst
  branches : ∀ minst ∈ conds, dispatch cx minst ∅ = .branch
  nonempty : conds ≠ []
  jumps : ∀ minst ∈ jump, dispatch cx minst ∅ = .jump

/-- What stands in the IR blocks of machine block `b` before it is lifted. -/
structure Opens (cx : Context W) (b : BlockId) (st : Builder) : Prop where
  own : st.blocks (.mbb b) = if b = 0 then materializeRegisters cx.stats else []
  splits : ∀ i, st.blocks (.split b i) = []

/-- The code in front of the branches. -/
def straightCode (cx : Context W) (numBlocks : Nat) (b : BlockId) (mbb : MachineBasicBlock)
    (addrs : BlockAddresses) (generics : List MachineInstr) (st : Builder) : List Inst :=
  match fillInstrs cx ⟨numBlocks, b, mbb, 0⟩ addrs generics { st with cur := .mbb b } with
  | .ok st => st.blocks (.mbb b)
  | .error _ => []

/-- The IR blocks made for machine block `b`: its own, and those `get_if_false_block` creates. -/
inductive Produced (blocks : Label → List Inst) (b : BlockId) : Label → Prop where
  | own : Produced blocks b (.mbb b)
  | split {l cond ifTrue i} (behind : Produced blocks b l)
      (branch : .condBr cond ifTrue (.split b i) ∈ blocks l) : Produced blocks b (.split b i)

/-- Control reaches the target of the first branch taken, else the jump's target, else the
next block, with the registers the straight-line code left. -/
def TransfersControl (cx : Context W) (b : BlockId) (straight : List Inst) (conds : List MachineInstr)
    (jump : Option MachineInstr) (blocks : Label → List Inst) : Prop :=
  ∀ (M : IRModule W) (f : FuncId), M.widths = cx.stats.widths → M.getFunction = cx.instrs.getFunction →
    M.body f = some blocks → ∀ (fr : Frame M.widths) (rest : List (Frame M.widths))
    (shared : Shared M.widths W) (d : Data M.widths W) (e t : BlockId) (world : W), fr.func = f →
    fr.code = blocks (.mbb b) → execCode M straight (fr.data shared) = some d →
    otherwiseTarget b jump = some e → firstTaken cx d.locals e conds d.shared.world = some (t, world) →
    ∃ env, Transition.Reaches M.step ⟨fr :: rest, shared⟩
      ⟨⟨f, .mbb t, blocks (.mbb t), env, d.locals⟩ :: rest, { d.shared with world := world }⟩

/-- The block is lifted correctly; `blocks` is what the branch eraser is given. -/
structure LiftsBranches (cx : Context W) (b : BlockId) (straight : List Inst) (conds : List MachineInstr)
    (jump : Option MachineInstr) (blocks : Label → List Inst) : Prop where
  transfers : TransfersControl cx b straight conds jump (redundantBranchEraser blocks)
  terminated : ∀ l, Produced blocks b l → ∃ before t, redundantBranchEraser blocks l = before ++ [t] ∧
    t.isTerminator = true ∧ ∀ i ∈ before, i.isTerminator = false
  placed : ∀ l, Produced blocks b l → LoadsPlaced [] (redundantBranchEraser blocks l)
  /-- What is erased is not used by what is kept. -/
  unused : ∀ l, Produced blocks b l → ∀ i ∈ erasedCode (blocks l), ∀ id ∈ i.dst?,
    ∀ l', Produced blocks b l' → ∀ j ∈ redundantBranchEraser blocks l', .ssa id ∉ j.values

/-- A register without a constant is loaded. -/
def NeedsLoad (cx : Context W) : MachineOperand → Prop
  | .reg r _ _ => cx.instrs.constReg? cx.tm r = none
  | _ => False

instance : DecidablePred (NeedsLoad cx)
  | .reg _ _ _ => inferInstanceAs (Decidable (_ = none))
  | .imm _ | .mbb _ | .global _ | .other _ => inferInstanceAs (Decidable False)

/-- No branch behind the first reads a register, and the jump is marked as one. -/
structure Foldable (cx : Context W) (conds : List MachineInstr) (jump : Option MachineInstr) : Prop where
  constant : ∀ minst ∈ conds.tail, ∀ op ∈ minst.uses, ¬NeedsLoad cx op
  marked : ∀ minst ∈ jump, minst.isUnconditionalBranch = true

variable {M : IRModule W}

theorem bit_of_width {n : Nat} (r : BitVec n) (one : n = 1) :
    ∃ v : BitVec 1, (⟨n, r⟩ : APInt) = ⟨1, v⟩ ∧ v.toNat = r.toNat := by
  subst one
  exact ⟨r, rfl, rfl⟩

/-- The code of a branch runs to one of its targets. -/
theorem branch_runs (widths : M.widths = cx.stats.widths)
    (getFunction : M.getFunction = cx.instrs.getFunction) {blocks : Label → List Inst} {s : Site}
    {minst : MachineInstr} {loads tail : List Inst} {args : List Value}
    (operands : Operands cx s (minst.uses.filter (!·.isMBB)) loads args) {id : ValueId} {t : BlockId}
    {l : Label} {fr : Frame M.widths} (body : M.body fr.func = some blocks)
    (code : fr.code = loads ++ .callInstr id minst.desc.name args :: .condBr (.ssa id) (.mbb t) l :: tail)
    (rest : List (Frame M.widths)) {shared : Shared M.widths W} {taken : Bool} {world : W}
    (decides : branchTaken cx minst fr.locals shared.world = some (taken, world)) :
    ∃ env, Transition.Reaches M.step ⟨fr :: rest, shared⟩
      ⟨⟨fr.func, if taken then .mbb t else l, blocks (if taken then .mbb t else l), env, fr.locals⟩ :: rest,
        { shared with world := world }⟩ := by
  obtain ⟨vals, values, required⟩ := operands
  obtain rfl := required_values required
  obtain ⟨d, run, loaded⟩ := exec_operands widths values (fr.data shared)
  have arguments : args.mapM (evalInt d.env) =
      (minst.uses.filter (!·.isMBB)).mapM (argumentValue cx fr.locals) := by
    have same := congrArg (List.mapM fun v : Option APInt => v) loaded.arguments.1
    simp only [List.mapM_map, Function.comp_def] at same
    exact same
  obtain ⟨f, function, decides⟩ := Option.bind_eq_some_iff.mp decides
  obtain ⟨vs, inputs, decides⟩ := Option.bind_eq_some_iff.mp decides
  split_ifs at decides with typed
  obtain ⟨⟨r, world'⟩, result, decides⟩ := Option.bind_eq_some_iff.mp decides
  cases decides
  obtain ⟨params, one⟩ := typed
  obtain ⟨d', call, locals, shared', value⟩ : ∃ d', execInst M d (.callInstr id minst.desc.name args) =
      some d' ∧ d'.locals = fr.locals ∧ d'.shared = { shared with world := world } ∧
      evalInt d'.env (.ssa id) = some ⟨f.ret, r⟩ := by
    have void : f.ret ≠ 0 := by omega
    have world_eq : d.shared.world = shared.world := congrArg Shared.world loaded.shared
    refine ⟨({ d with shared := { d.shared with world := world } } : Data M.widths W).bind id
      (.int ⟨f.ret, r⟩),
      ?_, loaded.locals, congrArg (fun sh => { sh with world := world }) loaded.shared, ?_⟩
    · simp only [execInst, getFunction, function, arguments, inputs, params, world_eq, result, void,
        Option.bind_eq_bind, Option.bind_some, if_true, if_false]
    · simp [evalInt, evalValue, Data.bind]
  obtain ⟨v, bit, same⟩ := bit_of_width r one
  rw [bit] at value
  have straight : fr.code = (loads ++ [.callInstr id minst.desc.name args]) ++
      .condBr (.ssa id) (.mbb t) l :: tail := by simp [code]
  have prepared : execCode M (loads ++ [.callInstr id minst.desc.name args]) (fr.data shared) = some d' := by
    rw [execCode_append, run, Option.bind_some, execCode, call]
    rfl
  have path := IRModule.run_plain rest straight prepared
  have last := @IRModule.step_condBr _ M
    ({ fr with code := .condBr (.ssa id) (.mbb t) l :: tail }.withData d') rest d'.shared tail
    (.ssa id) (.mbb t) l blocks v rfl body value
  refine ⟨d'.env, .trans ⟨_, path⟩ (.single ?_)⟩
  rw [last, shared', ← locals, same]
  simp only [beq_iff_eq]
  rfl

/-- What is known of a branch that was lifted. -/
structure BranchCode (cx : Context W) (s : Site) (minst : MachineInstr) (loads : List Inst)
    (args : List Value) (t : BlockId) : Prop where
  operands : Operands cx s (minst.uses.filter (!·.isMBB)) loads args
  target : (minst.operands[2]?).bind MachineOperand.mbb? = some t

/-- The call of the branch function and the branch. -/
def branchCode (b i : Nat) (minst : MachineInstr) (args : List Value) (t : BlockId) (l : Label) :
    List Inst :=
  [.callInstr (.result b i) minst.desc.name args, .condBr (.ssa (.result b i)) (.mbb t) l]

/-- Branches behind the first one, from index `i` on: each in a block of its own. `loads` are
all their operand loads, `after` is where the last one goes. -/
inductive Chain (cx : Context W) (numBlocks b : Nat) (mbb : MachineBasicBlock)
    (blocks : Label → List Inst) (after : Label) : Nat → List MachineInstr → Label → List Inst → Prop where
  | nil {i} : Chain cx numBlocks b mbb blocks after i [] after []
  | cons {i minst rest loads args t l more} (code : BranchCode cx ⟨numBlocks, b, mbb, i⟩ minst loads args t)
      (emitted : blocks (.split b (i - 1)) = branchCode b i minst args t l)
      (later : Chain cx numBlocks b mbb blocks after (i + 1) rest l more) :
      Chain cx numBlocks b mbb blocks after i (minst :: rest) (.split b (i - 1)) (loads ++ more)

/-- Where the last branch goes when it is not taken. -/
inductive After (b : BlockId) (blocks : Label → List Inst) : Option MachineInstr → Label → Prop where
  | next : After b blocks none (.mbb (b + 1))
  | folded {minst t} (marked : minst.isUnconditionalBranch = true) (target : minst.mbbOperand = some t) :
      After b blocks (some minst) (.mbb t)
  | unmarked {minst i} (other : minst.isUnconditionalBranch = false) (empty : blocks (.split b i) = []) :
      After b blocks (some minst) (.split b i)

theorem fillInstrs_cons {s : Site} {minst : MachineInstr} {rest : List MachineInstr}
    (done : fillInstrs cx s addrs (minst :: rest) st = .ok st') : ∃ addr st₁,
      generateInstruction cx s addr minst st = .ok st₁ ∧
      fillInstrs cx { s with idx := s.idx + 1 } addrs rest st₁ = .ok st' := by
  obtain ⟨addr, -, done⟩ := bind_ok.mp done
  obtain ⟨st₁, first, done⟩ := bind_ok.mp done
  exact ⟨addr, st₁, first, done⟩

/-- A lifted branch: its loads go to the block of the machine block, the rest to where the
builder stands. -/
theorem branch_lifted {s : Site} {minst : MachineInstr} {addr : Option (BitVec 64)}
    (branch : dispatch cx minst ∅ = .branch) (done : generateInstruction cx s addr minst st = .ok st') :
    ∃ loads args t, BranchCode cx s minst loads args t ∧ IfFalse s st'.cur ∧
      ∀ l, st'.blocks l = st.blocks l ++ (if l = s.label then loads else []) ++
        if l = st.cur then branchCode s.block s.idx minst args t st'.cur else [] := by
  rw [generateInstruction_eq, dispatch_congr (by simp) branch] at done
  obtain ⟨f, loads, args, t, ifFalse, -, operands, target, -, untaken, rfl⟩ := generateBranch_ok done
  refine ⟨loads, args, t, ⟨operands, target⟩, untaken, ?_⟩
  intro l
  rw [Builder.emit_blocks, Builder.insert_blocks]
  rfl

/-- The branches behind the first one and the jump. -/
theorem chain_lifted {i : Nat} {prev : MachineInstr} (before : mbb[i]? = some prev)
    (conditional : prev.isConditionalBranch = true) (drop : mbb.drop (i + 1) = conds ++ jump.toList)
    (branches : ∀ minst ∈ conds, dispatch cx minst ∅ = .branch)
    (jumps : ∀ minst ∈ jump, dispatch cx minst ∅ = .jump)
    (untaken : IfFalse ⟨numBlocks, b, mbb, i⟩ st.cur) (splits : ∀ j, i ≤ j → st.blocks (.split b j) = [])
    (done : fillInstrs cx ⟨numBlocks, b, mbb, i + 1⟩ addrs (conds ++ jump.toList) st = .ok st') :
    ∃ after loads, Chain cx numBlocks b mbb st'.blocks after (i + 1) conds st.cur loads ∧
      After b st'.blocks jump after ∧ st'.blocks (.mbb b) = st.blocks (.mbb b) ++ loads ∧
      ∀ l, l ≠ .mbb b → (∀ j, i ≤ j → l ≠ .split b j) → st'.blocks l = st.blocks l := by
  induction conds generalizing i prev st with
  | nil =>
    have next : (Site.mk numBlocks b mbb i).next = jump := by
      have head := congrArg List.head? drop
      rw [List.head?_drop] at head
      rw [Site.next, head]
      cases jump <;> rfl
    cases jump with
    | none =>
      cases done
      refine ⟨_, [], .nil, ?_, by simp, fun _ _ _ => rfl⟩
      generalize st'.cur = cur at untaken
      cases untaken with
      | folded _ _ found | split _ found => simp [next] at found
      | fallthrough => exact .next
    | some minst =>
      obtain ⟨addr, st₁, first, done⟩ := fillInstrs_cons done
      cases done
      rw [generateInstruction_eq, dispatch_congr (by simp) (jumps minst rfl)] at first
      have behind : (Site.mk numBlocks b mbb (i + 1)).prev.any MachineInstr.isConditionalBranch = true := by
        simp [Site.prev, before, conditional]
      rcases generateJump_ok first with ⟨-, rfl⟩ | ⟨other, -⟩
      · refine ⟨_, [], .nil, ?_, by simp, fun _ _ _ => rfl⟩
        generalize st'.cur = cur at untaken
        cases untaken with
        | folded minst' t found marked operand =>
          cases next.symm.trans found
          exact .folded marked (mbbOperand_first operand)
        | split minst' found other =>
          cases next.symm.trans found
          exact .unmarked other (splits i (Nat.le_refl i))
        | fallthrough last => simp [next] at last
      · simp [behind] at other
  | cons minst rest ih =>
    have here : mbb[i + 1]? = some minst := by
      have head := congrArg List.head? drop
      rwa [List.head?_drop] at head
    have later : mbb.drop (i + 1 + 1) = rest ++ jump.toList := by
      rw [← List.drop_drop, drop]
      rfl
    have branch := branches minst List.mem_cons_self
    obtain ⟨-, -, conditional'⟩ := dispatch_branch branch
    obtain ⟨addr, st₁, first, done⟩ := fillInstrs_cons done
    obtain ⟨loads, args, t, code, untaken', blocks⟩ := branch_lifted branch first
    have cur : st.cur = .split b i := by
      generalize st.cur = cur at untaken
      cases untaken with
      | folded minst' t found marked operand =>
        cases found.symm.trans here
        simp [MachineInstr.not_conditional_of_unconditional marked] at conditional'
      | split => rfl
      | fallthrough last => simp [Site.next, here] at last
    simp only [cur, Site.label] at blocks
    have untouched : ∀ l, l ≠ .mbb b → l ≠ .split b i → st₁.blocks l = st.blocks l := by
      intro l foreign apart
      simp only [blocks, foreign, apart, if_false, List.append_nil]
    obtain ⟨after, more, chain, follows, whole, frame⟩ := ih here conditional' later
      (fun minst' member => branches minst' (List.mem_cons_of_mem _ member)) untaken'
      (fun j above => (untouched _ (by rintro ⟨⟩) (by rintro ⟨⟩; omega)).trans (splits j (by omega))) done
    refine ⟨after, loads ++ more, ?_, follows, ?_, ?_⟩
    · rw [cur]
      refine .cons (i := i + 1) code ?_ chain
      rw [Nat.add_sub_cancel, frame _ (by rintro ⟨⟩) (by rintro j above ⟨⟩; omega), blocks,
        splits i (Nat.le_refl i)]
      simp
    · rw [whole, blocks]
      simp
    · intro l foreign apart
      rw [frame l foreign fun j above => apart j (by omega)]
      exact untouched l foreign (apart i (Nat.le_refl i))

/-- The instructions in front of the branches stay in the block of the machine block. -/
theorem straight_lifted {i : Nat} (straight : ∀ minst ∈ generics, IsStraight cx minst)
    (cur : st.cur = .mbb b) (done : fillInstrs cx ⟨numBlocks, b, mbb, i⟩ addrs generics st = .ok st') :
    st'.cur = .mbb b ∧ (∀ l, l ≠ .mbb b → st'.blocks l = st.blocks l) ∧
      ∃ code, st'.blocks (.mbb b) = st.blocks (.mbb b) ++ code ∧ Plain code ∧ LoadsPlaced [] code := by
  induction generics generalizing i st with
  | nil =>
    cases done
    exact ⟨cur, fun _ _ => rfl, [], by simp, .nil, trivial⟩
  | cons minst rest ih =>
    obtain ⟨addr, st₁, first, done⟩ := fillInstrs_cons done
    have other : dispatch cx minst st.sptrack ∉ [.ret, .indirect, .jump, .branch, .call] :=
      fun transfer => straight minst List.mem_cons_self (by rwa [dispatch_congr transfer rfl])
    obtain ⟨⟨code, appends, chunk⟩, -⟩ := generateInstruction_ok first
    obtain ⟨stays, plain⟩ := chunk.of_plain other
    have own : st.cur = Site.label ⟨numBlocks, b, mbb, i⟩ := cur
    obtain ⟨code', same, placed⟩ := placed_straight other own first
    have here := appends.here
    rw [cur] at here
    obtain rfl := List.append_cancel_left (here.symm.trans same)
    obtain ⟨cur', frame, more, whole, plain', placed'⟩ :=
      ih (fun minst' member => straight minst' (List.mem_cons_of_mem _ member)) (stays.trans cur) done
    refine ⟨cur', ?_, code ++ more, ?_, plain.append plain', placed.append (placed'.mono (by simp))⟩
    · intro l foreign
      obtain ⟨loads, blocks, -, none⟩ := appends.loads l (by rwa [cur])
      rw [frame l foreign, blocks, none foreign, List.append_nil]
    · rw [whole, here, List.append_assoc]

/-- The IR blocks of the machine block. -/
structure ChainedBlocks (cx : Context W) (numBlocks b : Nat) (mbb : MachineBasicBlock) (straight : List Inst)
    (i : Nat) (minst : MachineInstr) (rest : List MachineInstr) (jump : Option MachineInstr)
    (blocks : Label → List Inst) (loads : List Inst) (args : List Value) (t : BlockId) (l after : Label)
    (more : List Inst) : Prop where
  plain : Plain straight
  placed : LoadsPlaced [] straight
  code : BranchCode cx ⟨numBlocks, b, mbb, i⟩ minst loads args t
  own : blocks (.mbb b) = (straight ++ loads) ++ (branchCode b i minst args t l ++ more)
  chain : Chain cx numBlocks b mbb blocks after (i + 1) rest l more
  follows : After b blocks jump after

theorem placed_start (cx : Context W) (b : BlockId) :
    LoadsPlaced [] (if b = 0 then materializeRegisters cx.stats else []) := by
  split_ifs
  · apply loadsPlaced_of_uses
    intro i member b j k used
    obtain ⟨_, -, inside⟩ := List.mem_flatMap.mp member
    obtain ⟨_, -, inside⟩ := List.mem_flatMap.mp inside
    simp only [materializeRegister, List.mem_cons, List.not_mem_nil, or_false] at inside
    rcases inside with rfl | rfl | rfl <;> simp [Inst.values, Ptr.values] at used
  · trivial

/-- The block ends in a branch, so that nothing is added behind it. -/
theorem BranchBlock.last_branch (block : BranchBlock cx mbb generics conds jump) {last : MachineInstr}
    (found : mbb.getLast? = some last) : isBranch last = true := by
  rw [block.instrs, List.append_assoc,
    List.getLast?_append_of_ne_nil _ (by simp [block.nonempty])] at found
  rcases List.mem_append.mp (List.mem_of_getLast? found) with branch | jumps
  · exact (dispatch_branch (block.branches last branch)).1
  · exact (dispatch_jump (block.jumps last (Option.mem_toList.mp jumps))).1

theorem BranchBlock.lifted (block : BranchBlock cx mbb generics conds jump) (opens : Opens cx b st)
    (done : fillIrForBb cx numBlocks b mbb addrs st = .ok st') :
    ∃ minst rest loads args t l after more, conds = minst :: rest ∧
      ChainedBlocks cx numBlocks b mbb (straightCode cx numBlocks b mbb addrs generics st) generics.length
        minst rest jump st'.blocks loads args t l after more := by
  obtain ⟨minst, rest, rfl⟩ := List.exists_cons_of_ne_nil block.nonempty
  unfold fillIrForBb at done
  split_ifs at done
  obtain ⟨st₂, filled, terminator⟩ := bind_ok.mp done
  have split : fillInstrs cx ⟨numBlocks, b, mbb, 0⟩ addrs (generics ++ (minst :: rest ++ jump.toList))
      { st with cur := .mbb b } = .ok st₂ := by
    rw [← filled]
    congr 1
    rw [block.instrs, List.append_assoc]
  rw [fillInstrs_append] at split
  obtain ⟨st₁, front, back⟩ := bind_ok.mp split
  obtain ⟨cur, frame, code, whole, plain, placed⟩ := straight_lifted block.straight rfl front
  have straight : straightCode cx numBlocks b mbb addrs generics st = st₁.blocks (.mbb b) := by
    simp only [straightCode, front]
  obtain ⟨addr, st₃, first, back⟩ := fillInstrs_cons back
  have branch := block.branches minst List.mem_cons_self
  obtain ⟨-, -, conditional⟩ := dispatch_branch branch
  obtain ⟨loads, args, t, taken, untaken, blocks⟩ := branch_lifted branch first
  have here : mbb[generics.length]? = some minst := by rw [block.instrs]; simp
  have drop : mbb.drop (generics.length + 1) = rest ++ jump.toList := by
    rw [block.instrs, List.append_assoc, ← List.drop_drop, List.drop_left]
    rfl
  simp only [cur, Site.label, Nat.zero_add] at blocks untaken back taken
  have splits : ∀ j, generics.length ≤ j → st₃.blocks (.split b j) = [] := by
    intro j _
    simp [blocks, frame, opens.splits]
  obtain ⟨after, more, chain, follows, own, -⟩ := chain_lifted here conditional drop
    (fun minst' member => block.branches minst' (List.mem_cons_of_mem _ member)) block.jumps untaken
    splits back
  obtain ⟨last, found, ⟨-, rfl⟩ | ⟨other, -, -⟩⟩ := fillTerminator_ok terminator
  · refine ⟨minst, rest, loads, args, t, _, after, more, rfl, ?_, ?_, taken, ?_, chain, follows⟩
    · rw [straight, whole, opens.own]
      apply Plain.append _ plain
      split_ifs
      · exact plain_materialize cx.stats
      · exact .nil
    · rw [straight, whole, opens.own]
      exact (placed_start cx b).append (placed.mono (by simp))
    · rw [straight, own, blocks]
      simp [List.append_assoc]
  · rw [block.last_branch found] at other
    cases other

theorem no_loads {s : Site} {ops : List MachineOperand} {n : Nat} {loads : List Inst}
    {vals : List (Option Value)} (done : operandsToValues cx s ops n = .ok (loads, vals))
    (constant : ∀ op ∈ ops, ¬NeedsLoad cx op) : loads = [] := by
  induction ops generalizing n loads vals with
  | nil =>
    cases done
    rfl
  | cons op rest ih =>
    obtain ⟨⟨load, val⟩, first, done⟩ := bind_ok.mp done
    obtain ⟨⟨later, vals'⟩, others, done⟩ := bind_ok.mp done
    cases done
    obtain ⟨here, there⟩ := List.forall_mem_cons.mp constant
    obtain rfl := ih others there
    cases operandToValue_ok.mp first with
    | register varying => exact absurd varying here
    | constant | implicitDef | immediate => rfl

theorem loaded_operand {s : Site} {ops : List MachineOperand} {n : Nat} {loads : List Inst}
    {vals : List (Option Value)} {args : List Value} (done : operandsToValues cx s ops n = .ok (loads, vals))
    (required : requireArgs vals = .ok args) {op : MachineOperand} (member : op ∈ ops)
    (needs : NeedsLoad cx op) : ∃ k, .ssa (.operand s.block s.idx k) ∈ args := by
  induction ops generalizing n loads vals args with
  | nil => cases member
  | cons op' rest ih =>
    obtain ⟨⟨load, val⟩, first, done⟩ := bind_ok.mp done
    obtain ⟨⟨later, vals'⟩, others, done⟩ := bind_ok.mp done
    cases done
    cases val with
    | none => cases required
    | some v =>
      obtain ⟨args', remaining, whole⟩ := bind_ok.mp required
      cases whole
      rcases List.mem_cons.mp member with rfl | there
      · refine ⟨n, List.mem_cons.mpr (.inl ?_)⟩
        cases operandToValue_ok.mp first with
        | register => rfl
        | constant found =>
          cases found.symm.trans needs
        | immediate => cases needs
      · obtain ⟨k, used⟩ := ih others remaining there
        exact ⟨k, List.mem_cons_of_mem _ used⟩

theorem BranchCode.no_loads {s : Site} {minst : MachineInstr} {loads : List Inst} {args : List Value}
    {t : BlockId} (code : BranchCode cx s minst loads args t)
    (constant : ∀ op ∈ minst.uses, ¬NeedsLoad cx op) : loads = [] := by
  obtain ⟨vals, values, -⟩ := code.operands
  exact Bleach.no_loads values fun op member => constant op (List.mem_filter.mp member).1

theorem BranchCode.loaded {s : Site} {minst : MachineInstr} {loads : List Inst} {args : List Value}
    {t : BlockId} (code : BranchCode cx s minst loads args t) {op : MachineOperand} (member : op ∈ minst.uses)
    (needs : NeedsLoad cx op) : ∃ k, .ssa (.operand s.block s.idx k) ∈ args := by
  obtain ⟨vals, values, required⟩ := code.operands
  refine loaded_operand values required (List.mem_filter.mpr ⟨member, ?_⟩) needs
  cases op with
  | reg => rfl
  | _ => cases needs

theorem BranchCode.plain {s : Site} {minst : MachineInstr} {loads : List Inst} {args : List Value}
    {t : BlockId} (code : BranchCode cx s minst loads args t) : Plain loads := by
  obtain ⟨vals, values, -⟩ := code.operands
  exact plain_operands values

theorem BranchCode.placed {s : Site} {minst : MachineInstr} {loads : List Inst} {args : List Value}
    {t : BlockId} (code : BranchCode cx s minst loads args t) (i : Nat) (l : Label) :
    LoadsPlaced [] (loads ++ branchCode b i minst args t l) := by
  apply placed_operands code.operands
  intro j member b' j' k used
  simp only [branchCode, List.mem_cons, List.not_mem_nil, or_false] at member
  rcases member with rfl | rfl
  · exact used
  · simp [Inst.values] at used

variable {blocks : Label → List Inst} {after l : Label} {i : Nat} {more : List Inst}

theorem Chain.plain (chain : Chain cx numBlocks b mbb blocks after i conds l more) : Plain more := by
  induction chain with
  | nil => exact .nil
  | cons code _ _ ih => exact code.plain.append ih

theorem Chain.no_loads (chain : Chain cx numBlocks b mbb blocks after i conds l more)
    (constant : ∀ minst ∈ conds, ∀ op ∈ minst.uses, ¬NeedsLoad cx op) : more = [] := by
  induction chain with
  | nil => rfl
  | cons code _ _ ih =>
    obtain ⟨here, there⟩ := List.forall_mem_cons.mp constant
    rw [code.no_loads here, ih there]
    rfl

/-- The branches of a chain that loads nothing run to the first target whose branch is taken. -/
theorem Chain.runs {M : IRModule W} {f : FuncId} (widths : M.widths = cx.stats.widths)
    (getFunction : M.getFunction = cx.instrs.getFunction)
    (body : M.body f = some (redundantBranchEraser blocks))
    (chain : Chain cx numBlocks b mbb blocks after i conds l more) (none : more = [])
    (regs : Locals M.widths) (callers : List (Frame M.widths)) {e t : BlockId} (last : after = .mbb e)
    {shared : Shared M.widths W} {world : W} (env : Env)
    (first : firstTaken cx regs e conds shared.world = some (t, world)) :
    ∃ env', Transition.Reaches M.step
      ⟨⟨f, l, redundantBranchEraser blocks l, env, regs⟩ :: callers, shared⟩
      ⟨⟨f, .mbb t, redundantBranchEraser blocks (.mbb t), env', regs⟩ :: callers,
        { shared with world := world }⟩ := by
  induction chain generalizing shared env with
  | nil =>
    cases first
    exact ⟨env, by rw [last]; exact .refl _⟩
  | @cons i minst rest loads args t' next more code emitted later ih =>
    obtain ⟨rfl, rfl⟩ := List.append_eq_nil_iff.mp none
    obtain ⟨⟨taken, world'⟩, decides, first⟩ := Option.bind_eq_some_iff.mp first
    have kept : (Frame.mk f (.split b (i - 1)) (redundantBranchEraser blocks (.split b (i - 1))) env
        regs).code =
        [] ++ branchCode b i minst args t' next := by
      change redundantBranchEraser blocks _ = _
      rw [redundantBranchEraser, emitted]
      rfl
    obtain ⟨env', path⟩ := branch_runs widths getFunction code.operands body kept callers decides
    cases taken with
    | true =>
      simp only [if_true, code.target, Option.bind_eq_bind, Option.bind_some] at first
      cases first
      exact ⟨env', path⟩
    | false =>
      have others : firstTaken cx regs e rest ({ shared with world := world' } : Shared M.widths W).world =
          some (t, world) := first
      obtain ⟨env'', rest⟩ := ih rfl env' others
      exact ⟨env'', path.trans rest⟩

theorem condBr_mem {minst : MachineInstr} {args : List Value} {t : BlockId} {l l' ifTrue : Label}
    {cond : Value}
    (member : .condBr cond ifTrue l' ∈ branchCode b i minst args t l) : l' = l := by
  simp [branchCode] at member
  exact member.2.2

/-- A block that was created for the chain has the code of one of its branches, or is the last
block. -/
theorem Chain.produced (chain : Chain cx numBlocks b mbb blocks after i conds l more)
    (here : ∀ j, l = .split b j → Produced blocks b l) :
    (∀ j, after = .split b j → Produced blocks b after) ∧ ∀ minst ∈ conds, ∃ i' l' loads args t next,
      Produced blocks b l' ∧ blocks l' = branchCode b i' minst args t next ∧
      BranchCode cx ⟨numBlocks, b, mbb, i'⟩ minst loads args t := by
  induction chain with
  | nil => exact ⟨here, by simp⟩
  | @cons i minst rest loads args t next more code emitted later ih =>
    have behind := here _ rfl
    obtain ⟨last, others⟩ := ih fun j same => by
      subst same
      exact .split behind (by rw [emitted]; exact List.mem_cons_of_mem _ (List.mem_singleton_self _))
    refine ⟨last, ?_⟩
    intro minst' member
    rcases List.mem_cons.mp member with rfl | there
    · exact ⟨_, _, _, _, _, _, behind, emitted, code⟩
    · exact others minst' there

theorem Produced.shape (produced : Produced blocks b l) : l = .mbb b ∨ ∃ j, l = .split b j := by
  cases produced with
  | own => exact .inl rfl
  | split => exact .inr ⟨_, rfl⟩

/-- No branch stands in the block the chain ends in, unless it is the block it started from. -/
theorem After.no_branch (follows : After b blocks jump after) (produced : Produced blocks b after)
    {cond : Value} {ifTrue l' : Label} (branch : .condBr cond ifTrue l' ∈ blocks after) :
    after = .mbb b := by
  rcases produced.shape with here | ⟨j, rfl⟩
  · exact here
  · cases follows with
    | unmarked _ empty =>
      rw [empty] at branch
      cases branch

namespace ChainedBlocks
variable {straight loads : List Inst} {minst : MachineInstr} {rest : List MachineInstr}
  {args : List Value} {t : BlockId} (chained : ChainedBlocks cx numBlocks b mbb straight i minst rest
    jump blocks loads args t l after more)
include chained

theorem erases :
    keptCode (blocks (.mbb b)) = (straight ++ loads) ++ branchCode b i minst args t l ∧
      erasedCode (blocks (.mbb b)) = more := by
  have opened : ∀ j ∈ (straight ++ loads) ++ [.callInstr (.result b i) minst.desc.name args],
      j.isCondBr = false := by
    intro j member
    exact Inst.not_condBr (((chained.plain.append chained.code.plain).append (.cons rfl .nil)) j member)
  have split : blocks (.mbb b) = ((straight ++ loads) ++ [.callInstr (.result b i) minst.desc.name args]) ++
      .condBr (.ssa (.result b i)) (.mbb t) l :: more := by
    rw [chained.own]
    simp [branchCode]
  obtain ⟨kept, erased⟩ := @kept_behind _ more (.condBr (.ssa (.result b i)) (.mbb t) l) opened rfl
  rw [split]
  exact ⟨kept.trans (by simp [branchCode]), erased⟩

theorem first_next {cond : Value} {ifTrue l' : Label}
    (branch : .condBr cond ifTrue l' ∈ blocks (.mbb b)) : l' = l := by
  rw [chained.own] at branch
  rcases List.mem_append.mp branch with front | back
  · cases (chained.plain.append chained.code.plain) _ front
  · rcases List.mem_append.mp back with here | behind
    · exact condBr_mem here
    · cases chained.chain.plain _ behind

theorem produced_first (j : Nat) (same : l = .split b j) : Produced blocks b l := by
  subst same
  refine @Produced.split blocks b _ (.ssa (.result b i)) (.mbb t) j .own ?_
  rw [chained.own]
  simp [branchCode]

theorem produced_cases {l' : Label} (produced : Produced blocks b l') : l' = .mbb b ∨ l' = after ∨
      ∃ i' minst' loads' args' t' next, minst' ∈ rest ∧ blocks l' = branchCode b i' minst' args' t' next ∧
        BranchCode cx ⟨numBlocks, b, mbb, i'⟩ minst' loads' args' t' := by
  suffices placed : l' = .mbb b ∨ ∃ i' rest' more', Chain cx numBlocks b mbb blocks after i' rest' l' more' ∧
      ∀ minst' ∈ rest', minst' ∈ rest by
    rcases placed with here | ⟨i', rest', more', chain, subset⟩
    · exact .inl here
    · cases chain with
      | nil => exact .inr (.inl rfl)
      | cons code emitted later =>
        exact .inr (.inr ⟨_, _, _, _, _, _, subset _ List.mem_cons_self, emitted, code⟩)
  induction produced with
  | own => exact .inl rfl
  | @split l' cond ifTrue j behind branch ih =>
    right
    rcases ih with rfl | ⟨i', rest', more', chain, subset⟩
    · cases chained.first_next branch
      exact ⟨_, _, _, chained.chain, fun _ member => member⟩
    · cases chain with
      | nil =>
        rw [chained.follows.no_branch behind branch] at branch
        cases chained.first_next branch
        exact ⟨_, _, _, chained.chain, fun _ member => member⟩
      | cons code emitted later =>
        rw [emitted] at branch
        cases condBr_mem branch
        exact ⟨_, _, _, later, fun _ member => subset _ (List.mem_cons_of_mem _ member)⟩

/-- The value of an operand is not at hand in a block of its own. -/
theorem foldable (lifts : LiftsBranches cx b straight (minst :: rest) jump blocks) :
    Foldable cx (minst :: rest) jump := by
  obtain ⟨last, others⟩ := chained.chain.produced chained.produced_first
  constructor
  · intro minst' member op uses needs
    obtain ⟨i', l', loads', args', t', next, produced, emitted, code⟩ := others minst' member
    obtain ⟨k, used⟩ := code.loaded uses needs
    have placed := lifts.placed l' produced
    rw [redundantBranchEraser, emitted] at placed
    cases placed.1 _ _ _ used
  · rintro minst' rfl
    cases chained.follows with
    | folded marked => exact marked
    | unmarked other empty =>
      obtain ⟨before, t', kept, -⟩ := lifts.terminated _ (last _ rfl)
      simp [redundantBranchEraser, empty, keptCode] at kept

/-- Every block that was created is some code and one terminator, and loads its own operands. -/
theorem produced_code (foldable : Foldable cx (minst :: rest) jump) {l' : Label}
    (produced : Produced blocks b l') :
    ∃ before cond ifTrue ifFalse, redundantBranchEraser blocks l' = before ++ [.condBr cond ifTrue ifFalse] ∧
      Plain before ∧ LoadsPlaced [] (redundantBranchEraser blocks l') ∧ erasedCode (blocks l') = [] := by
  have own : ∃ before cond ifTrue ifFalse,
      redundantBranchEraser blocks (.mbb b) = before ++ [.condBr cond ifTrue ifFalse] ∧ Plain before ∧
      LoadsPlaced [] (redundantBranchEraser blocks (.mbb b)) ∧ erasedCode (blocks (.mbb b)) = [] := by
    obtain ⟨kept, erased⟩ := chained.erases
    refine ⟨(straight ++ loads) ++ [.callInstr (.result b i) minst.desc.name args], .ssa (.result b i),
      .mbb t, l, kept.trans (by simp [branchCode]), ?_, ?_,
      erased.trans (chained.chain.no_loads foldable.constant)⟩
    · exact (chained.plain.append chained.code.plain).append (.cons rfl .nil)
    · rw [redundantBranchEraser, kept, List.append_assoc]
      exact chained.placed.append ((chained.code.placed _ _).mono (by simp))
  rcases chained.produced_cases produced with
    rfl | rfl | ⟨i', minst', loads', args', t', next, member, emitted, code⟩
  · exact own
  · rcases produced.shape with same | ⟨j, same⟩
    · rwa [same]
    · cases chained.follows with
      | next | folded => cases same
      | unmarked other => simp [foldable.marked _ rfl] at other
  · obtain rfl := code.no_loads (foldable.constant minst' member)
    have kept : redundantBranchEraser blocks l' = branchCode b i' minst' args' t' next := by
      rw [redundantBranchEraser, emitted]
      rfl
    refine ⟨[.callInstr (.result b i') minst'.desc.name args'], .ssa (.result b i'), .mbb t', next, kept,
      .cons rfl .nil, ?_, ?_⟩
    · rw [kept]
      exact code.placed i' next
    · rw [emitted]
      rfl

theorem transfers (foldable : Foldable cx (minst :: rest) jump) :
    TransfersControl cx b straight (minst :: rest) jump (redundantBranchEraser blocks) := by
  intro M f widths getFunction body fr callers shared d e t' world here code run otherwise first
  subst here
  have last : after = .mbb e := by
    cases chained.follows with
    | next =>
      cases otherwise
      rfl
    | folded _ target =>
      cases target.symm.trans otherwise
      rfl
    | unmarked other => simp [foldable.marked _ rfl] at other
  obtain ⟨kept, -⟩ := chained.erases
  have split : fr.code = straight ++ (loads ++ branchCode b i minst args t l) := by
    rw [code, redundantBranchEraser, kept, List.append_assoc]
  have path := IRModule.run_plain callers split run
  obtain ⟨⟨taken, world'⟩, decides, first⟩ := Option.bind_eq_some_iff.mp first
  have here : M.body (Frame.withData { fr with code := loads ++ branchCode b i minst args t l } d).func =
      some (redundantBranchEraser blocks) := body
  obtain ⟨env, branch⟩ := branch_runs widths getFunction chained.code.operands here rfl callers decides
  cases taken with
  | true =>
    simp only [if_true, chained.code.target, Option.bind_eq_bind, Option.bind_some] at first
    cases first
    exact ⟨env, .trans ⟨_, path⟩ branch⟩
  | false =>
    have others : firstTaken cx d.locals e rest
        ({ d.shared with world := world' } : Shared M.widths W).world = some (t', world) := first
    obtain ⟨env', path'⟩ := chained.chain.runs widths getFunction body
      (chained.chain.no_loads foldable.constant) d.locals callers last env others
    exact ⟨env', .trans ⟨_, path⟩ (branch.trans path')⟩

theorem lifts (foldable : Foldable cx (minst :: rest) jump) :
    LiftsBranches cx b straight (minst :: rest) jump blocks := by
  refine ⟨chained.transfers foldable, ?_, ?_, ?_⟩
  · intro l' produced
    obtain ⟨before, cond, ifTrue, ifFalse, kept, plain, -⟩ := chained.produced_code foldable produced
    exact ⟨before, _, kept, rfl, fun j member => Inst.not_terminator (plain j member)⟩
  · intro l' produced
    obtain ⟨_, _, _, _, -, -, placed, -⟩ := chained.produced_code foldable produced
    exact placed
  · intro l' produced j member
    obtain ⟨_, _, _, _, -, -, -, erased⟩ := chained.produced_code foldable produced
    rw [erased] at member
    cases member

end ChainedBlocks

/-- A block that ends in conditional branches, and perhaps a jump, is lifted correctly exactly
when no branch behind the first reads a register that is not constant and the target marks
the jump as an unconditional branch. -/
theorem branch_block_lifted_iff (block : BranchBlock cx mbb generics conds jump) (opens : Opens cx b st)
    (done : fillIrForBb cx numBlocks b mbb addrs st = .ok st') :
    LiftsBranches cx b (straightCode cx numBlocks b mbb addrs generics st) conds jump st'.blocks ↔
      Foldable cx conds jump := by
  obtain ⟨minst, rest, loads, args, t, l, after, more, rfl, chained⟩ := block.lifted opens done
  exact ⟨chained.foldable, chained.lifts⟩

namespace RiscV

/-- The builder before a block other than the first is lifted. -/
def emptyBuilder (b : BlockId) : Builder := ⟨fun _ => [], .mbb b, {X2}⟩

theorem opens_empty : Opens context 1 (emptyBuilder 1) := ⟨rfl, fun _ => rfl⟩

/-- The second branch only compares constants. -/
def constantBranch : MachineBasicBlock := [addi X10 X10 1, beq X10 X11 3, beq X0 X0 2, br 0]

theorem constantBranch_block : BranchBlock context constantBranch [addi X10 X10 1]
    [beq X10 X11 3, beq X0 X0 2] (some (br 0)) where
  instrs := rfl
  straight := by simp [IsStraight]; decide
  branches := by decide
  nonempty := by decide
  jumps := by decide

theorem constantBranch_lifted : ∃ st',
    fillIrForBb context 4 1 constantBranch none (emptyBuilder 1) = .ok st' ∧
    LiftsBranches context 1 (straightCode context 4 1 constantBranch none [addi X10 X10 1] (emptyBuilder 1))
      [beq X10 X11 3, beq X0 X0 2] (some (br 0)) st'.blocks := by
  exact ⟨_, rfl, (branch_block_lifted_iff constantBranch_block opens_empty rfl).mpr
    ⟨by decide, by decide⟩⟩

/-- Both branches read registers. -/
def registerBranches : MachineBasicBlock := [beq X10 X11 3, beq X10 X8 2]

theorem registerBranches_block :
    BranchBlock context registerBranches [] [beq X10 X11 3, beq X10 X8 2] none where
  instrs := rfl
  straight := by simp
  branches := by decide
  nonempty := by decide
  jumps := by simp

/-- The operands of the second branch are loaded behind the first one, erased there and used
in the block of the second. -/
theorem registerBranches_broken : ∃ st',
    fillIrForBb context 4 1 registerBranches none (emptyBuilder 1) = .ok st' ∧
    .load (.operand 1 1 0) 64 (.cell ⟨0, X10⟩) ∈ erasedCode (st'.blocks (.mbb 1)) ∧
    redundantBranchEraser st'.blocks (.split 1 0) =
      branchCode 1 1 (beq X10 X8 2) [.ssa (.operand 1 1 0), .ssa (.operand 1 1 1)] 2 (.mbb 2) ∧
    ¬LiftsBranches context 1 (straightCode context 4 1 registerBranches none [] (emptyBuilder 1))
      [beq X10 X11 3, beq X10 X8 2] none st'.blocks := by
  refine ⟨_, rfl, by decide, by decide, ?_⟩
  intro lifts
  have done : fillIrForBb context 4 1 registerBranches none (emptyBuilder 1) = .ok _ := rfl
  obtain ⟨minst, rest, loads, args, t, l, after, more, same, chained⟩ :=
    registerBranches_block.lifted opens_empty done
  cases same
  exact (chained.foldable lifts).constant (beq X10 X8 2) (by decide) (use X10) (by decide) (by decide)

end RiscV
end Bleach
