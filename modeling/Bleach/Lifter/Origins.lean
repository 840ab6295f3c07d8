import Bleach.Lifter.Lifted
import Bleach.Lifter.Emitted
import Bleach.IRRun

/-! Where the executable code of a function comes from: registrations only stand in
front of the entry block, and the operands of an instruction behind a conditional
branch of its block are loaded where no run comes. -/
namespace Bleach
variable {W : Type} {cx : Context W} {mf : MachineFunction} {addrs : FunctionAddresses}
  {fin : Builder} {s : Site} {minst : MachineInstr} {st st' : Builder} {addr : Option (BitVec 64)}

/-- Neither a registration nor an instruction that defines the value of an operand. -/
def Inst.isOrdinary : Inst → Bool
  | .symtabAdd .. => false
  | i =>
    match i.dst? with
    | some (.operand ..) => false
    | _ => true

theorem Inst.not_ordinary {i : Inst} {b j k : Nat} (dst : i.dst? = some (.operand b j k)) :
    i.isOrdinary = false := by
  cases i <;> simp_all [Inst.isOrdinary, Inst.dst?]

def Ordinary (code : List Inst) : Prop := ∀ i ∈ code, i.isOrdinary = true

namespace Ordinary

theorem nil : Ordinary [] := by simp [Ordinary]

theorem cons {i : Inst} {code : List Inst} (here : i.isOrdinary = true) (rest : Ordinary code) :
    Ordinary (i :: code) := List.forall_mem_cons.mpr ⟨here, rest⟩

theorem append {first second : List Inst} (h : Ordinary first) (h' : Ordinary second) :
    Ordinary (first ++ second) := List.forall_mem_append.mpr ⟨h, h'⟩

theorem flatMap {α : Type} {l : List α} {f : α → List Inst} (each : ∀ a ∈ l, Ordinary (f a)) :
    Ordinary (l.flatMap f) := by
  intro i member
  obtain ⟨a, inside, here⟩ := List.mem_flatMap.mp member
  exact each a inside i here

end Ordinary

theorem ordinary_save (cx : Context W) : Ordinary cx.save :=
  .flatMap fun _ _ => .flatMap fun _ _ => .cons rfl (.cons rfl .nil)

theorem ordinary_reload (cx : Context W) : Ordinary cx.reload :=
  .flatMap fun _ _ => .flatMap fun _ _ => .cons rfl (.cons rfl .nil)

theorem ordinary_materialize (stats : RegisterStats) : Ordinary (materializeRegisters stats) :=
  .flatMap fun _ _ => .flatMap fun _ _ => .cons rfl (.cons rfl (.cons rfl .nil))

def OperandLoad (s : Site) (i : Inst) : Prop :=
  ∃ k width c, i = .load (.operand s.block s.idx k) width (.cell c)

theorem operandLoad_operands {ops : List MachineOperand} {k : Nat} {loads : List Inst}
    {vals : List (Option Value)} (done : operandsToValues cx s ops k = .ok (loads, vals)) :
    ∀ i ∈ loads, OperandLoad s i := by
  intro i member
  obtain ⟨_, -, _, n, rclass, c, -, -, -, load⟩ := operandsToValues_loads done i member
  exact ⟨n, _, c, load⟩

/-- Code an instruction adds to block `l`: operands are loaded in its own block. -/
def Adds (s : Site) (l : Label) (code : List Inst) : Prop :=
  ∀ i ∈ code, i.isOrdinary = true ∨ l = s.label ∧ OperandLoad s i

theorem generateInstruction_adds (done : generateInstruction cx s addr minst st = .ok st')
    (l : Label) : ∃ new, st'.blocks l = st.blocks l ++ new ∧ Adds s l new := by
  obtain ⟨new, blocks, emitted⟩ := generateInstruction_emits done l
  refine ⟨new, blocks, fun i member => ?_⟩
  cases emitted i member with
  | operand own => exact .inr ⟨own, _, _, _, rfl⟩
  | saved inside => exact .inl (ordinary_save cx i inside)
  | reloaded inside => exact .inl (ordinary_reload cx i inside)
  | control transfers => cases i <;> first | exact .inl rfl | cases transfers
  | lookup | cast | function | pointer | index | stackLoad | stackStore | loaded | result | constant =>
    exact .inl rfl

/-- No conditional branch stands in front of instruction `i` of its block. -/
def Unbranched (cx : Context W) (mbb : MachineBasicBlock) (i : Nat) : Prop :=
  ∀ j < i, ∀ minst, mbb[j]? = some minst → dispatch cx minst ∅ ≠ .branch

theorem live_append {first second : List Inst} {i : Inst} (member : i ∈ live (first ++ second)) :
    i ∈ live first ∨ (∀ j ∈ first, j.isTerminator = false) ∧ i ∈ live second := by
  induction first with
  | nil => exact .inr ⟨by simp, member⟩
  | cons j rest ih =>
    cases ends : j.isTerminator with
    | true => simp [live, ends] at member
    | false =>
      simp only [live, List.cons_append, ends, Bool.not_false, List.takeWhile_cons_of_pos,
        List.mem_cons] at member ih ⊢
      obtain rfl | later := member
      · exact .inl (.inl rfl)
      · refine (ih later).imp .inr (And.imp_left fun opened => ?_)
        rintro k (rfl | inside)
        · exact ends
        · exact opened k inside

theorem mem_of_live {code : List Inst} {i : Inst} (member : i ∈ live code) : i ∈ code :=
  List.takeWhile_subset _ member

theorem Chunk.cur_eq {path : Path} {cur cur' : Label} {code : List Inst}
    (chunk : Chunk cx s minst path cur code cur') (other : path ≠ .branch) : cur' = cur := by
  cases chunk with
  | branch here => exact absurd here other
  | _ => rfl

/-- While all branches of a block lie ahead the builder stands in the own IR block;
behind a branch that block is closed. -/
structure Origins (cx : Context W) (mf : MachineFunction) (b i : Nat) (st : Builder) : Prop where
  cur : ∀ {mbb}, mf.blocks[b]? = some mbb → st.cur = .mbb b ∧ Unbranched cx mbb i ∨
    ¬Unbranched cx mbb i ∧ ∃ t ∈ st.blocks (.mbb b), t.isTerminator = true
  code : ∀ l, ∀ x ∈ live (st.blocks l), x.isOrdinary = true ∨ ∃ b mbb i,
    mf.blocks[b]? = some mbb ∧ Unbranched cx mbb i ∧ OperandLoad (mf.site b mbb i) x

theorem origins_instr {b i : Nat} {mbb : MachineBasicBlock} {code : List Inst}
    (block : mf.blocks[b]? = some mbb) (here : mbb[i]? = some minst)
    (lifting : InstrLifting cx mf addrs fin b mbb i minst st st' code)
    (before : Origins cx mf b i st) : Origins cx mf b (i + 1) st' := by
  have first := before.cur block
  refine ⟨fun {mbb'} block' => ?_, fun l x member => ?_⟩
  · obtain rfl := Option.some.inj (block.symm.trans block')
    obtain ⟨cur, unbranched⟩ | ⟨branched, t, inside, ends⟩ := first
    · by_cases path : dispatch cx minst st.sptrack = .branch
      · obtain ⟨before, t, -, -, -, -, rfl⟩ := (path ▸ lifting.chunk).of_branch
        refine .inr ⟨fun none => none i (Nat.lt_succ_self i) minst here (dispatch_congr (by simp) path),
          .condBr (.ssa (.result b i)) (.mbb t) st'.cur, ?_, rfl⟩
        rw [← cur, lifting.appends.here]
        exact List.mem_append_right _ (List.mem_append_right _ (List.mem_singleton_self _))
      · refine .inl ⟨(lifting.chunk.cur_eq path).trans cur, fun j before minst' found => ?_⟩
        obtain earlier | rfl := Nat.lt_succ_iff_lt_or_eq.mp before
        · exact unbranched j earlier minst' found
        · obtain rfl := Option.some.inj (here.symm.trans found)
          exact fun branch => path (dispatch_congr (by simp) branch)
    · obtain ⟨more, whole⟩ := lifting.appends.extends (.mbb b)
      exact .inr ⟨fun none => branched fun j before => none j (Nat.lt_succ_of_lt before),
        t, whole ▸ List.mem_append_left _ inside, ends⟩
  · obtain ⟨addr, generated⟩ := lifting.generated
    obtain ⟨new, blocks, adds⟩ := generateInstruction_adds generated l
    rw [blocks] at member
    obtain old | ⟨opened, added⟩ := live_append member
    · exact before.code l x old
    · obtain ordinary | ⟨rfl, load⟩ := adds x (mem_of_live added)
      · exact .inl ordinary
      · obtain ⟨-, unbranched⟩ | ⟨-, t, inside, ends⟩ := first
        · exact .inr ⟨b, mbb, i, block, unbranched, load⟩
        · simp [opened t inside] at ends

theorem terminator_code (done : fillTerminator cx s st = .ok st') (l : Label) :
    ∃ new, st'.blocks l = st.blocks l ++ new ∧ Ordinary new := by
  obtain ⟨last, -, ⟨-, rfl⟩ | ⟨-, -, ⟨-, rfl⟩ | ⟨-, -, rfl⟩⟩⟩ := fillTerminator_ok done
  · exact ⟨[], by simp, .nil⟩
  · refine ⟨if l = st.cur then [.retVoid] else [], by simp, ?_⟩
    split_ifs
    · exact .cons rfl .nil
    · exact .nil
  · refine ⟨if l = st.cur then [.br (.mbb (s.block + 1))] else [], by simp, ?_⟩
    split_ifs
    · exact .cons rfl .nil
    · exact .nil

theorem origins_terminator (done : fillTerminator cx s st = .ok st')
    (before : ∀ l, ∀ x ∈ live (st.blocks l), x.isOrdinary = true ∨ ∃ b mbb i,
      mf.blocks[b]? = some mbb ∧ Unbranched cx mbb i ∧ OperandLoad (mf.site b mbb i) x) :
    ∀ l, ∀ x ∈ live (st'.blocks l), x.isOrdinary = true ∨ ∃ b mbb i,
      mf.blocks[b]? = some mbb ∧ Unbranched cx mbb i ∧ OperandLoad (mf.site b mbb i) x := by
  intro l x member
  obtain ⟨new, blocks, ordinary⟩ := terminator_code done l
  rw [blocks] at member
  obtain old | ⟨-, added⟩ := live_append member
  · exact before l x old
  · exact .inl (ordinary x (mem_of_live added))

theorem origins (whole : finalBuilder cx mf addrs = .ok fin) {b i : Nat} {mbb : MachineBasicBlock}
    (block : mf.blocks[b]? = some mbb) (bound : i ≤ mbb.length)
    (at_ : builderAt cx mf addrs b i = .ok st) : Origins cx mf b i st := by
  refine builder_induction whole (P := Origins cx mf) ?_ origins_instr ?_ block bound at_
  · intro st start
    have blocks : mf.blocks ≠ [] := fun empty => by simp [empty] at block
    obtain ⟨spReg, -, builder⟩ := builderAt_zero whole blocks
    obtain rfl := Except.ok.inj (builder.symm.trans start)
    refine ⟨fun _ => .inl ⟨rfl, fun j before => absurd before (Nat.not_lt_zero j)⟩, fun l x member => ?_⟩
    by_cases entry : l = entryLabel
    · subst entry
      rw [show ({ initialBuilder cx spReg with cur := entryLabel } : Builder).blocks entryLabel = _
        from initialBuilder_entry spReg] at member
      exact .inl (ordinary_materialize cx.stats x (mem_of_live member))
    · rw [show ({ initialBuilder cx spReg with cur := entryLabel } : Builder).blocks l = _
        from initialBuilder_other entry spReg] at member
      cases member
  · intro b mbb st st' block inside terminator before
    have code := origins_terminator terminator before.code
    exact ⟨fun _ => .inl ⟨rfl, fun j before => absurd before (Nat.not_lt_zero j)⟩, code⟩

theorem live_saves {save code : List Inst} {i : Inst}
    (member : i ∈ live (saveRegistersBeforeReturn save code)) : i ∈ save ∨ i ∈ live code := by
  induction code with
  | nil => cases member
  | cons j rest ih =>
    by_cases ret : j = .retVoid
    · subst ret
      rw [saveRegistersBeforeReturn_ret] at member
      obtain inside | ⟨-, later⟩ := live_append member
      · exact .inl (mem_of_live inside)
      · cases later
    · rw [saveRegistersBeforeReturn_cons save ret] at member
      cases ends : j.isTerminator with
      | true => simp [live, ends] at member
      | false =>
        simp only [live, ends, Bool.not_false, List.takeWhile_cons_of_pos, List.mem_cons] at member ih ⊢
        obtain rfl | later := member
        · exact .inr (.inl rfl)
        · exact (ih later).imp_right .inr

/-- The executable code of a lifted function. -/
theorem live_liftedBody {adds : List Inst} (whole : finalBuilder cx mf addrs = .ok fin)
    (blocks : mf.blocks ≠ []) {l : Label} {x : Inst} (member : x ∈ live (liftedBody cx adds fin l)) :
    x ∈ adds ∨ x.isOrdinary = true ∨ ∃ b mbb i, mf.blocks[b]? = some mbb ∧ Unbranched cx mbb i ∧
      OperandLoad (mf.site b mbb i) x := by
  have body : x ∈ adds ∨ x ∈ live (saveRegistersBeforeReturn cx.save (fin.blocks l)) := by
    by_cases entry : l = entryLabel
    · subst entry
      rw [liftedBody_entry] at member
      exact (live_append member).imp mem_of_live And.right
    · exact .inr (liftedBody_other entry ▸ member)
  apply body.imp_right
  intro inside
  obtain saved | inside := live_saves inside
  · exact .inl (ordinary_save cx x saved)
  · obtain ⟨b, mbb, st, block, builder, terminator⟩ := fin_last whole blocks
    exact origins_terminator terminator (origins whole block (Nat.le_refl _) builder).code l x inside

section
variable {w : Nat → Nat} {mfs : List MachineFunction} {addrs : FuncId → FunctionAddresses}
  {adds : List Inst} {M : IRModule W} {f : FuncId} {b i : Nat} {mbb : MachineBasicBlock}

/-- No executable instruction defines an operand of an instruction behind a
conditional branch of its block. -/
theorem Lifted.operand_unloaded (lifted : Lifted cx mfs addrs adds M) {blocks : Label → List Inst}
    (body : M.body f = some blocks) (found : mfs[f]? = some mf) (block : mf.blocks[b]? = some mbb)
    (branched : ¬Unbranched cx mbb i) {l : Label} {x : Inst} (member : x ∈ live (blocks l)) (k : Nat) :
    x.dst? ≠ some (.operand b i k) := by
  obtain ⟨mf', fin, found', nonempty, filled, rfl⟩ := lifted.body body
  obtain rfl := Option.some.inj (found.symm.trans found')
  intro same
  obtain inside | ordinary | ⟨b', mbb', i', block', unbranched, n, width, c, rfl⟩ :=
    live_liftedBody filled nonempty member
  · obtain ⟨a, g, rfl⟩ := lifted.adds x inside
    cases same
  · simp [Inst.not_ordinary same] at ordinary
  · obtain ⟨rfl, rfl, -⟩ : b' = b ∧ i' = i ∧ n = k := by
      simpa [Inst.dst?, MachineFunction.site] using same
    obtain rfl := Option.some.inj (block.symm.trans block')
    exact branched unbranched

theorem Frame.Grounded.operand_unbound {fr : Frame w} (grounded : fr.Grounded M)
    (lifted : Lifted cx mfs addrs adds M) (found : mfs[fr.func]? = some mf)
    (block : mf.blocks[b]? = some mbb) (branched : ¬Unbranched cx mbb i) (k : Nat) :
    fr.env (.operand b i k) = none := by
  obtain ⟨⟨blocks, pre, body, -, -⟩, values⟩ := grounded
  rw [← Option.not_isSome_iff_eq_none]
  intro bound
  obtain ⟨l, x, member, dst⟩ := values body bound
  exact lifted.operand_unloaded body found block branched member k dst

end
end Bleach
