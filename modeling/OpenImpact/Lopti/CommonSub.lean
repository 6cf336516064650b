import OpenImpact.Lopti.Queries
import OpenImpact.Lopti.StrengthReduction

/-!
# Common subexpressions in a block

`L_local_common_subexpression`: an operation that computes what an earlier one has computed is turned
into a move of the earlier result, or into no operation if it writes the same register, and equal moves
of a constant into a move of the register if the flags say so. A block keeps its run, guards and calls
included (`rewrites_localCommonSubexpression`).

It rests on `rewrites_sweepLoop` of the library of straight-line code, for which the pass is a rule:
what it skips, what stops it and what it rewrites (`commonRule_sound`). The predicate queries and
the operations outside the integer opcodes are parameters, with the laws of `Lawful` and `Runs`. An
operation has at most one destination here, so the branch for several ones is left out, and so are
moves of floats, predicates of the second kind and intrinsics.
-/

namespace OpenImpact.Lopti

open Foundation Lcode

/-- `move_flags`: `L_COMMON_SUB_MOVES_WITH_INT_CONSTANT`, `_LABEL_CONSTANT` and `_STRING_CONSTANT`. -/
structure MoveFlags where
  intConstant : Bool
  labelConstant : Bool
  stringConstant : Bool
  deriving DecidableEq

section Pass

variable (t : LocalTarget)

/-- The operations that the outer loop looks at. -/
def commonOpcode : Opcode → Bool
  | .noOp => false
  | .other n => t.otherArithmetic n
  | _ => true

/-- `L_different_src_and_dest_operands`. -/
def differentSrcAndDest (o : Oper) : Bool :=
  o.dest.all fun d ↦ .reg d ∉ o.src

/-- `L_compatible_opcodes`. -/
def compatibleOpcodes (opA opB : Oper) : Bool :=
  (opA.opc = opB.opc && t.com opA = t.com opB) ||
    match opA.opc with
    | .add => opB.opc = .addU
    | .addU => opB.opc = .add
    | .sub => opB.opc = .subU
    | .subU => opB.opc = .sub
    | _ => false

/-- `L_all_src_operand_same_def_reachs`. -/
def allSrcSameDefReachs (prevs : List Oper) (opA : Oper) (between : List Oper) (opB : Oper) : Bool :=
  opA.src.all fun
    | Operand.reg r => sameDefReachs t r prevs opA between opB
    | _ => true

/-- `L_all_dest_operand_no_defs_between`. -/
def allDestNoDefsBetween (opA : Oper) (between : List Oper) (opB : Oper) : Bool :=
  opA.dest.all fun d ↦ noDefsBetween t.toTarget d between opB

/-- `L_has_fragile_macro_operand`. -/
def hasFragileMacroOperand (o : Oper) : Bool :=
  o.dest.any t.fragileMacro || o.src.any fun
    | Operand.reg r => t.fragileMacro r
    | _ => false

/-- Whether moves of the constant are to be shared. -/
def moveAllowed (flags : MoveFlags) : Operand → Bool
  | .int _ => flags.intConstant
  | .label l =>
    if t.isLabel l then flags.labelConstant else t.isString l && flags.stringConstant
  | .reg _ => false

/-- The later of two equal operations. -/
def replaceCommon (flags : MoveFlags) (opA opB : Oper) : Run (Oper × ℕ) :=
  if opA.dest = opB.dest then .ok (nullifyOperation opB, 1)
  else if opA.opc = .mov then
    if opB.dest.any t.isMacro || !(opA.src[0]?).any (moveAllowed t flags) then .ok (opB, 0)
    else
      match opA.dest with
      | some d => .ok ({ opB with src := opB.src.set 0 (.reg d) }, 1)
      | none => .error .fault
  else
    match opA.dest, opB.dest with
    | some d, some _ => do
      let opB' ← convertToMove t.toTarget opB (.reg d)
      .ok (opB', 1)
    | some _, none => .error (.punt "L_convert_to_move: oper, dest, src may not be NULL")
    | none, _ => .error (.punt "L_common_subexpression: illegal op")

/-- The inner loop. -/
def commonRule (flags : MoveFlags) (prevs : List Oper) (opA : Oper) : Rule Halt Oper where
  skip between opB :=
    t.volatile opB.id || !compatibleOpcodes t opA opB || opA.src ≠ opB.src ||
    !differentSrcAndDest opB || !t.supersetPredicateOps opA opB ||
    opA.dest.any t.unsafeMacro || opB.dest.any t.unsafeMacro ||
    !allSrcSameDefReachs t prevs opA between opB || !allDestNoDefsBetween t opA between opB
  stop between := !noDangerMacro t (hasFragileMacroOperand t opA) (opA :: between)
  rewrite := replaceCommon t flags opA

/-- One operation in the outer loop. -/
def commonStart (flags : MoveFlags) (prevs : List Oper) (opA : Oper) (_rest : List Oper) :
    Run (Option (Rule Halt Oper)) :=
  if commonOpcode t opA.opc && differentSrcAndDest opA then .ok (some (commonRule t flags prevs opA))
  else .ok none

/-- `L_local_common_subexpression`: the block and the number of changes. -/
def localCommonSubexpression (flags : MoveFlags) (ops : List Oper) : Run (List Oper × ℕ) :=
  sweepLoop (commonStart t flags) [] ops.length ops

end Pass

variable {μ : Type} {t : LocalTarget} {w : World μ} {g : ℕ → Bool} {s : State μ}
  {opA opB opB' : Oper} {ops : List Oper} {arith : ℕ → ℕ × ℕ → List (BitVec 32) → BitVec 32}
  {flags : MoveFlags}

/-! ### What the operations compute -/

/-- What an operation of the pass computes from the values of its sources. -/
def valueOf (t : LocalTarget) (arith : ℕ → ℕ × ℕ → List (BitVec 32) → BitVec 32) (o : Oper)
    (vals : List (BitVec 32)) : BitVec 32 :=
  match o.opc with
  | .other n => arith n (t.com o) vals
  | opc => opc.eval (vals.getD 0 0) (vals.getD 1 0)

theorem result_of_commonOpcode (ho : OperOk t w arith opA) (hc : commonOpcode t opA.opc = true)
    (mem : μ) (regs : Regs) :
    opA.result (w.machine mem) regs = valueOf t arith opA (opA.srcValues (w.machine mem) regs) := by
  rw [Oper.result, valueOf]
  cases hopc : opA.opc with
  | other n =>
    rw [hopc] at hc
    exact (ho n hopc).arith_other hc _ _
  | _ => rfl

/-- Compatible operations compute the same. -/
theorem valueOf_of_compatible (h : compatibleOpcodes t opA opB = true) (vals : List (BitVec 32)) :
    valueOf t arith opB vals = valueOf t arith opA vals := by
  rw [compatibleOpcodes, Bool.or_eq_true, Bool.and_eq_true, decide_eq_true_eq, decide_eq_true_eq] at h
  rcases h with ⟨hopc, hcom⟩ | h
  · rw [valueOf, valueOf, hopc, hcom]
  · rw [valueOf, valueOf]
    split at h
    all_goals first | cases h | (rename_i hA; rw [hA, of_decide_eq_true h]; rfl)

theorem commonOpcode_of_compatible (h : compatibleOpcodes t opA opB = true)
    (hc : commonOpcode t opA.opc = true) : commonOpcode t opB.opc = true := by
  rw [compatibleOpcodes, Bool.or_eq_true, Bool.and_eq_true, decide_eq_true_eq, decide_eq_true_eq] at h
  rcases h with ⟨hopc, -⟩ | h
  · rw [← hopc, hc]
  · split at h
    all_goals first | cases h | (rw [of_decide_eq_true h]; rfl)

/-- An operation of the pass leaves the predicates and the memory. -/
theorem step_common (ho : OperOk t w arith opA) (hc : commonOpcode t opA.opc = true) :
    opA.step w s = ⟨⟨(opA.exec (w.machine s.mem) s.regs).reg, s.regs.pred⟩, s.mem⟩ := by
  cases hother : opA.opc.isOther with
  | false =>
    rw [step_of_not_isOther hother]
    exact congrArg (State.mk · s.mem) (regs_ext rfl (exec_pred_of_not_isOther hother))
  | true =>
    obtain ⟨n, hn⟩ := isOther_iff.1 hother
    have ho := ho n hn
    rw [hn] at hc
    have hpred : (opA.exec (w.machine s.mem) s.regs).pred = s.regs.pred := by
      simp only [Oper.exec, hn]
      exact ho.arith_preds hc _ _ _
    simp only [Oper.step, hn]
    split_ifs
    · have hregs : w.afterCall opA s (opA.exec (w.machine s.mem) s.regs) =
          ⟨(opA.exec (w.machine s.mem) s.regs).reg, s.regs.pred⟩ := by
        refine regs_ext (funext fun r ↦ ?_) hpred
        rw [World.afterCall]
        exact if_neg (by rw [ho.arith_clobbers hc r]; exact Bool.false_ne_true)
      rw [hregs, ho.arith_memory hc]
    · exact congrArg (State.mk · s.mem) (regs_ext rfl hpred)

/-- Nor does it do anything if it does not run. -/
theorem step_common_of_not_holds (ho : Runs t w g arith s opA) (hc : commonOpcode t opA.opc = true)
    (h : opA.holds g = false) : opA.step w s = s := by
  rw [step_common ho.2 hc]
  have hreg : (opA.exec (w.machine s.mem) s.regs).reg = s.regs.reg :=
    funext fun r ↦ exec_reg_of_guard (ho.1.trans h)
  rw [hreg]

/-- An operation of the pass may be replaced by another one that writes the same value. -/
theorem step_common_congr (ho : OperOk t w arith opA) (ho' : OperOk t w arith opB)
    (hc : commonOpcode t opA.opc = true) (hc' : commonOpcode t opB.opc = true)
    (hdest : opB.dest = opA.dest) (hpred : opB.pred = opA.pred)
    (h : opB.result (w.machine s.mem) s.regs = opA.result (w.machine s.mem) s.regs) :
    opB.step w s = opA.step w s := by
  rw [step_common ho hc, step_common ho' hc']
  have hreg : (opB.exec (w.machine s.mem) s.regs).reg = (opA.exec (w.machine s.mem) s.regs).reg := by
    simp only [Oper.exec, hdest, Oper.guard, hpred, h]
    rfl
  rw [hreg]

theorem step_nullifyOperation : (nullifyOperation opB).step w s = s := rfl

/-! ### The result of the first operation -/

/-- The registers that an operation reads. -/
def srcRegs (o : Oper) : List ℕ :=
  o.src.filterMap fun
    | .reg r => some r
    | _ => none

theorem mem_srcRegs {o : Oper} {r : ℕ} : r ∈ srcRegs o ↔ .reg r ∈ o.src := by
  rw [srcRegs, List.mem_filterMap]
  constructor
  · rintro ⟨a, ha, hr⟩
    cases a with
    | reg r' => cases hr; exact ha
    | int i => cases hr
    | label l => cases hr
  · exact fun h ↦ ⟨.reg r, h, rfl⟩

theorem srcValues_eq_of_srcRegs {o : Oper} {s' : State μ}
    (h : ∀ r ∈ srcRegs o, s'.regs.reg r = s.regs.reg r) :
    o.srcValues (w.machine s'.mem) s'.regs = o.srcValues (w.machine s.mem) s.regs := by
  refine List.map_congr_left fun a ha ↦ ?_
  cases a with
  | reg r => exact h r (mem_srcRegs.2 ha)
  | int i => rfl
  | label l => rfl

/-- The registers that the later operations must not change. -/
def commonRegs (o : Oper) : List ℕ :=
  o.dest.toList ++ srcRegs o

/-- The destination of an operation that has run holds what the operation would compute again. -/
def ResultHolds (t : LocalTarget) (w : World μ) (g : ℕ → Bool)
    (arith : ℕ → ℕ × ℕ → List (BitVec 32) → BitVec 32) (opA : Oper) (s : State μ) : Prop :=
  opA.holds g = true → ∀ d, opA.dest = some d →
    s.regs.reg d = valueOf t arith opA (opA.srcValues (w.machine s.mem) s.regs)

theorem resultHolds_step (ho : Runs t w g arith s opA) (hc : commonOpcode t opA.opc = true)
    (hdiff : differentSrcAndDest opA = true) : ResultHolds t w g arith opA (opA.step w s) := by
  intro hholds d hd
  have hnot : .reg d ∉ opA.src := by
    rw [differentSrcAndDest, hd] at hdiff
    exact of_decide_eq_true hdiff
  have hsrc : ∀ r ∈ srcRegs opA, (opA.step w s).regs.reg r = s.regs.reg r := by
    intro r hr
    rw [step_common ho.2 hc]
    refine exec_reg_of_dest_ne fun hdr ↦ hnot ?_
    cases hd.symm.trans hdr
    exact mem_srcRegs.1 hr
  rw [srcValues_eq_of_srcRegs hsrc, step_common ho.2 hc]
  exact (exec_reg_dest hd (ho.1.trans hholds)).trans (result_of_commonOpcode ho.2 hc _ _)

theorem resultHolds_of_not_disturbs {o : Oper} (ho : Runs t w g arith s o)
    (hnot : ¬ Disturbs t w g arith (commonRegs opA) o) (h : ResultHolds t w g arith opA s) :
    ResultHolds t w g arith opA (o.step w s) := by
  intro hholds d hd
  have hkeep {r : ℕ} (hr : r ∈ commonRegs opA) := step_reg_of_not_disturbs ho hnot hr
  rw [hkeep (by simp [commonRegs, hd]), srcValues_eq_of_srcRegs fun r hr ↦
    hkeep (List.mem_append_right _ hr), h hholds d hd]

/-! ### The pass -/

/-- The three ways to replace an operation. -/
theorem replaceCommon_cases {n : ℕ} (h : replaceCommon t flags opA opB = .ok (opB', n)) :
    opB' = opB ∨ (opA.dest = opB.dest ∧ opB' = nullifyOperation opB) ∨
      (∃ d, opA.opc = .mov ∧ opA.dest = some d ∧
        opB' = { opB with src := opB.src.set 0 (.reg d) }) ∨
      ∃ d, opA.dest = some d ∧ opB' = { opB with opc := .mov, src := [.reg d] } := by
  rw [replaceCommon] at h
  split_ifs at h with hdest hmov hskip
  · cases h
    exact .inr (.inl ⟨hdest, rfl⟩)
  · cases h
    exact .inl rfl
  · split at h
    · rename_i d hd
      cases h
      exact .inr (.inr (.inl ⟨d, hmov, hd, rfl⟩))
    · cases h
  · split at h
    · rename_i d _ hd _
      obtain ⟨o, hconv, h⟩ := Run.bind_eq_ok.1 h
      cases h
      rw [convertToMove] at hconv
      split_ifs at hconv
      cases hconv
      exact .inr (.inr (.inr ⟨d, hd, rfl⟩))
    · cases h
    · cases h

/-- The new operation may be met as the old one. -/
theorem runs_replaceCommon {n : ℕ} (hB : Runs t w g arith s opB) (hl : Lawful t g)
    (h : replaceCommon t flags opA opB = .ok (opB', n)) : Runs t w g arith s opB' := by
  rcases replaceCommon_cases h with rfl | ⟨-, rfl⟩ | ⟨d, -, -, rfl⟩ | ⟨d, -, rfl⟩
  · exact hB
  · exact ⟨guarded_of_pred rfl, operOk_of_not_isOther rfl⟩
  · exact hB.withSrc hl _
  · exact ⟨hB.1, operOk_of_not_isOther rfl⟩

/-- **The later operation is replaced** where the destination of the first one holds its result. -/
theorem step_replaceCommon {n : ℕ} (hB : Runs t w g arith s opB) (hholds : opB.holds g = true)
    (hc : commonOpcode t opA.opc = true) (hcompat : compatibleOpcodes t opA opB = true)
    (hsrc : opA.src = opB.src)
    (hresult : ∀ d, opA.dest = some d →
      s.regs.reg d = valueOf t arith opA (opA.srcValues (w.machine s.mem) s.regs))
    (h : replaceCommon t flags opA opB = .ok (opB', n)) : opB'.step w s = opB.step w s := by
  have hcB := commonOpcode_of_compatible hcompat hc
  have hvals : opA.srcValues (w.machine s.mem) s.regs = opB.srcValues (w.machine s.mem) s.regs := by
    rw [Oper.srcValues, hsrc, Oper.srcValues]
  have hvalue {d : ℕ} (hd : opA.dest = some d) :
      opB.result (w.machine s.mem) s.regs = s.regs.reg d := by
    rw [result_of_commonOpcode hB.2 hcB, valueOf_of_compatible hcompat, hresult d hd, hvals]
  rcases replaceCommon_cases h with rfl | ⟨hdest, rfl⟩ | ⟨d, hmov, hd, rfl⟩ | ⟨d, hd, rfl⟩
  · rfl
  · -- the same destination: writing the value again changes nothing
    rw [step_nullifyOperation, step_common hB.2 hcB]
    have hreg : (opB.exec (w.machine s.mem) s.regs).reg = s.regs.reg := by
      refine funext fun r ↦ ?_
      rcases eq_or_ne opB.dest (some r) with hr | hr
      · rw [exec_reg_dest hr (hB.1.trans hholds), hvalue (hdest.trans hr)]
      · exact exec_reg_of_dest_ne hr
    rw [hreg]
  · -- a move of a constant
    have hopc : opB.opc = .mov := by
      rw [compatibleOpcodes, hmov, Bool.or_eq_true, Bool.and_eq_true, decide_eq_true_eq] at hcompat
      rcases hcompat with ⟨hopc, -⟩ | hcompat
      · exact hopc.symm
      · cases hcompat
    have hmovResult {o : Oper} (ho : o.opc = .mov) :
        o.result (w.machine s.mem) s.regs = (o.srcValues (w.machine s.mem) s.regs).getD 0 0 := by
      rw [Oper.result, ho]
      rfl
    refine step_of_result rfl rfl (by rw [hopc]; rfl) (by rw [hopc]; rfl) fun _ ↦ ?_
    rw [hmovResult (o := { opB with src := opB.src.set 0 (.reg d) }) hopc]
    cases hops : opB.src with
    | nil => rw [hmovResult hopc, Oper.srcValues, Oper.srcValues, hops]; rfl
    | cons a rest => exact (hvalue hd).symm
  · exact step_common_congr hB.2 (operOk_of_not_isOther rfl) hcB rfl rfl rfl (hvalue hd).symm

theorem step_replaceCommon_of_not_holds {n : ℕ} (hB : Runs t w g arith s opB)
    (hc : commonOpcode t opB.opc = true) (hholds : opB.holds g = false) (hl : Lawful t g)
    (h : replaceCommon t flags opA opB = .ok (opB', n)) : opB'.step w s = opB.step w s := by
  have hruns := runs_replaceCommon hB hl h
  rw [step_common_of_not_holds hB hc hholds]
  rcases replaceCommon_cases h with rfl | ⟨-, rfl⟩ | ⟨d, -, -, rfl⟩ | ⟨d, -, rfl⟩
  · exact step_common_of_not_holds hB hc hholds
  · rfl
  · exact step_common_of_not_holds hruns hc hholds
  · exact step_common_of_not_holds (t := t) hruns rfl hholds

theorem dest_mem_commonRegs_cases {r : ℕ} (h : r ∈ commonRegs opA) :
    opA.dest = some r ∨ .reg r ∈ opA.src := by
  rcases List.mem_append.1 h with h | h
  · exact .inl (Option.mem_toList.1 h)
  · exact .inr (mem_srcRegs.1 h)

/-- The rule after an operation is sound. -/
theorem commonRule_sound (hl : Lawful t g) (prevs : List Oper) (hc : commonOpcode t opA.opc = true)
    (hdiff : differentSrcAndDest opA = true) :
    (commonRule t flags prevs opA).Sound (Oper.step w) (Runs t w g arith) (fun _ ↦ True) opA
      (ResultHolds t w g arith opA) (Disturbs t w g arith (commonRegs opA)) where
  start s hA := resultHolds_step hA hc hdiff
  keep s o ho hnot h := resultHolds_of_not_disturbs ho hnot h
  rewrite between opB opB' n s hskip hstop hrw _ hB hs := by
    refine ⟨runs_replaceCommon hB hl hrw, ?_⟩
    simp only [commonRule, Bool.or_eq_false_iff, Bool.not_eq_false', decide_eq_false_iff_not,
      not_not] at hskip
    simp only [commonRule, Bool.not_eq_false'] at hstop
    obtain ⟨⟨⟨⟨⟨⟨⟨⟨-, hcompat⟩, hsrc⟩, -⟩, hsuper⟩, -⟩, -⟩, hsame⟩, hdefs⟩ := hskip
    have hcB := commonOpcode_of_compatible hcompat hc
    cases hholdsB : opB.holds g with
    | false =>
      exact step_replaceCommon_of_not_holds hB hcB hholdsB hl hrw
    | true =>
      have hresult : ResultHolds t w g arith opA s := by
        refine hs fun p hp ↦ not_disturbs_between hl hholdsB (fun r hr p hp hint ↦ ?_)
          (noDanger_of_cons hstop) (fun r hr hf ↦ ?_) hp
        · rcases dest_mem_commonRegs_cases hr with hd | hsrc
          · rw [allDestNoDefsBetween, hd] at hdefs
            exact dest_ne_of_noDefsBetween hdefs hp hint
          · exact dest_ne_of_sameDefReachs (List.all_eq_true.1 hsame _ hsrc)
              (List.mem_cons_of_mem _ hp) hint
        · rw [hasFragileMacroOperand, Bool.or_eq_true]
          rcases dest_mem_commonRegs_cases hr with hd | hsrc
          · exact .inl (by rw [hd]; exact hf)
          · exact .inr (List.any_eq_true.2 ⟨_, hsrc, hf⟩)
      exact step_replaceCommon hB hholdsB hc hcompat hsrc
        (hresult (hl.superset opA opB hsuper hholdsB)) hrw

/-- **Common subexpressions keep what a block does.** In every run in which the guards are as the
predicate graph has them, the block leaves the same registers and the same memory, calls and side exits
included. -/
theorem rewrites_localCommonSubexpression (hl : Lawful t g) {ops' : List Oper} {c : ℕ}
    (hmeets : Meets (Oper.step w) (Runs t w g arith) ops s)
    (h : localCommonSubexpression t flags ops = .ok (ops', c)) :
    Rewrites (Oper.step w) (Runs t w g arith) ops ops' s := by
  refine rewrites_sweepLoop (Q := fun _ _ ↦ True) (fun prevs opA rest r hstart ↦ ?_) hmeets
    loopFits_trivial h
  rw [commonStart] at hstart
  split_ifs at hstart with hcond
  · cases hstart
    rw [Bool.and_eq_true] at hcond
    exact ⟨_, _, commonRule_sound hl prevs hcond.1 hcond.2⟩
  · cases hstart

/-- `add r3 = r1, r2` three times, one of them unsigned and under a guard, and two moves of a label. -/
def commonBlock : List Oper :=
  [⟨1, .add, some 3, [.reg 1, .reg 2], none⟩, ⟨2, .addU, some 4, [.reg 1, .reg 2], some 7⟩,
    ⟨3, .add, some 3, [.reg 1, .reg 2], none⟩, ⟨4, .mov, some 5, [.label 9], none⟩,
    ⟨5, .mov, some 6, [.label 9], none⟩]

/-- The block with one sum and one move of the label. -/
def commonShared : List Oper :=
  [⟨1, .add, some 3, [.reg 1, .reg 2], none⟩, ⟨2, .mov, some 4, [.reg 3], some 7⟩,
    ⟨3, .noOp, none, [], none⟩, ⟨4, .mov, some 5, [.label 9], none⟩,
    ⟨5, .mov, some 6, [.reg 5], none⟩]

theorem rewrites_localCommonSubexpression_commonBlock :
    Rewrites (Oper.step charWorld) (Runs charTarget charWorld (fun _ ↦ true) fun _ _ _ ↦ 0)
      commonBlock commonShared ⟨⟨BitVec.ofNat 32, fun _ ↦ true⟩, []⟩ := by
  have hrun : localCommonSubexpression charTarget ⟨false, true, true⟩ commonBlock =
      .ok (commonShared, 3) := by
    decide +kernel
  exact rewrites_localCommonSubexpression lawful_charTarget
    ⟨⟨rfl, operOk_of_not_isOther rfl⟩, ⟨rfl, operOk_of_not_isOther rfl⟩,
      ⟨rfl, operOk_of_not_isOther rfl⟩, ⟨rfl, operOk_of_not_isOther rfl⟩,
      ⟨rfl, operOk_of_not_isOther rfl⟩, trivial⟩ hrun

end OpenImpact.Lopti
